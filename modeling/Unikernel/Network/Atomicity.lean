import Unikernel.Network.Isolation

/-!
# What a failed frame leaves behind

`listen` swallows every exception and goes on with whatever was assigned before
it; nothing is rolled back. A frame that cannot be decoded changes nothing, but
`addFragment` raises in the middle of a copy, and `initAssembling` raises when
the fragment is already stored.
-/

namespace Unikernel.Network

open Sml Keyed Overlay

variable {σ : Type}

/-- The part of `handleIPv4` up to its protocol dispatch: what it does to the
buffers, and what it raises there. -/
def reassemble (ethFrame : Str) : EStateM Exn Buffers (IPv4.Header × Option Str) := do
  let (ipv4Header, ipv4Pay) ← raising (ipv4Packet ethFrame)
  let payloadOpt ← payloadOpt ipv4Header ipv4Pay
  return (ipv4Header, payloadOpt)

theorem reassemble_ok {ethFrame pay : Str} {h : IPv4.Header}
    (hp : ipv4Packet ethFrame = .ok (h, pay)) (b : Buffers) :
    reassemble ethFrame b = match payloadOpt h pay b with
      | .ok o b' => .ok (h, o) b'
      | .error e b' => .error e b' := by
  rw [reassemble, raising_bind_ok hp]
  simp only
  rw [estate_bind]
  cases payloadOpt h pay b with
  | ok o b' => rfl
  | error e b' => rfl

/-- `handleIPv4` leaves the buffers as `reassemble` does. -/
theorem step_eq_reassemble (b : Buffers) (ethFrame : Str) :
    (b.step ethFrame).1 = after (reassemble ethFrame b) := by
  cases hp : ipv4Packet ethFrame with
  | error e =>
    rw [step_error hp, reassemble, raising_bind_error hp]
    rfl
  | ok r =>
    obtain ⟨h, pay⟩ := r
    rw [step_ok hp, reassemble_ok hp]
    cases payloadOpt h pay b with
    | ok o b' => rfl
    | error e b' => rfl

/-- What a failed `addFragment` leaves: the fragment lists as they were, and in
the first array for the packet ID, some bytes of the payload. -/
structure AddFailed (X : PacketID) (pay : Str) (b b' : Buffers) : Prop where
  fragmentBuffer : b'.fragmentBuffer = b.fragmentBuffer
  assemblingList : ∃ a a', b.assemblingList.lookup X = some a ∧ a'.length = a.length ∧
    (∀ (i : Nat) (x : UInt8), a'[i]? = some x → a[i]? = some x ∨ x ∈ pay) ∧
    b'.assemblingList = Keyed.assign X a' b.assemblingList

/-- What a failed `initAssembling` leaves: the fragment in front of the others
of its packet ID, as `addFragment` stored it. -/
structure InitFailed (X : PacketID) (g : Fragment) (b b' : Buffers) : Prop where
  fragmentBuffer : ∃ l, b.fragmentBuffer.lookup X = some l ∧
    b'.fragmentBuffer = Keyed.assign X (g :: l) b.fragmentBuffer
  assemblingList : b'.assemblingList = b.assemblingList

theorem getElem?_write_cases {a : CharArray} {k i : Nat} {p : Str} {x : UInt8}
    (h : (write a ⟨k, p⟩)[i]? = some x) : a[i]? = some x ∨ x ∈ p := by
  rw [getElem?_write, Option.map_eq_some_iff] at h
  obtain ⟨y, hy, hx⟩ := h
  cases hat : (Patch.mk k p).at? i with
  | none =>
    rw [hat] at hx
    exact .inl (hy.trans (congrArg some hx))
  | some z =>
    rw [hat] at hx
    obtain rfl : z = x := hx
    rw [at?_of_le (at?_isSome_iff.mp (Option.isSome_of_eq_some hat)).1] at hat
    exact .inr (List.mem_of_getElem? hat)

theorem addFailed_of_addFails {b : Buffers} {X : PacketID} {g : Fragment} (h : b.AddFails X g) :
    AddFailed X g.data b (b.add X g) := by
  obtain ⟨hfb, a, hal, -⟩ := h
  rw [add_of_parked hfb hal]
  exact ⟨rfl, a, _, hal, length_write _ _, fun i x hx => getElem?_write_cases hx, rfl⟩

/-- A fragment that does not fit its own packet was stored before: the new one
always fits. -/
theorem initFailed_of_misfit {b : Buffers} {h : IPv4.Header} {pay : Str} {l : List Fragment}
    (hoff : 0 ≤ h.fragmentOffset)
    (hl : (b.add (initPktID h) (fragmentOf h pay)).fragmentBuffer.lookup (initPktID h) = some l)
    (hfits : ¬ ∀ f ∈ l, f.Fits (packetLength h pay)) :
    InitFailed (initPktID h) (fragmentOf h pay) b (b.add (initPktID h) (fragmentOf h pay)) := by
  have hnew := fits_packetLength hoff pay
  cases hfb : b.fragmentBuffer.lookup (initPktID h) with
  | some l' =>
    rw [add_of_stored hfb]
    exact ⟨⟨l', hfb, rfl⟩, rfl⟩
  | none =>
    cases hal : b.assemblingList.lookup (initPktID h) with
    | some a =>
      rw [add_of_parked hfb hal, hfb] at hl
      cases hl
    | none =>
      simp only [Buffers.add, hfb, hal, List.lookup_cons_self, Option.some.injEq] at hl
      subst hl
      exact absurd (by simpa using hnew) hfits

/-- **The effect of a failed frame**, on any buffers: none, when it could not be
decoded; part of a copy, when `addFragment` raised; the stored fragment, when
`initAssembling` raised. `assemblePacket` never raises here. -/
theorem failed_frame_effect (s : Stack σ) (f : Frame) (e : Exn) (b' : Buffers)
    (hfail : reassemble f.2 s.buffers = .error e b') :
    (handleAll s [f]).buffers = b' ∧
    (((∃ e', ipv4Packet f.2 = .error e') ∧ b' = s.buffers) ∨
      ∃ h pay, ipv4Packet f.2 = .ok (h, pay) ∧
        ((addFragment h pay s.buffers = .error e b' ∧
            AddFailed (initPktID h) pay s.buffers b') ∨
          (addFragment h pay s.buffers = .ok () b' ∧ initAssembling h pay b' = .error e b' ∧
            InitFailed (initPktID h) (fragmentOf h pay) s.buffers b'))) := by
  constructor
  · rw [handleAll_buffers, List.map_singleton, Machine.run_cons, Machine.run_nil,
      step_eq_reassemble, hfail]
    rfl
  cases hp : ipv4Packet f.2 with
  | error e' =>
    rw [reassemble, raising_bind_error hp] at hfail
    cases hfail
    exact .inl ⟨⟨_, rfl⟩, rfl⟩
  | ok r =>
    obtain ⟨h, pay⟩ := r
    have hoff := ipv4Packet_offset hp
    refine .inr ⟨h, pay, rfl, ?_⟩
    rw [reassemble_ok hp] at hfail
    generalize hr : payloadOpt h pay s.buffers = r at hfail
    have ho := payloadOpt_outcome hoff pay s.buffers
    rw [hr] at ho
    -- four of the six outcomes do not raise
    cases ho with
    | whole hwhole => cases hfail
    | kept hwhole hok hflags => cases hfail
    | assembled hok hflags hl hfits => cases hfail
    | unstored hok hflags hl => cases hfail
    | rejected hwhole hbad =>
      cases hfail
      exact .inl ⟨addFragment_error hoff hbad, addFailed_of_addFails hbad⟩
    | misfit hok hflags hl hfits =>
      cases hfail
      exact .inr ⟨addFragment_ok hok, initAssembling_error hoff hl hfits,
        initFailed_of_misfit hoff hl hfits⟩

/-- A fragment far behind the end of the packet that `last` announces. -/
def stray : Frame := sampleFrame 1 1 100 [1, 2, 3, 4, 5, 6, 7, 8]

/-- A packet of eight bytes. -/
def short : Frame := sampleFrame 1 0 0 [0, 7, 31, 144, 0, 8, 0, 0]

/-- The buffers after `stray`. -/
def afterStray : Buffers := ⟨[(sampleID 1, [⟨[1, 2, 3, 4, 5, 6, 7, 8], 100⟩])], []⟩

/-- The buffers after `stray` and `short`. -/
def afterShort : Buffers :=
  ⟨[(sampleID 1, [⟨[0, 7, 31, 144, 0, 8, 0, 0], 0⟩, ⟨[1, 2, 3, 4, 5, 6, 7, 8], 100⟩])], []⟩

/-- The header of `short`. -/
def shortHeader : IPv4.Header :=
  ⟨4, 5, 0, 0, 28, 1, 0, 0, 64, .udp, 0, [10, 0, 0, 1], [10, 0, 0, 2]⟩

theorem reassemble_short : reassemble short.2 afterStray = .error .subscript afterShort := by
  have hp : ipv4Packet short.2 = .ok (shortHeader, [0, 7, 31, 144, 0, 8, 0, 0]) := by
    decide +kernel
  rw [reassemble_ok hp]
  rfl

/-- `short` after `stray`: `initAssembling` raises, the fragment stays. -/
theorem failed_frame_effect_short :
    (handleAll { Stack.init () with buffers := afterStray } [short]).buffers = afterShort ∧
    (((∃ e', ipv4Packet short.2 = .error e') ∧ afterShort = afterStray) ∨
      ∃ h pay, ipv4Packet short.2 = .ok (h, pay) ∧
        ((addFragment h pay afterStray = .error .subscript afterShort ∧
            AddFailed (initPktID h) pay afterStray afterShort) ∨
          (addFragment h pay afterStray = .ok () afterShort ∧
            initAssembling h pay afterShort = .error .subscript afterShort ∧
            InitFailed (initPktID h) (fragmentOf h pay) afterStray afterShort))) :=
  failed_frame_effect { Stack.init () with buffers := afterStray } short .subscript afterShort
    reassemble_short

/-- The buffers are reachable, processing `short` raises, and the buffers change. -/
theorem failed_frame_not_atomic :
    (handleAll (Stack.init ()) [stray]).buffers = afterStray ∧
    reassemble short.2 afterStray = .error .subscript afterShort ∧ afterShort ≠ afterStray := by
  refine ⟨?_, reassemble_short, by decide⟩
  rw [handleAll_buffers]
  decide +kernel

end Unikernel.Network
