import Unikernel.Network.Completion

/-!
# The don't-fragment bit

`handleIPv4` compares the whole flags field: a packet bypasses the lists when it is
2, and is the last fragment when it is 0. With the more-fragments bit the
don't-fragment bit makes no difference. Without it, a packet that has the bit clear
goes through the lists, and stays there; and one that has it set, behind the first
fragment, is never the last one. `ignoresDF_iff` says when two frames that differ in
this bit only are treated alike, and `SameEffect` when that can be seen.
-/

namespace Unikernel.Network

open Sml Keyed

variable {σ : Type}

/-- The second frame is the first one with the don't-fragment bit set, and some other
header checksum. In the first one the bit is clear, and so is the reserved bit. -/
def SameButDF (f f' : Str) : Prop :=
  ∃ b c c' : UInt8, f[20]? = some b ∧ b < 64 ∧ f' = ((f.set 20 (b + 64)).set 24 c).set 25 c'

/-- The header of the second frame. -/
def setDF (h : IPv4.Header) (sum : Int) : IPv4.Header :=
  { h with flags := h.flags + 2, headerChecksum := sum }

/-- What `handleIPv4` takes a packet for. -/
inductive Kind where
  | whole
  | middle
  | last
  deriving DecidableEq, Repr

/-- The tests of `handleIPv4`. -/
def kindOf (ipv4Hdr : IPv4.Header) : Kind :=
  if ipv4Hdr.fragmentOffset = 0 ∧ ipv4Hdr.flags = 2 then .whole
  else if ipv4Hdr.flags = 0 then .last
  else .middle

/-- Nothing that `listen` keeps between frames can tell the frames apart. -/
structure SameEffect (s : Stack σ) (f f' : Frame) : Prop where
  deliveries : (handleAll s [f]).deliveries = (handleAll s [f']).deliveries
  buffers : (handleAll s [f]).buffers = (handleAll s [f']).buffers

/-- The frames are treated alike, and a whole packet does not touch the buffers. -/
structure IgnoresDF (s : Stack σ) (f f' : Frame) (h h' : IPv4.Header) : Prop where
  effect : SameEffect s f f'
  kind : kindOf h = kindOf h'
  whole : h.fragmentOffset = 0 → h.flags % 2 = 0 →
    (handleAll s [f]).buffers = s.buffers ∧ (handleAll s [f']).buffers = s.buffers

/-- A last fragment is handed on: its copy does not fail, and what is stored fits. -/
def Buffers.Completes (b : Buffers) (h : IPv4.Header) (pay : Str) : Prop :=
  ¬ b.AddFails (initPktID h) (fragmentOf h pay) ∧
    ∀ g ∈ (b.view (initPktID h)).fragments, g.Fits (packetLength h pay)

/-! ## The frames -/

/-- Setting the bit changes the flags and nothing else that is read. -/
theorem ipv4Packet_sameButDF {f f' pay : Str} {h : IPv4.Header} (hpair : SameButDF f f')
    (hp : ipv4Packet f = .ok (h, pay)) :
    (h.flags = 0 ∨ h.flags = 1) ∧ ∃ sum, ipv4Packet f' = .ok (setDF h sum, pay) := by
  obtain ⟨b, c, c', hb, hlt, rfl⟩ := hpair
  rw [ipv4Packet, except_bind_eq_ok] at hp
  obtain ⟨t, ht, hdec⟩ := hp
  obtain ⟨hlen, rfl⟩ := extract_eq_ok_iff.mp ht
  obtain ⟨b0, b1, b2, b3, b4, b5, b6, b7, b8, b9, b10, b11, b12, b13, b14, b15, b16, b17, b18,
    b19, p, hbytes⟩ := IPv4.exists_bytes_of_length (IPv4.length_of_decode hdec)
  obtain ⟨eth, heth, rfl⟩ : ∃ eth : Str, eth.length = 14 ∧ f = eth ++ ([b0, b1, b2, b3, b4, b5,
      b6, b7, b8, b9, b10, b11, b12, b13, b14, b15, b16, b17, b18, b19] ++ p) := by
    refine ⟨f.take 14, List.length_take_of_le hlen, ?_⟩
    rw [← hbytes, List.take_append_drop]
  rw [hbytes, IPv4.decode_bytes] at hdec
  cases hdec
  rw [List.getElem?_append_right (by omega), heth] at hb
  cases hb
  have hclear : b.toNat < 64 := UInt8.lt_iff_toNat_lt.mp hlt
  have hset : (b + 64).toNat = b.toNat + 64 := by
    rw [UInt8.toNat_add, show (64 : UInt8).toNat = 64 from rfl]
    omega
  constructor
  · simp only [IPv4.headerOf]
    omega
  · refine ⟨c.toNat * 256 + c'.toNat, ?_⟩
    rw [ipv4Packet, List.set_append_right _ _ (show eth.length ≤ 20 by omega),
      List.set_append_right _ _ (show eth.length ≤ 24 by omega),
      List.set_append_right _ _ (show eth.length ≤ 25 by omega), extract_append heth, heth]
    show IPv4.decode ([b0, b1, b2, b3, b4, b5, b + 64, b7, b8, b9, c, c', b12, b13, b14, b15,
      b16, b17, b18, b19] ++ pay) = _
    rw [IPv4.decode_bytes, Except.ok.injEq, Prod.mk.injEq]
    refine ⟨?_, rfl⟩
    simp only [setDF, IPv4.headerOf, hset, IPv4.Header.mk.injEq]
    simp only [true_and, and_true]
    omega

/-! ## One packet -/

section Packet

variable {h : IPv4.Header} (pay : Str) (b : Buffers)

/-- A middle fragment is added, and nothing is handed on. -/
theorem payloadOpt_middle (hoff : 0 ≤ h.fragmentOffset)
    (hwhole : ¬ (h.fragmentOffset = 0 ∧ h.flags = 2)) (hflags : h.flags ≠ 0) :
    handedOn (payloadOpt h pay b) = .none ∧
      after (payloadOpt h pay b) = b.add (initPktID h) (fragmentOf h pay) := by
  generalize payloadOpt h pay b = r, payloadOpt_outcome hoff pay b = ho
  cases ho with
  | whole hwhole' => exact absurd hwhole' hwhole
  | rejected hwhole hbad => exact ⟨rfl, rfl⟩
  | kept hwhole hok hflags' => exact ⟨rfl, rfl⟩
  | assembled hok hflags' hl hfits => exact absurd hflags' hflags
  | misfit hok hflags' hl hfits => exact absurd hflags' hflags
  | unstored hok hflags' hl => exact absurd hflags' hflags

/-- **A last fragment** is treated as a middle one if it does not complete its packet;
if it does, something is handed on and one more array is kept. -/
theorem payloadOpt_last (hoff : 0 ≤ h.fragmentOffset) (hflags : h.flags = 0) :
    (¬ b.Completes h pay ∧ handedOn (payloadOpt h pay b) = .none ∧
        after (payloadOpt h pay b) = b.add (initPktID h) (fragmentOf h pay)) ∨
      (b.Completes h pay ∧ handedOn (payloadOpt h pay b) ≠ .none ∧
        (after (payloadOpt h pay b)).assemblingList.length = b.assemblingList.length + 1) := by
  have hview : ((b.view (initPktID h)).add (fragmentOf h pay)).stored =
      (b.add (initPktID h) (fragmentOf h pay)).fragmentBuffer.lookup (initPktID h) :=
    (congrArg View.stored (view_add_self b (initPktID h) (fragmentOf h pay))).symm
  have hlength : (b.add (initPktID h) (fragmentOf h pay)).assemblingList.length =
      b.assemblingList.length := by
    simpa [keys] using congrArg List.length
      (keys_add_assemblingList b (initPktID h) (fragmentOf h pay))
  have hnew := fits_packetLength hoff pay
  generalize payloadOpt h pay b = r, payloadOpt_outcome hoff pay b = ho
  cases ho with
  | whole hwhole => exact absurd hwhole (not_whole hflags)
  | rejected hwhole hbad => exact .inl ⟨fun hdone => hdone.1 hbad, rfl, rfl⟩
  | kept hwhole hok hflags' => exact absurd hflags hflags'
  | @assembled hok hflags' l hl hfits =>
    obtain rfl := stored_add (hview.trans hl)
    refine .inr ⟨⟨hok, fun g hg => hfits g (List.mem_cons_of_mem _ hg)⟩, Option.some_ne_none _, ?_⟩
    exact congrArg Nat.succ hlength
  | @misfit hok hflags' l hl hfits =>
    obtain rfl := stored_add (hview.trans hl)
    refine .inl ⟨fun hdone => hfits ?_, rfl, rfl⟩
    exact List.forall_mem_cons.mpr ⟨hnew, hdone.2⟩
  | unstored hok hflags' hl =>
    have hnone := unstored_add (hview.trans hl)
    refine .inr ⟨⟨hok, fun g hg => ?_⟩, Option.some_ne_none _, congrArg Nat.succ hlength⟩
    rw [hnone] at hg
    cases hg

/-! ## The same packet with the bit set -/

/-- Reassembly hands the same on for both headers, and leaves the same buffers. -/
def SameReassembly (b : Buffers) (h h' : IPv4.Header) (pay : Str) : Prop :=
  handedOn (payloadOpt h pay b) = handedOn (payloadOpt h' pay b) ∧
    after (payloadOpt h pay b) = after (payloadOpt h' pay b)

/-- With the more-fragments bit both are middle fragments. -/
theorem sameReassembly_more (hoff : 0 ≤ h.fragmentOffset) (hflags : h.flags = 1) (sum : Int) :
    SameReassembly b h (setDF h sum) pay := by
  obtain ⟨hout, hbuf⟩ := payloadOpt_middle pay b hoff (by omega) (show h.flags ≠ 0 by omega)
  obtain ⟨hout', hbuf'⟩ := payloadOpt_middle pay b (h := setDF h sum) hoff
    (show ¬ (h.fragmentOffset = 0 ∧ h.flags + 2 = 2) by omega) (show h.flags + 2 ≠ 0 by omega)
  exact ⟨hout.trans hout'.symm, hbuf.trans hbuf'.symm⟩

/-- Without it, at offset 0: with the bit the packet bypasses the buffers, but without
the bit something is stored. -/
theorem not_sameReassembly_first (hzero : h.fragmentOffset = 0) (hflags : h.flags = 0)
    (sum : Int) : ¬ SameReassembly b h (setDF h sum) pay := by
  have hwhole := payloadOpt_whole (h := setDF h sum) ⟨hzero, show h.flags + 2 = 2 by omega⟩ pay b
  rintro ⟨hout, hbuf⟩
  rw [hwhole] at hout hbuf
  rcases payloadOpt_last pay b (by omega) hflags with ⟨-, hnone, -⟩ | ⟨-, -, hlength⟩
  · rw [hnone] at hout
    cases hout
  · rw [hbuf] at hlength
    exact absurd hlength (Nat.ne_of_lt (Nat.lt_succ_self _))

/-- Without it, behind the first fragment: with the bit it is a middle fragment. -/
theorem sameReassembly_later_iff (hoff : 0 ≤ h.fragmentOffset) (hlater : h.fragmentOffset ≠ 0)
    (hflags : h.flags = 0) (sum : Int) :
    SameReassembly b h (setDF h sum) pay ↔ ¬ b.Completes h pay := by
  obtain ⟨hout', hbuf'⟩ := payloadOpt_middle pay b (h := setDF h sum) hoff
    (fun hwhole => hlater hwhole.1) (show h.flags + 2 ≠ 0 by omega)
  unfold SameReassembly
  rw [hout', hbuf']
  rcases payloadOpt_last pay b hoff hflags with ⟨hopen, hnone, hadd⟩ | ⟨hdone, hsome, -⟩
  · exact iff_of_true ⟨hnone, hadd⟩ hopen
  · exact iff_of_false (fun hsame => hsome hsame.1) (not_not_intro hdone)

end Packet

/-! ## Two packets -/

section Frames

variable {s : Stack σ} {f f' : Frame} {h h' : IPv4.Header} {pay : Str}

theorem buffers_one (hp : ipv4Packet f.2 = .ok (h, pay)) :
    (handleAll s [f]).buffers = after (payloadOpt h pay s.buffers) := by
  rw [handleAll_buffers, List.map_singleton, Machine.run_cons, Machine.run_nil, step_ok hp]

theorem deliveries_one (hp : ipv4Packet f.2 = .ok (h, pay)) :
    (handleAll s [f]).deliveries = s.deliveries ++
      (handedOn (payloadOpt h pay s.buffers)).toList.map fun q => (initPktID h, q) := by
  have hsnoc := deliveries_snoc s [] f
  rw [step_ok (b := (handleAll s []).buffers) hp, List.map_map] at hsnoc
  exact hsnoc

/-- Frames with one packet ID have the same effect if reassembly does the same with them. -/
theorem sameEffect_iff (hp : ipv4Packet f.2 = .ok (h, pay)) (hp' : ipv4Packet f'.2 = .ok (h', pay))
    (hX : initPktID h' = initPktID h) :
    SameEffect s f f' ↔ SameReassembly s.buffers h h' pay := by
  have hinj : Function.Injective fun q : Str => (initPktID h, q) := fun q q' hq =>
    (Prod.mk.inj hq).2
  constructor
  · rintro ⟨hdel, hbuf⟩
    rw [deliveries_one hp, deliveries_one hp', hX, List.append_cancel_left_eq,
      (List.map_injective_iff.mpr hinj).eq_iff] at hdel
    rw [buffers_one hp, buffers_one hp'] at hbuf
    have hout := congrArg List.head? hdel
    rw [Option.head?_toList, Option.head?_toList] at hout
    exact ⟨hout, hbuf⟩
  · rintro ⟨hout, hbuf⟩
    constructor
    · rw [deliveries_one hp, deliveries_one hp', hX, hout]
    · rw [buffers_one hp, buffers_one hp', hbuf]

/-- **When the don't-fragment bit has no effect**: with the more-fragments bit; without
it, only behind the first fragment, where the frame that has the bit clear does not
complete its packet. -/
theorem sameEffect_df (hp : ipv4Packet f.2 = .ok (h, pay)) (hpair : SameButDF f.2 f'.2) :
    SameEffect s f f' ↔
      h.flags = 1 ∨ (h.fragmentOffset ≠ 0 ∧ ¬ s.buffers.Completes h pay) := by
  obtain ⟨hflags, sum, hp'⟩ := ipv4Packet_sameButDF hpair hp
  have hoff := ipv4Packet_offset hp
  rw [sameEffect_iff hp hp' rfl]
  rcases hflags with hflags | hflags
  · have hmore : h.flags ≠ 1 := by omega
    rw [or_iff_right hmore]
    by_cases hzero : h.fragmentOffset = 0
    · exact iff_of_false (not_sameReassembly_first pay _ hzero hflags sum) fun h => h.1 hzero
    · rw [sameReassembly_later_iff pay _ hoff hzero hflags sum]
      exact (and_iff_right hzero).symm
  · exact iff_of_true (sameReassembly_more pay _ hoff hflags sum) (.inl hflags)

/-- Setting the bit changes what a packet without the more-fragments bit is taken for. -/
theorem kindOf_df (sum : Int) (hflags : h.flags = 0 ∨ h.flags = 1) :
    kindOf h = kindOf (setDF h sum) ↔ h.flags = 1 := by
  unfold kindOf setDF
  rcases hflags with hflags | hflags
  · by_cases hzero : h.fragmentOffset = 0
    · simp [hflags, hzero]
    · simp [hflags, hzero]
  · simp [hflags]

end Frames

/-- **The don't-fragment bit** is ignored exactly when the more-fragments bit is set.
When it is not, the frames can have the same effect all the same: both are then added
to the fragments of a packet that stays incomplete. -/
theorem ignoresDF_iff (s : Stack σ) (f f' : Frame) (h h' : IPv4.Header) (pay pay' : Str)
    (hp : ipv4Packet f.2 = .ok (h, pay)) (hp' : ipv4Packet f'.2 = .ok (h', pay'))
    (hpair : SameButDF f.2 f'.2) :
    (IgnoresDF s f f' h h' ↔ h.flags = 1) ∧
    (SameEffect s f f' ↔
      h.flags = 1 ∨ (h.fragmentOffset ≠ 0 ∧ ¬ s.buffers.Completes h pay)) := by
  have heffect := sameEffect_df (s := s) hp hpair
  obtain ⟨hflags, sum, hset⟩ := ipv4Packet_sameButDF hpair hp
  rw [hp'] at hset
  cases hset
  refine ⟨⟨fun hignores => ?_, fun hmore => ?_⟩, heffect⟩
  · exact (kindOf_df sum hflags).mp hignores.kind
  · refine ⟨heffect.mpr (.inl hmore), (kindOf_df sum hflags).mpr hmore, fun _ heven => ?_⟩
    omega

/-- A whole packet with the don't-fragment bit clear. -/
def fragmentable : Frame := sampleFrame 1 0 0 [0, 7, 31, 144, 0, 8, 0, 0]

/-- The same packet with the bit set. -/
def unfragmentable : Frame := sampleFrame 1 2 0 [0, 7, 31, 144, 0, 8, 0, 0]

/-- Their header, with the flags. -/
def wholeHeader (flags : Int) : IPv4.Header :=
  ⟨4, 5, 0, 0, 28, 1, flags, 0, 64, .udp, 0, [10, 0, 0, 1], [10, 0, 0, 2]⟩

theorem sameButDF_whole : SameButDF fragmentable.2 unfragmentable.2 :=
  ⟨0, 0, 0, by decide +kernel, by decide, by decide +kernel⟩

/-- The two frames, at start-up. -/
theorem ignoresDF_iff_whole :
    (IgnoresDF (Stack.init ()) fragmentable unfragmentable (wholeHeader 0) (wholeHeader 2) ↔
      (0 : Int) = 1) ∧
    (SameEffect (Stack.init ()) fragmentable unfragmentable ↔
      (0 : Int) = 1 ∨ ((0 : Int) ≠ 0 ∧
        ¬ Buffers.empty.Completes (wholeHeader 0) [0, 7, 31, 144, 0, 8, 0, 0])) :=
  ignoresDF_iff (Stack.init ()) fragmentable unfragmentable (wholeHeader 0) (wholeHeader 2)
    [0, 7, 31, 144, 0, 8, 0, 0] [0, 7, 31, 144, 0, 8, 0, 0] (by decide +kernel)
    (by decide +kernel) sameButDF_whole

/-- The first frame leaves its fragment and its array in the lists, the second one nothing. -/
theorem fragmentable_stays :
    SameButDF fragmentable.2 unfragmentable.2 ∧
    (handleAll (Stack.init ()) [fragmentable]).buffers =
      ⟨[(sampleID 1, [⟨[0, 7, 31, 144, 0, 8, 0, 0], 0⟩])],
        [(sampleID 1, [0, 7, 31, 144, 0, 8, 0, 0])]⟩ ∧
    (handleAll (Stack.init ()) [unfragmentable]).buffers = .empty ∧
    ¬ SameEffect (Stack.init ()) fragmentable unfragmentable := by
  have hstays : (handleAll (Stack.init ()) [fragmentable]).buffers =
      ⟨[(sampleID 1, [⟨[0, 7, 31, 144, 0, 8, 0, 0], 0⟩])],
        [(sampleID 1, [0, 7, 31, 144, 0, 8, 0, 0])]⟩ := by
    rw [handleAll_buffers]
    decide +kernel
  have hempty : (handleAll (Stack.init ()) [unfragmentable]).buffers = .empty := by
    rw [handleAll_buffers]
    decide +kernel
  refine ⟨sameButDF_whole, hstays, hempty, ?_⟩
  intro hsame
  have hbuf := hsame.buffers
  rw [hstays, hempty] at hbuf
  cases hbuf

end Unikernel.Network
