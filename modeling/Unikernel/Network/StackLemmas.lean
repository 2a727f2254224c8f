import Unikernel.Network.Stack
import Unikernel.Network.View

/-!
# What the handlers keep

`Keeps g x`: the code `x` does not change what `g` reads from the stack, whether
it returns or raises. Sending, logging and the callbacks keep the reassembly
buffers, the bindings and the record of dispatched packets, so that the run of
`handleIPv4` over a list of frames is, on the buffers, a run of `Buffers.step`
(`handleAll_run`).
-/

namespace Unikernel.Network

open Sml

variable {σ α β γ : Type}

/-- `x` does not change `g`, even when it raises. -/
def Keeps (g : Stack σ → γ) (x : Net σ α) : Prop := ∀ s, g (after (x s)) = g s

section Rules

variable {g : Stack σ → γ}

/-- Reading the state changes nothing, -/
theorem keeps_get : Keeps g (get : Net σ (Stack σ)) := fun _ => rfl

/-- nor does raising. -/
theorem keeps_raising (x : Except Exn α) : Keeps g (raising x) := by
  intro s
  cases x with
  | ok a => rfl
  | error e => rfl

/-- What two steps keep, they keep together. -/
theorem keeps_bind {x : Net σ α} {f : α → Net σ β} (hx : Keeps g x) (hf : ∀ a, Keeps g (f a)) :
    Keeps g (x >>= f) := by
  intro s
  have hs := hx s
  rw [estate_bind]
  cases hr : x s with
  | ok a s' =>
    rw [hr] at hs
    exact (hf a s').trans hs
  | error e s' =>
    rw [hr] at hs
    exact hs

theorem keeps_modify {f : Stack σ → Stack σ} (hf : ∀ s, g (f s) = g s) :
    Keeps g (modify f : Net σ PUnit) := hf

/-- An update followed by code that keeps `g`. -/
theorem after_modify_bind {f : Stack σ → Stack σ} {k : PUnit → Net σ β}
    (hk : ∀ u, Keeps g (k u)) (s : Stack σ) : g (after ((modify f >>= k) s)) = g (f s) :=
  hk PUnit.unit (f s)

/-- Code followed by code that keeps `g`. -/
theorem after_bind_keeps {x : Net σ α} {k : α → Net σ β} (hk : ∀ a, Keeps g (k a))
    (s : Stack σ) : g (after ((x >>= k) s)) = g (after (x s)) := by
  rw [estate_bind]
  cases x s with
  | ok a s' => exact hk a s'
  | error e s' => rfl

/-- Code that keeps more than `g` keeps `g`. -/
theorem keeps_of_factor {δ : Type} {k : Stack σ → δ} {x : Net σ α} (hx : Keeps k x)
    (hg : ∀ s t, k s = k t → g s = g t) : Keeps g x := fun s => hg _ _ (hx s)

end Rules

/-! ## Sending and logging -/

/-- Everything in the stack but what was printed. -/
def Stack.unprinted (s : Stack σ) : Stack σ := { s with printed := [] }

/-- Everything in the stack but what was sent and printed. -/
def Stack.inner (s : Stack σ) : Stack σ := { s with sent := [], printed := [] }

/-- States that differ in the print differ in no other field, -/
theorem inner_of_unprinted {s t : Stack σ} (h : s.unprinted = t.unprinted) :
    s.inner = t.inner := by
  have hinner := congrArg Stack.inner h
  exact hinner

/-- in particular not in what was sent. -/
theorem sent_of_unprinted {s t : Stack σ} (h : s.unprinted = t.unprinted) : s.sent = t.sent := by
  have hsent := congrArg Stack.sent h
  exact hsent

/-- A line for the log is printed only. -/
theorem logPrint_unprinted (str : String) :
    Keeps Stack.unprinted (logPrint str : Net σ Unit) := by
  refine keeps_modify ?_
  intro s
  split
  · rfl
  · rfl

theorem logPrint_inner (str : String) : Keeps Stack.inner (logPrint str : Net σ Unit) :=
  keeps_of_factor (logPrint_unprinted str) fun _ _ => inner_of_unprinted

/-- A frame that is sent is sent only, -/
theorem ethSend_inner (et : Eth.EthType) (dstMac : List Int) (payload : Str) :
    Keeps Stack.inner (ethSend et dstMac payload : Net σ Unit) :=
  keeps_bind (keeps_raising _) fun _ => keeps_modify fun _ => rfl

/-- and so are many, -/
theorem sendFragments_inner (args : SendArgs) (offset : Int) (payload : Str) :
    Keeps Stack.inner (sendFragments args offset payload : Net σ Unit) := by
  fun_induction @sendFragments σ args offset payload with
  | case1 offset payload h =>
    exact keeps_bind (keeps_raising _) fun _ => ethSend_inner _ _ _
  | case2 offset payload h ih =>
    exact keeps_bind (keeps_raising _) fun _ => keeps_bind (ethSend_inner _ _ _) fun _ => ih

/-- in whatever pieces. -/
theorem ipv4Send_inner (args : SendArgs) (payload : Str) :
    Keeps Stack.inner (ipv4Send args payload : Net σ Unit) := sendFragments_inner args 0 payload

/-! ## Handling a datagram -/

/-- The part of the stack that only reassembly, dispatch and `bindUDP` change. -/
def Stack.core (s : Stack σ) : Buffers × List (IPv4.Header × Str) × List (Int × Callback σ) :=
  (s.buffers, s.dispatched, s.listenOn)

/-- What sending and logging keep contains the core and its parts, the application's
state and the record of callbacks. -/
theorem core_of_inner {s t : Stack σ} (h : s.inner = t.inner) : s.core = t.core := by
  show s.inner.core = t.inner.core
  rw [h]

theorem buffers_of_inner {s t : Stack σ} (h : s.inner = t.inner) : s.buffers = t.buffers := by
  show s.inner.buffers = t.inner.buffers
  rw [h]

theorem called_of_inner {s t : Stack σ} (h : s.inner = t.inner) : s.called = t.called := by
  show s.inner.called = t.inner.called
  rw [h]

theorem app_of_inner {s t : Stack σ} (h : s.inner = t.inner) : s.app = t.app := by
  show s.inner.app = t.inner.app
  rw [h]

theorem listenOn_of_inner {s t : Stack σ} (h : s.inner = t.inner) : s.listenOn = t.listenOn := by
  show s.inner.listenOn = t.inner.listenOn
  rw [h]

/-- A callback has its own state. -/
theorem callback_core (port : Int) (cb : Callback σ) (arg : Str) :
    Keeps Stack.core (callback port cb arg) := by
  intro s
  unfold callback
  cases cb arg s.app with
  | ok r app => rfl
  | error e app => rfl

/-- A datagram changes the application and what is sent, at most. -/
theorem handleUDP_core (dstMac : List Int) (h : IPv4.Header) (payload : Str) :
    Keeps Stack.core (handleUDP dstMac h payload : Net σ Unit) := by
  have hlog (str : String) : Keeps Stack.core (logPrint str : Net σ Unit) :=
    keeps_of_factor (logPrint_inner str) fun _ _ => core_of_inner
  have hsend (args : SendArgs) (p : Str) : Keeps Stack.core (ipv4Send args p : Net σ Unit) :=
    keeps_of_factor (ipv4Send_inner args p) fun _ _ => core_of_inner
  refine keeps_bind (keeps_raising _) fun r => keeps_bind keeps_get fun s =>
    keeps_bind (hlog _) fun _ => ?_
  split
  · exact keeps_bind (callback_core _ _ _) fun _ =>
      keeps_bind (keeps_raising _) fun _ => hsend _ _
  · exact keeps_bind (keeps_raising _) fun _ => hsend _ _

/-- Dispatching a packet records it and changes nothing else of the core. -/
theorem dispatch_core (dstMac : List Int) (h : IPv4.Header) (payload : Str) (s : Stack σ) :
    (after (dispatch dstMac h payload s)).core =
      (s.buffers, s.dispatched ++ [(h, payload)], s.listenOn) := by
  refine after_modify_bind (g := Stack.core) (fun _ => ?_) s
  split
  · exact handleUDP_core dstMac h payload
  · exact keeps_of_factor (logPrint_inner _) fun _ _ => core_of_inner

/-- The stack after `logPrint`. -/
def Stack.logged (s : Stack σ) (str : String) : Stack σ :=
  if s.log then { s with printed := s.printed ++ [str] } else s

/-- The print, as a state. -/
theorem logPrint_eq (str : String) (s : Stack σ) : logPrint str s = .ok () (s.logged str) := rfl

@[simp] theorem logged_unprinted (s : Stack σ) (str : String) :
    (s.logged str).unprinted = s.unprinted :=
  logPrint_unprinted str s

/-- The buffers are a part of the state: what the code does to them, -/
theorem onBuffers_ok {x : EStateM Exn Buffers α} {s : Stack σ} {a : α} {b : Buffers}
    (h : x s.buffers = .ok a b) : onBuffers x s = .ok a { s with buffers := b } := by
  rw [onBuffers, h]

/-- and what it has done when it raises. -/
theorem onBuffers_error {x : EStateM Exn Buffers α} {s : Stack σ} {e : Exn} {b : Buffers}
    (h : x s.buffers = .error e b) : onBuffers x s = .error e { s with buffers := b } := by
  rw [onBuffers, h]

/-- `handleIPv4` when reassembly hands nothing on. -/
theorem handleIPv4_quiet {eh : Eth.Header} {ethFrame : Str} {s : Stack σ}
    (hnone : (s.buffers.step ethFrame).2 = []) :
    (after (handleIPv4 eh ethFrame s)).unprinted =
      Stack.unprinted { s with buffers := (s.buffers.step ethFrame).1 } := by
  cases hp : ipv4Packet ethFrame with
  | error e =>
    rw [step_error hp, handleIPv4, raising_bind_error hp]
    rfl
  | ok r =>
    obtain ⟨h, pay⟩ := r
    rw [step_ok hp] at hnone ⊢
    rw [handleIPv4, raising_bind_ok hp]
    simp only
    cases hr : payloadOpt h pay s.buffers with
    | error e b =>
      rw [estate_bind_error (onBuffers_error hr)]
      rfl
    | ok o b =>
      rw [estate_bind_ok (onBuffers_ok hr), estate_bind_ok (logPrint_eq _ _)]
      cases o with
      | none => exact logged_unprinted _ _
      | some payload =>
        rw [hr] at hnone
        cases hnone

/-- `handleIPv4` when reassembly hands a packet on. -/
theorem handleIPv4_delivers (eh : Eth.Header) {ethFrame payload : Str} {h : IPv4.Header}
    {s : Stack σ} (hsome : (s.buffers.step ethFrame).2 = [(h, payload)]) :
    ∃ t : Stack σ,
      t.unprinted = Stack.unprinted { s with buffers := (s.buffers.step ethFrame).1 } ∧
      handleIPv4 eh ethFrame s = dispatch eh.dstMac h payload t := by
  obtain ⟨pay, hp, hr⟩ := delivered_of_step hsome
  refine ⟨{ s with buffers := (s.buffers.step ethFrame).1 }.logged (IPv4.toString h),
    logged_unprinted _ _, ?_⟩
  rw [handleIPv4, raising_bind_ok hp]
  simp only
  rw [estate_bind_ok (onBuffers_ok hr), estate_bind_ok (logPrint_eq _ _)]

/-- A step hands on at most one packet. -/
theorem step_delivers (b : Buffers) (ethFrame : Str) :
    (b.step ethFrame).2 = [] ∨ ∃ h payload, (b.step ethFrame).2 = [(h, payload)] := by
  cases hp : ipv4Packet ethFrame with
  | error e =>
    rw [step_error hp]
    exact .inl rfl
  | ok r =>
    obtain ⟨h, pay⟩ := r
    rw [step_ok hp]
    cases handedOn (payloadOpt h pay b) with
    | none => exact .inl rfl
    | some p => exact .inr ⟨h, p, rfl⟩

/-- **`handleIPv4` on the buffers** is `Buffers.step`, and what that step
delivers is what is dispatched. -/
theorem handleIPv4_core (eh : Eth.Header) (ethFrame : Str) (s : Stack σ) :
    (after (handleIPv4 eh ethFrame s)).core =
      ((s.buffers.step ethFrame).1, s.dispatched ++ (s.buffers.step ethFrame).2, s.listenOn) := by
  rcases step_delivers s.buffers ethFrame with hnone | ⟨h, payload, hsome⟩
  · rw [hnone, List.append_nil]
    exact (core_of_inner (inner_of_unprinted (handleIPv4_quiet hnone)) :)
  · obtain ⟨t, ht, heq⟩ := handleIPv4_delivers eh hsome
    have hcore : t.core = ((s.buffers.step ethFrame).1, s.dispatched, s.listenOn) :=
      (core_of_inner (inner_of_unprinted ht) :)
    rw [heq, dispatch_core, hsome]
    simp only [Stack.core, Prod.mk.injEq] at hcore
    rw [hcore.1, hcore.2.1, hcore.2.2]

/-! ## Runs -/

/-- Swallowing an exception keeps all but the log. -/
theorem swallowing_unprinted (x : Net σ Unit) (s : Stack σ) :
    (swallowing x s).unprinted = (after (x s)).unprinted := by
  unfold swallowing
  cases x s with
  | ok u t => rfl
  | error e t => exact logged_unprinted t _

/-- **A run of `handleIPv4`** is, on the buffers, a run of `Buffers.step`; what
it delivers is dispatched. -/
theorem handleAll_run (s : Stack σ) (fs : List Frame) :
    (handleAll s fs).core =
      ((Machine.run Buffers.step s.buffers (fs.map Prod.snd)).1,
        s.dispatched ++ (Machine.run Buffers.step s.buffers (fs.map Prod.snd)).2, s.listenOn) := by
  induction fs generalizing s with
  | nil => simp [handleAll, Stack.core]
  | cons f fs ih =>
    have hstep := (core_of_inner (inner_of_unprinted
      (swallowing_unprinted (handleIPv4 f.1 f.2) s))).trans (handleIPv4_core f.1 f.2 s)
    simp only [Stack.core, Prod.mk.injEq] at hstep
    obtain ⟨hbuf, hdis, hlis⟩ := hstep
    rw [handleAll, ih, hbuf, hdis, hlis, List.map_cons, Machine.run_cons, List.append_assoc]

/-- What was passed on to the protocol dispatch, by packet ID. -/
def Stack.deliveries (s : Stack σ) : List (PacketID × Str) :=
  s.dispatched.map fun d => (initPktID d.1, d.2)

/-- The payloads that were passed on for one packet ID. -/
def Stack.deliveriesFor (s : Stack σ) (X : PacketID) : List Str :=
  (s.dispatched.filter (forID X)).map Prod.snd

/-- The buffers run by themselves, -/
theorem handleAll_buffers (s : Stack σ) (fs : List Frame) :
    (handleAll s fs).buffers = (Machine.run Buffers.step s.buffers (fs.map Prod.snd)).1 :=
  congrArg Prod.fst (handleAll_run s fs)

/-- and so does what they hand on. -/
theorem handleAll_dispatched (s : Stack σ) (fs : List Frame) :
    (handleAll s fs).dispatched =
      s.dispatched ++ (Machine.run Buffers.step s.buffers (fs.map Prod.snd)).2 :=
  congrArg (fun c => c.2.1) (handleAll_run s fs)

/-- Frames in two parts. -/
theorem handleAll_append (s : Stack σ) (fs gs : List Frame) :
    handleAll s (fs ++ gs) = handleAll (handleAll s fs) gs := by
  induction fs generalizing s with
  | nil => rfl
  | cons f fs ih => exact ih _

/-- A run that delivers nothing changes the buffers and the log only. -/
theorem handleAll_quiet {s : Stack σ} {fs : List Frame}
    (hnone : (Machine.run Buffers.step s.buffers (fs.map Prod.snd)).2 = []) :
    (handleAll s fs).unprinted = Stack.unprinted
      { s with buffers := (Machine.run Buffers.step s.buffers (fs.map Prod.snd)).1 } := by
  induction fs generalizing s with
  | nil => rfl
  | cons f fs ih =>
    rw [List.map_cons, Machine.run_cons, List.append_eq_nil_iff] at hnone
    have hstep := (swallowing_unprinted (handleIPv4 f.1 f.2) s).trans (handleIPv4_quiet hnone.1)
    have hbuf : (swallowing (handleIPv4 f.1 f.2) s).buffers = (s.buffers.step f.2).1 :=
      (buffers_of_inner (inner_of_unprinted hstep) :)
    have hrest := ih (s := swallowing (handleIPv4 f.1 f.2) s) (by rw [hbuf]; exact hnone.2)
    rw [handleAll, hrest, List.map_cons, Machine.run_cons, hbuf]
    exact congrArg (fun t : Stack σ =>
      { t with buffers := (Machine.run Buffers.step (s.buffers.step f.2).1 (fs.map Prod.snd)).1 })
      hstep

/-- What one more frame adds to the deliveries. -/
theorem deliveries_snoc (s : Stack σ) (fs : List Frame) (f : Frame) :
    (handleAll s (fs ++ [f])).deliveries = (handleAll s fs).deliveries ++
      ((handleAll s fs).buffers.step f.2).2.map fun d => (initPktID d.1, d.2) := by
  rw [handleAll_append, Stack.deliveries, handleAll_dispatched, List.map_append, List.map_singleton,
    Machine.run_cons, Machine.run_nil, List.append_nil]
  rfl

/-- Frames of one packet ID, run on the buffers, are a run on its view. -/
theorem handleAll_own {X : PacketID} {fs : List Frame}
    (hown : ∀ f ∈ fs.map Prod.snd, ofID X f = true) (s : Stack σ) :
    (handleAll s fs).dispatched =
      s.dispatched ++ (Machine.run View.step (s.buffers.view X) (fs.map Prod.snd)).2 := by
  rw [handleAll_dispatched, ((view_projection X).run_own hown).2]

end Unikernel.Network
