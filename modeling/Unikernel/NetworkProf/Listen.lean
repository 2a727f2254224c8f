import Unikernel.Lib.Loop
import Unikernel.NetworkProf.Rounds

/-!
# networkProflib: the listen loop

`listen` handles simulated packets while `times` is below `runs`. `times` is advanced
at the end of a round, behind the handlers; a round that raises is logged, and the loop
goes on without it having been counted. So `listen` does not return when too few rounds
get to their end, and the frames being the same all over again, that is decided by the
callback (`listen_returns_iff`).
-/

namespace Unikernel.NetworkProf

open Sml Network

variable {σ α : Type}

/-- The references of the file, those inside `structure Network` included. -/
structure Prof (σ : Type) where
  sim : Sim
  net : Stack σ

abbrev ProfM (σ : Type) := EStateM Exn (Prof σ)

def onSim (x : SimM α) : ProfM σ α := fun s =>
  match x s.sim with
  | .ok a t => .ok a { s with sim := t }
  | .error e t => .error e { s with sim := t }

def onNet (x : Net σ α) : ProfM σ α := fun s =>
  match x s.net with
  | .ok a t => .ok a { s with net := t }
  | .error e t => .error e { s with net := t }

/-- One round of `listen`, up to its `handle`. -/
def listenRound : ProfM σ Unit := do
  let rawTap ← onSim receive
  onNet (listenBody rawTap)
  onSim (modify fun s => { s with times := s.times + 1 })

/-- `listen ()`, with `none` for running out of fuel. It is called again inside the
scope of `handle`, but raises nothing itself that could be caught there. `times` stays
below `runs` before it is advanced, and does not overflow. -/
def listen : Nat → Prof σ → Option (Prof σ)
  | 0, _ => none
  | fuel + 1, s =>
    if s.sim.times < s.sim.runs then
      match listenRound s with
      | .ok _ t => listen fuel t
      | .error _ t => listen fuel (after (onNet (logPrint "Encountered an error in handling!\n") t))
    else some s

/-- `listen` returns, whatever it takes. -/
def Prof.Returns (s : Prof σ) : Prop := ∃ fuel t, listen fuel s = some t

/-- What a profiled program sets before it listens. -/
def prepare (port runs : Int) (d : Str) : SimM Unit := do
  setPort port
  setRuns runs
  setProfData d
  generateProfData

/-! ## A counted loop -/

/-- The loop's condition. -/
def Prof.running (s : Prof σ) : Bool := decide (s.sim.times < s.sim.runs)

/-- The round gets to its end. -/
def Prof.succeeds (s : Prof σ) : Bool := returned (listenRound s)

def Prof.round (s : Prof σ) : Prof σ :=
  match listenRound s with
  | .ok _ t => t
  | .error _ t => after (onNet (logPrint "Encountered an error in handling!\n") t)

theorem listen_eq (fuel : Nat) (s : Prof σ) :
    listen fuel s = Loop.run Prof.running Prof.round fuel s := by
  induction fuel generalizing s with
  | zero => rfl
  | succ fuel ih =>
    by_cases hrun : s.sim.times < s.sim.runs
    · have hgo : s.running = true := decide_eq_true hrun
      rw [listen, if_pos hrun, Loop.run_go hgo, ← ih, Prof.round]
      cases listenRound s with
      | ok u t => rfl
      | error e t => rfl
    · have hstop : s.running = false := decide_eq_false hrun
      rw [listen, if_neg hrun, Loop.run_stop hstop]

/-- What a round does when it receives a frame. -/
theorem round_received {s : Prof σ} {f : Str} {u : Sim} (hr : receive s.sim = .ok f u) :
    s.succeeds = returned (listenBody f s.net) ∧
      s.round = ⟨{ u with times := if s.succeeds = true then u.times + 1 else u.times },
        swallowing (listenBody f) s.net⟩ := by
  have hon : onSim receive s = .ok f { s with sim := u } := by rw [onSim, hr]
  have hround : listenRound s = (onNet (listenBody f) >>= fun _ =>
      onSim (modify fun s => { s with times := s.times + 1 })) { s with sim := u } := by
    rw [listenRound, estate_bind_ok hon]
  rw [Prof.round, Prof.succeeds, hround, estate_bind, onNet, swallowing]
  cases listenBody f s.net with
  | ok v net => exact ⟨rfl, rfl⟩
  | error e net => exact ⟨rfl, rfl⟩

/-- Without a frame there is nothing but the message. -/
theorem round_unreceived {s : Prof σ} (hr : receive s.sim = .error .subscript s.sim) :
    s.succeeds = false ∧ s.round.sim = s.sim := by
  have hon : onSim receive s = .error .subscript s := by rw [onSim, hr]
  have hround : listenRound s = .error .subscript s := by
    rw [listenRound, estate_bind_error hon]
  rw [Prof.succeeds, Prof.round, hround]
  exact ⟨rfl, rfl⟩

/-- `times` counts the rounds that get to their end. -/
theorem counted : Loop.Counted Prof.running (Prof.round (σ := σ)) (fun s => s.sim.times)
    (fun s => s.sim.runs) Prof.succeeds where
  go_iff _ := decide_eq_true_iff
  bound_step s := by
    rcases receive_cases s.sim with ⟨f, i, hr⟩ | hr
    · rw [(round_received hr).2]
    · rw [(round_unreceived hr).2]
  count_step s := by
    rcases receive_cases s.sim with ⟨f, i, hr⟩ | hr
    · rw [(round_received hr).2]
      by_cases hok : s.succeeds = true
      · rw [if_pos hok, if_pos hok]
      · rw [if_neg hok, if_neg hok, Int.add_zero]
    · obtain ⟨hfail, hsim⟩ := round_unreceived hr
      rw [hsim, hfail, if_neg Bool.false_ne_true, Int.add_zero]

/-- In every state, `listen` returns when enough of the rounds to come get to their end. -/
theorem returns_iff_advances (s : Prof σ) :
    s.Returns ↔ ∃ k, s.sim.runs ≤ s.sim.times + Loop.advances Prof.round Prof.succeeds s k := by
  have hloop : s.Returns ↔ Loop.Returns Prof.running Prof.round s := by
    simp only [Prof.Returns, Loop.Returns, listen_eq]
  rw [hloop, counted.returns_iff]

/-! ## Round after round -/

section Frames

variable {n start j : Nat} [NeZero n] {port : Int} {d segment f g : Str} {fs : List Str}
  {s t : Prof σ}

theorem round_loaded (h : s.sim.Loaded n start (start + j) fs) (hlen : fs.length = n) :
    ∃ f, fs[j % n]? = some f ∧ s.succeeds = returned (listenBody f s.net) ∧
      s.round.net = swallowing (listenBody f) s.net ∧
      s.round.sim.Loaded n start (start + (j + 1)) fs := by
  obtain ⟨f, u, hr, -, hf, hload⟩ := receive_loaded h hlen
  obtain ⟨hok, hround⟩ := round_received hr
  rw [hround]
  exact ⟨f, hf, hok, rfl, hload.len, hload.size, hload.index, hload.frames⟩

/-- After `j` rounds on frames of which nothing else is known. -/
structure Prof.Several (s : Prof σ) (n start j : Nat) [NeZero n] (fs : List Str) : Prop where
  loaded : s.sim.Loaded n start (start + j) fs
  isOpen : (s.net.buffers.view conID).Open

theorem several_round (hfs : FramesOf port d segment fs) (hlen : fs.length = n)
    (h : s.Several n start j fs) : s.round.Several n start (j + 1) fs := by
  obtain ⟨f, hf, -, hnet, hload⟩ := round_loaded h.loaded hlen
  refine ⟨hload, ?_⟩
  rw [hnet]
  exact hfs.round_open (List.mem_of_getElem? hf) h.isOpen

/-- With several frames every `n`-th round is counted, and `listen` returns. -/
theorem returns_several (hfs : FramesOf port d segment (f :: g :: fs))
    (hlen : (f :: g :: fs).length = n) (h : s.Several n start 0 (f :: g :: fs)) : s.Returns := by
  have hfirst : ∀ k, (Prof.round^[n * k] s).succeeds = true := by
    intro k
    have hk : (Prof.round^[n * k] s).Several n start (n * k) (f :: g :: fs) :=
      Loop.iterate_invariant (I := fun j s => Prof.Several s n start j (f :: g :: fs))
        (fun _ _ => several_round hfs hlen) h (n * k)
    obtain ⟨f', hf', hok, -, -⟩ := round_loaded hk.loaded hlen
    rw [Nat.mul_mod_right] at hf'
    cases hf'
    rw [hok]
    exact hfs.round_first hk.isOpen
  obtain ⟨k, hk⟩ := Loop.exists_le_count (p := fun j => (Prof.round^[j] s).succeeds = true)
    (Nat.pos_of_neZero n) hfirst (s.sim.runs - s.sim.times)
  exact (returns_iff_advances s).mpr ⟨k, by rw [Loop.advances]; omega⟩

/-- After `j` rounds on a single frame, from the state `t` on: the application was given
the data `j` times. -/
structure Prof.Single (s t : Prof σ) (n start j : Nat) [NeZero n] (port : Int)
    (d segment f : Str) : Prop where
  loaded : s.sim.Loaded n start (start + j) [f]
  copies : Copies (s.net.buffers.view conID) segment
  bound : s.net.bound port = t.net.bound port
  app : s.net.app = (appAfter (t.net.bound port) d)^[j] t.net.app

theorem single_round (hfs : FramesOf port d segment [f]) (hlen : [f].length = n)
    (h : s.Single t n start j port d segment f) :
    s.succeeds = answered (t.net.bound port) d ((appAfter (t.net.bound port) d)^[j] t.net.app) ∧
      s.round.Single t n start (j + 1) port d segment f := by
  obtain ⟨f', hf', hok, hnet, hload⟩ := round_loaded h.loaded hlen
  obtain rfl := List.mem_singleton.mp (List.mem_of_getElem? hf')
  obtain ⟨hans, happ, hcopies⟩ := hfs.round_single h.copies
  obtain ⟨packet, hdec⟩ := hfs.decoded List.mem_cons_self
  have hlist := (round_core hdec rfl s.net).2
  rw [h.bound, h.app] at hans happ
  refine ⟨hok.trans hans, hload, ?_, ?_, ?_⟩
  · rwa [hnet]
  · rw [hnet, ← h.bound, Stack.bound, Stack.bound, hlist]
  · rw [hnet, happ, Function.iterate_succ_apply']

/-- With a single frame, the rounds that are counted are those with an answer. -/
theorem returns_single (hfs : FramesOf port d segment [f]) (hlen : [f].length = n)
    (h : t.Single t n start 0 port d segment f) :
    t.Returns ↔ ∃ k, t.sim.runs ≤ t.sim.times + Nat.count (fun j =>
      answered (t.net.bound port) d ((appAfter (t.net.bound port) d)^[j] t.net.app) = true) k := by
  have hall : ∀ j, (Prof.round^[j] t).succeeds =
      answered (t.net.bound port) d ((appAfter (t.net.bound port) d)^[j] t.net.app) := by
    intro j
    have hj : (Prof.round^[j] t).Single t n start j port d segment f :=
      Loop.iterate_invariant (I := fun j s => Prof.Single s t n start j port d segment f)
        (fun _ _ hs => (single_round hfs hlen hs).2) h j
    exact (single_round hfs hlen hj).1
  simp only [returns_iff_advances, Loop.advances, hall]

end Frames

/-! ## When listen returns -/

/-- What `prepare` leaves. -/
theorem prepare_accepted {before sim : Sim} {port runs : Int} {d : Str}
    (hgen : prepare port runs d before = .ok () sim) :
    ∃ segment fs start, FramesOf port d segment fs ∧ sim.port = port ∧ sim.runs = runs ∧
      sim.times = before.times ∧ sim.Loaded (frameCount d) start start fs := by
  have hprep : prepare port runs d before =
      generateProfData { before with port := port, runs := runs, profData := some d } := rfl
  rw [hprep] at hgen
  obtain ⟨segment, fs, hfs, hset, hload⟩ := generateProfData_accepted rfl hgen
  simp only [Sim.settings, Prod.mk.injEq] at hset
  exact ⟨segment, fs, _, hfs, hset.1, hset.2.2.2, hset.2.2.1, hload⟩

/-- `prepare` succeeds with the index inside the array that is made for `d`. -/
theorem prepare_succeeds {before : Sim} {port : Int} {d : Str} (hport : 0 ≤ port ∧ port ≤ 65535)
    (hd : d.length ≤ 65527) (hidx : before.curIdx < frameCount d) (runs : Int) :
    ∃ sim, prepare port runs d before = .ok () sim := by
  obtain ⟨segment, fs, hfs⟩ := exists_framesOf hport hd
  obtain ⟨sim, hsim, -⟩ := generateProfData_loaded
    (s := { before with port := port, runs := runs, profData := some d }) hfs rfl hidx
  exact ⟨sim, hsim⟩

theorem frameCount_le_one {d : Str} : frameCount d ≤ 1 ↔ d.length ≤ 1472 := by
  rw [frameCount]
  omega

section Prepared

variable {s : Prof σ} {before : Sim} {port runs : Int} {d : Str}
  (hempty : s.net.buffers = .empty) (hgen : prepare port runs d before = .ok () s.sim)

include hempty hgen

theorem returns_long (hlong : 1472 < d.length) : s.Returns := by
  obtain ⟨segment, fs, start, hfs, -, -, -, hload⟩ := prepare_accepted hgen
  have hcount := hfs.count
  have htwo : ¬ frameCount d ≤ 1 := mt frameCount_le_one.mp (Nat.not_le.mpr hlong)
  cases fs with
  | nil => exact absurd hcount (frameCount_pos d).ne
  | cons f fs =>
    cases fs with
    | nil => exact absurd hcount.ge htwo
    | cons g fs =>
      have hstart : s.Several (frameCount d) start 0 (f :: g :: fs) := by
        refine ⟨hload, ?_⟩
        rw [hempty]
        exact open_none
      exact returns_several hfs hcount hstart

theorem returns_short_iff (hshort : d.length ≤ 1472) :
    s.Returns ↔ ∃ k, runs ≤ before.times + Nat.count (fun j =>
      answered (s.net.bound port) d ((appAfter (s.net.bound port) d)^[j] s.net.app) = true) k := by
  obtain ⟨segment, fs, start, hfs, -, hruns, htimes, hload⟩ := prepare_accepted hgen
  have hone : fs.length = 1 := by
    rw [hfs.count]
    exact Nat.le_antisymm (frameCount_le_one.mpr hshort) (frameCount_pos d)
  obtain ⟨f, rfl⟩ := List.length_eq_one_iff.mp hone
  have hstart : s.Single s (frameCount d) start 0 port d segment f := by
    refine ⟨hload, ?_, rfl, rfl⟩
    rw [hempty]
    exact copies_none segment
  rw [returns_single hfs hfs.count hstart, hruns, htimes]

/-- With a callback that never has an answer, no run is ever counted. -/
theorem not_returns_unanswered (hshort : d.length ≤ 1472) (hruns : before.times < runs)
    (hnever : ∀ app, answered (s.net.bound port) d app = false) : ¬ s.Returns := by
  rw [returns_short_iff hempty hgen hshort]
  rintro ⟨k, hk⟩
  simp only [hnever, Bool.false_eq_true, Nat.count_false] at hk
  omega

/-- **The listen loop** of a prepared program returns if and only if the data takes more
than one frame, or the callback of the port, given the data again and again, has enough
answers that can be sent. Without a callback the fixed reply is always one. -/
theorem listen_returns_iff :
    s.Returns ↔ 1472 < d.length ∨ ∃ k, runs ≤ before.times + Nat.count (fun j =>
      answered (s.net.bound port) d ((appAfter (s.net.bound port) d)^[j] s.net.app) = true) k := by
  by_cases hlong : 1472 < d.length
  · exact iff_of_true (returns_long hempty hgen hlong) (.inl hlong)
  · rw [returns_short_iff hempty hgen (Nat.le_of_not_lt hlong), or_iff_right hlong]

end Prepared

/-- The echo service, prepared with two bytes, returns after its thousand rounds. -/
theorem listen_returns_iff_echo :
    ∃ sim, prepare 8080 1000 [104, 105] Sim.init = .ok () sim ∧
      (Prof.mk sim echoService).Returns := by
  obtain ⟨sim, hsim⟩ : ∃ sim, prepare 8080 1000 [104, 105] Sim.init = .ok () sim :=
    prepare_succeeds (by omega) (by simp) (frameCount_pos _) 1000
  have hcount : Nat.count (fun j => answered (echoService.bound 8080) [104, 105]
      ((appAfter (echoService.bound 8080) [104, 105])^[j] ()) = true) 1000 = 1000 :=
    Nat.count_iff_forall.mpr fun _ _ => rfl
  have hle : (1000 : Int) ≤ 0 + Nat.count (fun j => answered (echoService.bound 8080) [104, 105]
      ((appAfter (echoService.bound 8080) [104, 105])^[j] ()) = true) 1000 := by
    rw [hcount]
    rfl
  exact ⟨sim, hsim,
    (listen_returns_iff (s := ⟨sim, echoService⟩) rfl hsim).mpr (.inr ⟨1000, hle⟩)⟩

/-- A service on port 8080 that raises whatever it is given. -/
def failingService : Stack Unit :=
  { Stack.init () with listenOn := [(8080, fun _ => throw .subscript)] }

/-- It is never done with one run. -/
theorem failing_never_returns :
    ∃ sim, prepare 8080 1 [] Sim.init = .ok () sim ∧ ¬ (Prof.mk sim failingService).Returns := by
  obtain ⟨sim, hsim⟩ : ∃ sim, prepare 8080 1 [] Sim.init = .ok () sim :=
    prepare_succeeds (by omega) (Nat.zero_le _) (frameCount_pos _) 1
  exact ⟨sim, hsim, not_returns_unanswered (s := ⟨sim, failingService⟩) rfl hsim (Nat.zero_le _)
    Int.zero_lt_one fun _ => rfl⟩

end Unikernel.NetworkProf
