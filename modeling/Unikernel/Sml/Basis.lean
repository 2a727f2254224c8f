import Mathlib.Algebra.Group.Int.Defs
import Mathlib.Data.List.Basic

/-!
# The part of the SML Basis Library the stack is written in

The network libraries are Standard ML, compiled by MLKit with `-no_gc`: an
`int` is an untagged 64-bit machine integer whose operations raise `Overflow`,
a `char` is a byte, a `string` is a sequence of bytes.

- `Str`: SML strings, as byte lists.
- `Sml.checked`: the result of an `int` operation that may overflow.
- `Sml.substring`, `Sml.extract`: slicing; both raise `Subscript` (`String.sml`).
- `Sml.chr`: the only range check most encoders have.
- Code that only fails is an `Except Exn`; code that also writes to references
  is an `EStateM Exn`, whose state survives an exception, as SML's does.
-/

namespace Unikernel

/-- The exceptions that can escape from the modelled functions. -/
inductive Exn where
  | subscript
  | chr
  | overflow
  | size
  | div
  -- those of `IntInf.sml` and `IntInfRep.sml`
  | negative
  | subtOne
  | divmodd
  | fmt
  | fail (msg : String)
  deriving DecidableEq, Repr

/-- An SML `string`: one byte for each character. -/
abbrev Str := List UInt8

namespace Sml

/-- The bytes of an ASCII string literal of the sources. -/
def lit (s : String) : Str := s.toList.map fun c => UInt8.ofNat c.toNat

def minInt : Int := -(2 ^ 63)

def maxInt : Int := 2 ^ 63 - 1

/-- The value of an `int` operation, or `Overflow` when it is no 64-bit integer. -/
def checked (i : Int) : Except Exn Int :=
  if minInt ≤ i ∧ i ≤ maxInt then .ok i else .error .overflow

/-- `Char.ord`. -/
def ord (c : UInt8) : Int := c.toNat

/-- `Char.chr`: raises `Chr` outside `0..255` (`Char.sml`). -/
def chr (i : Int) : Except Exn UInt8 :=
  if 0 ≤ i ∧ i < 256 then .ok (UInt8.ofNat i.toNat) else .error .chr

/-- `String.substring (s, i, n)`. -/
def substring (s : Str) (i n : Nat) : Except Exn Str :=
  if i + n ≤ s.length then .ok ((s.drop i).take n) else .error .subscript

/-- `String.extract (s, i, NONE)`. -/
def extract (s : Str) (i : Nat) : Except Exn Str :=
  if i ≤ s.length then .ok (s.drop i) else .error .subscript

/-- `Vector.sub (v, i)`. -/
def vectorSub {α : Type} (v : List α) (i : Int) : Except Exn α :=
  match v[i.toNat]? with
  | some x => if 0 ≤ i then .ok x else .error .subscript
  | none => .error .subscript

/-- `Vector.maxLen`, which is `wordtable_maxlen` of `InitialMini.sml`. -/
def vectorMaxLen : Nat := 123456789 * 100

/-- `Vector.concat`. -/
def vectorConcat {α : Type} (vs : List (List α)) : Except Exn (List α) :=
  if vs.flatten.length ≤ vectorMaxLen then .ok vs.flatten else .error .size

/-- `Int.toString`: SML writes the sign as `~`. -/
def intToString (i : Int) : String :=
  if i < 0 then "~" ++ toString (-i) else toString i

/-! ## Slicing and bytes -/

theorem checked_ok {i : Int} (h : minInt ≤ i) (h' : i ≤ maxInt) : checked i = .ok i :=
  if_pos ⟨h, h'⟩

/-- A non-negative result below `2 ^ 63` is returned. -/
theorem checked_small {i : Int} (h : 0 ≤ i) (h' : i < 2 ^ 63) : checked i = .ok i :=
  checked_ok (by simp only [minInt]; omega) (by simp only [maxInt]; omega)

theorem checked_eq_ok_iff {i j : Int} :
    checked i = .ok j ↔ (minInt ≤ i ∧ i ≤ maxInt) ∧ i = j := by
  unfold checked
  split
  · next h => simp [h]
  · next h => simp [h]

theorem checked_error {i : Int} (h : 2 ^ 63 ≤ i) : checked i = .error .overflow :=
  if_neg (by simp only [maxInt]; omega)

theorem ord_nonneg (c : UInt8) : 0 ≤ ord c := Int.natCast_nonneg _

theorem ord_lt (c : UInt8) : ord c < 256 := by
  have := c.toNat_lt
  simp only [ord]
  omega

@[simp] theorem chr_ord (c : UInt8) : chr (ord c) = .ok c := by
  rw [chr, if_pos ⟨ord_nonneg c, ord_lt c⟩]
  simp [ord]

theorem chr_ok {i : Int} (h : 0 ≤ i) (h' : i < 256) :
    chr i = .ok (UInt8.ofNat i.toNat) :=
  if_pos ⟨h, h'⟩

theorem chr_error {i : Int} (h : i < 0 ∨ 256 ≤ i) : chr i = .error .chr :=
  if_neg (by omega)

/-- `chr` succeeds exactly on bytes, and `ord` undoes it. -/
theorem chr_eq_ok_iff {i : Int} {c : UInt8} : chr i = .ok c ↔ i = ord c := by
  constructor
  · intro h
    unfold chr at h
    split at h
    · next hi =>
      cases h
      have := UInt8.toNat_ofNat_of_lt' (n := i.toNat) (by simp [UInt8.size]; omega)
      simp only [ord]
      omega
    · cases h
  · rintro rfl
    exact chr_ord c

theorem substring_ok {s : Str} {i n : Nat} (h : i + n ≤ s.length) :
    substring s i n = .ok ((s.drop i).take n) := if_pos h

theorem substring_error {s : Str} {i n : Nat} (h : s.length < i + n) :
    substring s i n = .error .subscript := if_neg (by omega)

/-- A slice that starts behind `a` is a slice of what follows. -/
theorem substring_append_right {a b : Str} {i n k : Nat} (ha : a.length = k) :
    substring (a ++ b) (k + i) n = substring b i n := by
  subst ha
  simp only [substring, List.length_append, Nat.add_assoc, Nat.add_le_add_iff_left,
    List.drop_length_add_append]

theorem substring_append_left {a b : Str} {n : Nat} (ha : a.length = n) :
    substring (a ++ b) 0 n = .ok a := by
  subst ha
  rw [substring_ok (by simp)]
  simp

/-- Cut a string that is known to be long enough. -/
theorem exists_append_of_le {s : Str} {n k : Nat} (h : n + k ≤ s.length) :
    ∃ a b, s = a ++ b ∧ a.length = n ∧ k ≤ b.length :=
  ⟨s.take n, s.drop n, (List.take_append_drop n s).symm, by simp; omega, by simp; omega⟩

theorem vectorSub_ok {α : Type} {v : List α} {i : Nat} {x : α} (h : v[i]? = some x) :
    vectorSub v i = .ok x := by
  rw [vectorSub, Int.toNat_natCast, h]
  exact if_pos (Int.natCast_nonneg i)

theorem extract_append {a b : Str} {k : Nat} (ha : a.length = k) :
    extract (a ++ b) k = .ok b := by
  subst ha
  rw [extract, if_pos (by simp)]
  simp

theorem extract_ok {s : Str} {i : Nat} (h : i ≤ s.length) :
    extract s i = .ok (s.drop i) := if_pos h

theorem extract_error {s : Str} {i : Nat} (h : s.length < i) :
    extract s i = .error .subscript := if_neg (by omega)

theorem extract_eq_ok_iff {s t : Str} {i : Nat} :
    extract s i = .ok t ↔ i ≤ s.length ∧ t = s.drop i := by
  by_cases h : i ≤ s.length
  · rw [extract_ok h, Except.ok.injEq, eq_comm]
    exact (and_iff_right h).symm
  · rw [extract_error (by omega)]
    exact ⟨nofun, fun h' => absurd h'.1 h⟩

end Sml

/-! ## Sequencing

The two monads of the model, computed one bind at a time. -/

@[simp] theorem except_ok_bind {ε α β : Type} (a : α) (f : α → Except ε β) :
    (Except.ok a >>= f) = f a := rfl

@[simp] theorem except_error_bind {ε α β : Type} (e : ε) (f : α → Except ε β) :
    (Except.error e >>= f) = .error e := rfl

/-- What a successful sequence of two computations passed on the way. -/
theorem except_bind_eq_ok {ε α β : Type} {x : Except ε α} {f : α → Except ε β} {b : β} :
    (x >>= f) = .ok b ↔ ∃ a, x = .ok a ∧ f a = .ok b := by
  cases x with
  | error e => simp
  | ok a => simp

/-- Run a computation that only fails inside one with state. -/
def raising {σ α : Type} : Except Exn α → EStateM Exn σ α
  | .ok a => pure a
  | .error e => throw e

/-- The state that a computation leaves, whether it raised or not. -/
def after {σ α : Type} : EStateM.Result Exn σ α → σ
  | .ok _ s => s
  | .error _ s => s

section EStateM

variable {ε σ α β : Type} (s : σ)

@[simp] theorem estate_throw (e : ε) :
    (throw e : EStateM ε σ α) s = .error e s := rfl

@[simp] theorem estate_get : (get : EStateM ε σ σ) s = .ok s s := rfl

@[simp] theorem estate_set (t : σ) : (set t : EStateM ε σ PUnit) s = .ok ⟨⟩ t := rfl

@[simp] theorem estate_modify (f : σ → σ) :
    (modify f : EStateM ε σ PUnit) s = .ok ⟨⟩ (f s) := rfl

theorem estate_bind (x : EStateM ε σ α) (f : α → EStateM ε σ β) :
    (x >>= f) s = match x s with
      | .ok a s' => f a s'
      | .error e s' => .error e s' := rfl

@[simp] theorem raising_ok (a : α) : raising (.ok a) s = .ok a s := rfl

@[simp] theorem raising_error (e : Exn) :
    (raising (.error e) : EStateM Exn σ α) s = .error e s := rfl

variable {s}

/-- What follows a computation that returns. -/
theorem estate_bind_ok {x : EStateM ε σ α} {a : α} {t : σ} (h : x s = .ok a t)
    (f : α → EStateM ε σ β) : (x >>= f) s = f a t := by
  rw [estate_bind, h]

/-- Nothing follows one that raises. -/
theorem estate_bind_error {x : EStateM ε σ α} {e : ε} {t : σ} (h : x s = .error e t)
    (f : α → EStateM ε σ β) : (x >>= f) s = .error e t := by
  rw [estate_bind, h]

theorem raising_bind_ok {x : Except Exn α} {a : α} (h : x = .ok a) (f : α → EStateM Exn σ β) :
    (raising x >>= f) s = f a s := by
  rw [h, estate_bind_ok (raising_ok s a)]

theorem raising_bind_error {x : Except Exn α} {e : Exn} (h : x = .error e)
    (f : α → EStateM Exn σ β) : (raising x >>= f) s = .error e s := by
  rw [h, estate_bind_error (raising_error s e)]

end EStateM

/-! ## Code that may run forever -/

/-- Code whose end depends on what it is called with. It is given fuel for so many calls of
itself, and has no result when that is spent. -/
abbrev Run (α : Type) := ExceptT Exn Option α

/-- The same with references. What is in them when an exception is raised stays there. -/
abbrev RunState (σ α : Type) := ExceptT Exn (StateT σ Option) α

/-- The fuel is spent. -/
def spent {α : Type} : Run α := ExceptT.mk none

/-- Run a computation without references inside one that has some. -/
def running {σ α : Type} (x : Run α) : RunState σ α :=
  ExceptT.mk fun s => x.run.map fun r => (r, s)

theorem lift_ok {m : Type → Type} [Monad m] [MonadExceptOf Exn m] {α : Type} (a : α) :
    (liftExcept (.ok a : Except Exn α) : m α) = pure a := rfl

end Unikernel
