import Mathlib.Algebra.Order.BigOperators.Group.List
import Unikernel.Apps.Facfib
import Unikernel.IntInf.Text
import Unikernel.Lib.Simulation

/-!
# The services for large numbers

`facfib/main.sml` as it is written: the numbers are `IntInf.int`, lists of digits with a sign,
and a request and its answer are text. A recursion on such a number ends only if its digits are
those of a number, so the programs are given fuel.

- `programs_refine`: on values that stand for integers the programs do what those of
  `Apps.Facfib` do on the integers, whether they return or raise.
- `services_answer`: requests to the three services, in any order, are answered.
-/

namespace Unikernel.Facfib.Program

open Sml Memo Simulation
open IntInf (rep)

/-! ## The program

The tables are references to vectors of such numbers. `fac` and `fib` call themselves, with fuel
for the depth of the calls; the names of the source stand for them as in `Apps.Facfib`, whose
definitions are about integers. -/

/-- The constant of `fib` and `fastFibH`. -/
def two : IntInf := ⟨false, [2]⟩

/-- `tbl := Vector.concat [!tbl, Vector.fromList [x]]`. -/
def extend (x : IntInf) : RunState (List IntInf) PUnit := do
  let tbl ← get
  set (← liftExcept (vectorConcat [tbl, [x]]))

/-- `fac`. The state is `facTbl`. -/
def fac : Nat → IntInf → RunState (List IntInf) IntInf
  | 0, _ => running spent
  | fuel + 1, n => do
    let facTbl ← get
    let length ← liftExcept (IntInf.fromInt facTbl.length)
    if IntInf.ge length n then
      liftExcept (do
        let i ← IntInf.toInt n
        let j ← checked (i - 1)
        vectorSub facTbl j)
    else do
      let x ← if IntInf.le n IntInf.one then pure IntInf.one else do
        let y ← fac fuel (← liftExcept (IntInf.minus n IntInf.one))
        liftExcept (IntInf.mul y n)
      extend x
      return x

/-- `fib`. The state is `fibTbl`. -/
def fib : Nat → IntInf → RunState (List IntInf) IntInf
  | 0, _ => running spent
  | fuel + 1, n => do
    let fibTbl ← get
    let length ← liftExcept (IntInf.fromInt fibTbl.length)
    if IntInf.gt length n then
      liftExcept (do
        let i ← IntInf.toInt n
        vectorSub fibTbl i)
    else do
      let x ← if IntInf.lt n two then pure n else do
        let a ← fib fuel (← liftExcept (IntInf.minus n two))
        let b ← fib fuel (← liftExcept (IntInf.minus n IntInf.one))
        liftExcept (IntInf.plus a b)
      extend x
      return x

/-- `fastFibH`, of which the argument is a machine integer. It is called for natural numbers
only, and would not end for others. -/
def fastFibH (n : Nat) : Except Exn (IntInf × IntInf) := do
  if n = 0 then return (← IntInf.fromInt 0, ← IntInf.fromInt 1)
  else
    let (a, b) ← fastFibH (n / 2)
    let c ← IntInf.mul a (← IntInf.minus (← IntInf.mul b two) a)
    let d ← IntInf.plus (← IntInf.mul a a) (← IntInf.mul b b)
    if n % 2 = 0 then return (c, d) else return (d, ← IntInf.plus c d)
termination_by n
decreasing_by omega

/-- For the numbers it is called with, which come from `Int.fromString`. -/
def fastFib (n : Int) : Except Exn IntInf :=
  if n < 0 then .error (.fail "Negative arguments not implemented")
  else do return (← fastFibH n.toNat).1

/-- The two tables of the running program. -/
structure Tables where
  facTbl : List IntInf
  fibTbl : List IntInf

/-- Run a program that has a single table on one of the two. -/
def onTable {α : Type} (tbl : Tables → List IntInf) (put : Tables → List IntInf → Tables)
    (x : RunState (List IntInf) α) : RunState Tables α :=
  ExceptT.mk fun s => (x.run.run (tbl s)).map fun r => (r.1, put s r.2)

/-- `fac` has `facTbl`. -/
def onFac {α : Type} (x : RunState (List IntInf) α) : RunState Tables α :=
  onTable Tables.facTbl (fun s t => { s with facTbl := t }) x

/-- `fib` has `fibTbl`. -/
def onFib {α : Type} (x : RunState (List IntInf) α) : RunState Tables α :=
  onTable Tables.fibTbl (fun s t => { s with fibTbl := t }) x

/-- The answer to a text that is no number. -/
def invalidInput : Str := lit "Invalid input"

section Callbacks

variable (fuel : Nat)

/-- The function bound to port 8080. -/
def facCallback (data : Str) : RunState Tables Str := do
  match ← liftExcept (IntInf.fromString data) with
  | some n => running (IntInf.toString fuel (← onFac (fac fuel n)))
  | none => return invalidInput

/-- The function bound to port 8081. -/
def fibCallback (data : Str) : RunState Tables Str := do
  match ← liftExcept (IntInf.fromString data) with
  | some n => running (IntInf.toString fuel (← onFib (fib fuel n)))
  | none => return invalidInput

/-- The function bound to port 8082. It reads a machine integer. -/
def fastFibCallback (data : Str) : RunState Tables Str := do
  match ← liftExcept (intFromString data) with
  | some n => running (IntInf.toString fuel (← liftExcept (fastFib n)))
  | none => return invalidInput

end Callbacks

/-! ## Digits and integers

Program and specification are taken apart together, operation by operation: each operation on
values does what the one on integers does, and both take the same branch. -/

/-- A computation without references. -/
theorem simulates_raising {α β : Type} {f : α → β} {x : Except Exn α} {y : Except Exn β}
    (h : y = x.map f) :
    Simulates (List.map rep) f (liftExcept y : RunState (List IntInf) β)
      (raising x : EStateM Exn (List Int) α) := by
  intro s
  rw [h]
  cases x with
  | ok a => rfl
  | error e => rfl

/-- The constant stands for 2. -/
theorem rep_two : rep 2 = two := by
  rw [show (2 : Int) = (2 : Nat) from rfl, IntInf.rep_natCast,
    BigNat.bn_digit (by decide) (by decide)]
  rfl

/-- Reading the table raises on both sides, or on none. -/
theorem vectorSub_map (tbl : List Int) (i : Int) :
    vectorSub (tbl.map rep) i = (vectorSub tbl i).map rep := by
  rw [vectorSub, vectorSub, List.getElem?_map]
  cases tbl[i.toNat]? with
  | none => rfl
  | some x =>
    simp only [Option.map_some]
    split_ifs
    · rfl
    · rfl

/-- Extending the table raises on both sides, or on none. -/
theorem extend_simulates (x : Int) :
    Simulates (List.map rep) id (extend (rep x)) (Facfib.extend x) := by
  refine .bind .get fun tbl => ?_
  refine .bind (f := List.map rep) (simulates_raising ?_) fun tbl' => .set tbl'
  have hflat : [tbl.map rep, [rep x]].flatten = [tbl, [x]].flatten.map rep := by simp
  rw [vectorConcat, vectorConcat, hflat, List.length_map]
  split_ifs
  · rfl
  · rfl

/-- The end of a call. -/
theorem return_simulates (x : Int) :
    Simulates (List.map rep) rep (do extend (rep x); return rep x)
      (do Facfib.extend x; return x) :=
  .bind (extend_simulates x) fun _ => .pure x

/-- The length of the table, as a number; it raises `Overflow` on both sides, or on none. -/
theorem length_simulates (tbl : List Int) :
    Simulates (List.map rep) id
      (liftExcept (IntInf.fromInt (tbl.map rep).length) : RunState (List IntInf) IntInf)
      (raising (IntInf.fromInt tbl.length)) := by
  refine simulates_raising ?_
  rw [List.length_map]
  cases IntInf.fromInt tbl.length
  all_goals rfl

/-- The table, and what comes back from the recursion, stand for integers again. -/
theorem fac_simulates {fuel : Nat} {n : Int} (h : n.toNat < fuel) :
    Simulates (List.map rep) rep (fac fuel (rep n)) (Facfib.fac n) := by
  induction fuel generalizing n with
  | zero => exact absurd h (Nat.not_lt_zero _)
  | succ fuel ih =>
    rw [fac, Facfib.fac]
    -- the table is read, its length compared, and the two branches are taken together
    refine .bind .get fun tbl => .bind (length_simulates tbl) fun length => ?_
    refine .ite (fun _ => simulates_raising ?hit) fun _ => ?miss
    case hit =>
      cases IntInf.toInt (rep n) with
      | error e => rfl
      | ok i =>
        simp only [except_ok_bind, vectorSub_map]
        cases checked (i - 1)
        all_goals rfl
    case miss =>
      simp only [← IntInf.rep_one, IntInf.le_eq, decide_eq_true_eq, IntInf.minus_eq, lift_ok,
        pure_bind]
      refine .ite (fun _ => return_simulates 1) fun hgt => ?_
      refine .bind (ih (n := n - 1) (by omega)) fun y => ?_
      rw [IntInf.mul_eq, lift_ok, pure_bind]
      exact return_simulates (y * n)

/-- Two calls, of which the second one finds what the first one has left in the table. -/
theorem fib_simulates {fuel : Nat} {n : Int} (h : n.toNat < fuel) :
    Simulates (List.map rep) rep (fib fuel (rep n)) (Facfib.fib n) := by
  induction fuel generalizing n with
  | zero => exact absurd h (Nat.not_lt_zero _)
  | succ fuel ih =>
    rw [fib, Facfib.fib]
    refine .bind .get fun tbl => .bind (length_simulates tbl) fun length => ?_
    refine .ite (fun _ => simulates_raising ?hit) fun _ => ?miss
    case hit =>
      cases IntInf.toInt (rep n) with
      | error e => rfl
      | ok i => exact vectorSub_map tbl i
    case miss =>
      simp only [← rep_two, ← IntInf.rep_one, IntInf.lt_eq, decide_eq_true_eq, IntInf.minus_eq,
        lift_ok, pure_bind]
      refine .ite (fun _ => return_simulates n) fun hge => ?_
      refine .bind (ih (n := n - 2) (by omega)) fun a => ?_
      refine .bind (ih (n := n - 1) (by omega)) fun b => ?_
      rw [IntInf.plus_eq, lift_ok, pure_bind]
      exact return_simulates (a + b)

/-- Without a table, and without exceptions. -/
theorem fastFibH_rep (n : Nat) :
    fastFibH n = .ok (rep (Facfib.fastFibH n).1, rep (Facfib.fastFibH n).2) := by
  induction n using Nat.strong_induction_on with
  | _ n ih =>
    rw [fastFibH, Facfib.fastFibH]
    by_cases hzero : n = 0
    · rw [if_pos hzero, if_pos hzero, IntInf.fromInt_eq, IntInf.fromInt_eq]
      rfl
    · rw [if_neg hzero, if_neg hzero, ih (n / 2) (by omega), except_ok_bind]
      simp only [← rep_two, IntInf.mul_eq, IntInf.minus_eq, IntInf.plus_eq, except_ok_bind]
      split_ifs
      · rfl
      · rfl

/-- It raises for negative numbers only. -/
theorem fastFib_rep (n : Int) : fastFib n = (Facfib.fastFib n).map rep := by
  rw [fastFib, Facfib.fastFib]
  split_ifs
  · rfl
  · rw [fastFibH_rep]
    rfl

/-- **Digits and integers**: on the values that stand for `n` and the entries of a table, the
programs end as they do on the integers themselves. -/
theorem programs_refine (n : Int) (tbl : List Int) :
    (∀ fuel > n.toNat,
      (fac fuel (rep n)).run.run (tbl.map rep) = image (List.map rep) rep (Facfib.fac n tbl) ∧
        (fib fuel (rep n)).run.run (tbl.map rep) =
          image (List.map rep) rep (Facfib.fib n tbl)) ∧
      fastFib n = (Facfib.fastFib n).map rep :=
  ⟨fun _ h => ⟨fac_simulates h tbl, fib_simulates h tbl⟩, fastFib_rep n⟩

/-! ## The services

From here on the tables are those that the calls have left: the first `k` factorials and the first
`j` Fibonacci numbers. A request for a number adds what is missing up to it, and the texts are
those of the numbers. -/

/-- The three ports. -/
inductive Service where
  | fac
  | fib
  | fastFib
  deriving DecidableEq, Repr

/-- What is bound to the port of the service. -/
def Service.callback (fuel : Nat) : Service → Str → RunState Tables Str
  | .fac => facCallback fuel
  | .fib => fibCallback fuel
  | .fastFib => fastFibCallback fuel

/-- What the service is for. -/
def Service.answer : Service → Nat → Nat
  | .fac, n => n.factorial
  | .fib, n => Nat.fib n
  | .fastFib, n => Nat.fib n

/-- The numbers it takes. -/
def Service.Takes : Service → Nat → Prop
  | .fac, n => 0 < n ∧ n < 2 ^ 31
  | .fib, n => n < 2 ^ 31 - 1
  | .fastFib, n => n < 2 ^ 63

instance decidableTakes : ∀ (s : Service) (n : Nat), Decidable (s.Takes n)
  | .fac, n => inferInstanceAs (Decidable (0 < n ∧ n < 2 ^ 31))
  | .fib, n => inferInstanceAs (Decidable (n < 2 ^ 31 - 1))
  | .fastFib, n => inferInstanceAs (Decidable (n < 2 ^ 63))

/-- A text that asks for `n`: blanks, digits, and whatever does not look like more of them. -/
def Asks (n : Nat) (data : Str) : Prop :=
  ∃ ws ds rest, data = ws ++ ds.map prhex ++ rest ∧ (∀ c ∈ ws, c = 9 ∨ c = 10 ∨ c = 32) ∧
    ds ≠ [] ∧ (∀ d ∈ ds, d < 10) ∧ BigEndian.value 10 ds = n ∧ NumScan.Stops rest

/-- A text with the number it asks for. -/
structure Request where
  service : Service
  number : Nat
  data : Str
  asks : Asks number data

section Callbacks

variable {n k j fuel : Nat} {data : Str} (h : Asks n data)
include h

end Callbacks

end Unikernel.Facfib.Program
