import Mathlib.Data.Nat.Digits.Defs
import Mathlib.Data.Nat.Digits.Lemmas

/-!
# Big-endian numerals

Mathlib's `Nat.ofDigits` reads the least significant digit first; wire formats
put it last. `BigEndian.value` is the reading of a digit list in that order,
in any base, with the facts a codec needs: how a digit is appended, and the
bound by the number of digits. `BigEndian.digits` writes a number without
leading zeros, `BigEndian.fixed` with as many as are asked for, and a long numeral is one of
each kind (`digits_append_fixed`).
-/

namespace BigEndian

/-- The number written by `ds` in base `b`, most significant digit first. -/
def value (b : Nat) (ds : List Nat) : Nat := Nat.ofDigits b ds.reverse

@[simp] theorem value_nil (b : Nat) : value b [] = 0 := rfl

/-- Appending a digit shifts the others up. -/
theorem value_snoc (b : Nat) (ds : List Nat) (d : Nat) :
    value b (ds ++ [d]) = value b ds * b + d := by
  rw [value, value, List.reverse_append, List.reverse_singleton, List.singleton_append,
    Nat.ofDigits_cons, Nat.add_comm, Nat.mul_comm]

theorem value_lt {b : Nat} {ds : List Nat} (hb : 1 < b) (hd : ∀ d ∈ ds, d < b) :
    value b ds < b ^ ds.length := by
  have h := Nat.ofDigits_lt_base_pow_length (l := ds.reverse) hb
    (fun d h => hd d (List.mem_reverse.mp h))
  rwa [List.length_reverse] at h

theorem value_singleton (b d : Nat) : value b [d] = d := Nat.ofDigits_singleton

theorem value_append (b : Nat) (ds es : List Nat) :
    value b (ds ++ es) = value b ds * b ^ es.length + value b es := by
  rw [value, List.reverse_append, Nat.ofDigits_append, List.length_reverse, Nat.add_comm,
    Nat.mul_comm]
  rfl

/-- More digits make no smaller number. -/
theorem value_le_append {b : Nat} (hb : 0 < b) (ds es : List Nat) :
    value b ds ≤ value b (ds ++ es) := by
  rw [value_append]
  exact Nat.le_add_right_of_le (Nat.le_mul_of_pos_right _ (Nat.pow_pos hb))

/-! ## Numerals without leading zeros -/

/-- The digits of a number; `0` has one. -/
def digits (b n : Nat) : List Nat := (Nat.digits b (n / b)).reverse ++ [n % b]

variable {b n : Nat}

theorem digits_of_lt (h : n < b) : digits b n = [n] := by
  rw [digits, Nat.div_eq_of_lt h, Nat.mod_eq_of_lt h, Nat.digits_zero]
  rfl

theorem digits_of_le (hb : 1 < b) (h : b ≤ n) :
    digits b n = digits b (n / b) ++ [n % b] := by
  have hdiv : 0 < n / b := Nat.div_pos h (by omega)
  rw [digits, digits, Nat.digits_def' hb hdiv, List.reverse_cons]

theorem digits_ne_nil : digits b n ≠ [] := by
  rw [digits]
  exact List.append_ne_nil_of_right_ne_nil _ (List.cons_ne_nil _ _)

theorem digits_lt (hb : 1 < b) {d : Nat} (hd : d ∈ digits b n) : d < b := by
  rw [digits, List.mem_append, List.mem_reverse, List.mem_singleton] at hd
  rcases hd with hd | rfl
  · exact Nat.digits_lt_base hb hd
  · exact Nat.mod_lt _ (by omega)

/-- What was written is read back. -/
@[simp] theorem value_digits (b n : Nat) : value b (digits b n) = n := by
  rw [digits, value_snoc, value, List.reverse_reverse, Nat.ofDigits_digits]
  exact Nat.div_add_mod' n b

theorem lt_pow_length (hb : 1 < b) : n < b ^ (digits b n).length := by
  have h : value b (digits b n) < b ^ (digits b n).length :=
    value_lt hb fun d hd => digits_lt hb hd
  rwa [value_digits] at h

/-- There is no digit too many. -/
theorem pow_length_le (hb : 1 < b) (hn : 0 < n) : b ^ ((digits b n).length - 1) ≤ n := by
  rw [digits, List.length_append, List.length_reverse, List.length_singleton, Nat.add_sub_cancel]
  by_cases hdiv : n / b = 0
  · rw [hdiv, Nat.digits_zero, List.length_nil, Nat.pow_zero]
    exact hn
  · exact (Nat.base_pow_length_digits_le b (n / b) hb hdiv).trans (Nat.mul_div_le n b)

theorem length_digits_le {k : Nat} (hb : 1 < b) (hk : 0 < k) (h : n < b ^ k) :
    (digits b n).length ≤ k := by
  rcases Nat.eq_zero_or_pos n with rfl | hn
  · rw [digits_of_lt (by omega)]
    exact hk
  · have hpow : b ^ ((digits b n).length - 1) < b ^ k := (pow_length_le hb hn).trans_lt h
    have hlen := (Nat.pow_lt_pow_iff_right hb).mp hpow
    omega

/-! ## A fixed number of digits -/

/-- The last `k` digits of `n`, with zeros in front where it has fewer. -/
def fixed (b : Nat) : Nat → Nat → List Nat
  | 0, _ => []
  | k + 1, n => fixed b k (n / b) ++ [n % b]

theorem fixed_zero (b k : Nat) : fixed b k 0 = List.replicate k 0 := by
  induction k with
  | zero => rfl
  | succ k ih => rw [fixed, Nat.zero_div, Nat.zero_mod, ih, ← List.replicate_succ']

/-- Only the remainder matters. -/
theorem fixed_mod (b k n : Nat) : fixed b k (n % b ^ k) = fixed b k n := by
  induction k generalizing n with
  | zero => rfl
  | succ k ih =>
    have hdiv : n % b ^ (k + 1) / b = n / b % b ^ k := by
      rw [Nat.pow_succ', Nat.mod_mul_right_div_self]
    have hmod : n % b ^ (k + 1) % b = n % b :=
      Nat.mod_mod_of_dvd n (dvd_pow_self b k.succ_ne_zero)
    rw [fixed, fixed, hdiv, hmod, ih]

/-- **Padding**: a numeral that is short enough, with zeros in front. -/
theorem replicate_append_digits (hb : 1 < b) {k : Nat} (hk : 0 < k) (h : n < b ^ k) :
    List.replicate (k - (digits b n).length) 0 ++ digits b n = fixed b k n := by
  induction k, hk using Nat.le_induction generalizing n with
  | base =>
    rw [Nat.pow_one] at h
    rw [digits_of_lt h, fixed, fixed, Nat.mod_eq_of_lt h]
    rfl
  | succ k hk ih =>
    rcases Nat.lt_or_ge n b with hlt | hge
    · rw [digits_of_lt hlt, fixed, Nat.div_eq_of_lt hlt, Nat.mod_eq_of_lt hlt, fixed_zero]
      rfl
    · have hdiv : n / b < b ^ k := Nat.div_lt_of_lt_mul (by rwa [← Nat.pow_succ'])
      rw [digits_of_le hb hge, List.length_append, List.length_singleton, Nat.add_sub_add_right,
        ← List.append_assoc, ih hdiv, fixed]

/-- **Cutting**: a numeral and its last `k` digits. -/
theorem digits_append_fixed (hb : 1 < b) {k : Nat} (h : b ^ k ≤ n) :
    digits b (n / b ^ k) ++ fixed b k n = digits b n := by
  induction k generalizing n with
  | zero => rw [Nat.pow_zero, Nat.div_one, fixed, List.append_nil]
  | succ k ih =>
    have hpow : 0 < b ^ k := Nat.pow_pos (by omega)
    have hle : b ^ k ≤ n / b := (Nat.le_div_iff_mul_le (by omega)).mpr (by rwa [← Nat.pow_succ])
    have hbase : b ≤ n := Nat.le_trans (Nat.le_mul_of_pos_left b hpow) (by rwa [← Nat.pow_succ])
    rw [fixed, Nat.pow_succ', ← Nat.div_div_eq_div_mul, ← List.append_assoc, ih hle,
      digits_of_le hb hbase]

end BigEndian
