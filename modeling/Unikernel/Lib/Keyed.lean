import Mathlib.Data.List.Basic
import Mathlib.Data.List.Nodup
import Mathlib.Data.List.TakeWhile

/-!
# Association lists with assignment and cut-off

Association lists whose first entry for a key counts, read with `List.lookup`.
Besides pushing an entry they support

- `assign k v l`: replace the value of the first entry for `k`;
- `fromKey k l`: cut off `front k l`, the entries in front of that one;
- `others k l`: the entries of all other keys.

Assigning never touches other keys. Cutting off keeps the entry for `k` and
loses exactly the keys in front of it (`lookup_fromKey`, `lookup_fromKey_of_front`).
-/

namespace Keyed

universe u v

variable {κ : Type u} {β : Type v}

/-- The keys in the order of the entries. -/
def keys (l : List (κ × β)) : List κ := l.map Prod.fst

@[simp] theorem keys_nil : keys ([] : List (κ × β)) = [] := rfl

@[simp] theorem keys_cons (e : κ × β) (l : List (κ × β)) : keys (e :: l) = e.1 :: keys l := rfl

@[simp] theorem keys_append (l m : List (κ × β)) : keys (l ++ m) = keys l ++ keys m :=
  List.map_append

variable [DecidableEq κ]

/-- Give the first entry for `k` the value `v`. -/
def assign (k : κ) (v : β) : List (κ × β) → List (κ × β)
  | [] => []
  | e :: l => if e.1 = k then (e.1, v) :: l else e :: assign k v l

/-- The entries in front of the first one for `k`. -/
def front (k : κ) (l : List (κ × β)) : List (κ × β) :=
  l.takeWhile fun e => decide (e.1 ≠ k)

/-- The list from the first entry for `k` on. -/
def fromKey (k : κ) (l : List (κ × β)) : List (κ × β) :=
  l.dropWhile fun e => decide (e.1 ≠ k)

/-- The entries of the other keys. -/
def others (k : κ) (l : List (κ × β)) : List (κ × β) :=
  l.filter fun e => decide (e.1 ≠ k)

/-- The two parts make up the list. -/
theorem front_append_fromKey (k : κ) (l : List (κ × β)) : front k l ++ fromKey k l = l :=
  List.takeWhile_append_dropWhile

theorem lookup_cons_eq (j k : κ) (v : β) (l : List (κ × β)) :
    List.lookup j ((k, v) :: l) = if j = k then some v else List.lookup j l := by
  rw [List.lookup_cons]
  by_cases h : j = k
  · simp [h]
  · rw [if_neg h, beq_eq_false_iff_ne.mpr h]

/-- Nothing is found when the key is not there. -/
theorem lookup_eq_none {k : κ} {l : List (κ × β)} : List.lookup k l = none ↔ k ∉ keys l := by
  induction l with
  | nil => simp
  | cons e l ih =>
    obtain ⟨j, v⟩ := e
    rw [lookup_cons_eq]
    by_cases h : k = j
    · simp [h]
    · simp [h, ih]

theorem mem_keys_of_lookup {k : κ} {l : List (κ × β)} {v : β}
    (h : List.lookup k l = some v) : k ∈ keys l := by
  by_contra hk
  rw [lookup_eq_none.mpr hk] at h
  cases h

/-! ## Assigning -/

/-- An assignment changes no key, -/
@[simp] theorem keys_assign (k : κ) (v : β) (l : List (κ × β)) : keys (assign k v l) = keys l := by
  induction l with
  | nil => rfl
  | cons e l ih =>
    rw [assign]
    split
    · rfl
    · rw [keys_cons, keys_cons, ih]

/-- the value of one key, -/
theorem lookup_assign_self {k : κ} {v : β} {l : List (κ × β)} (h : k ∈ keys l) :
    List.lookup k (assign k v l) = some v := by
  induction l with
  | nil => simp at h
  | cons e l ih =>
    obtain ⟨j, w⟩ := e
    rw [assign]
    split
    · next hj =>
      subst hj
      simp
    · next hj =>
      rw [lookup_cons_eq, if_neg (fun hk => hj hk.symm)]
      exact ih ((List.mem_cons.mp h).resolve_left fun hk => hj hk.symm)

/-- and that of no other. -/
theorem lookup_assign_other {j k : κ} (v : β) (l : List (κ × β)) (h : j ≠ k) :
    List.lookup j (assign k v l) = List.lookup j l := by
  induction l with
  | nil => rfl
  | cons e l ih =>
    obtain ⟨i, w⟩ := e
    rw [assign]
    split
    · next hi =>
      subst hi
      rw [lookup_cons_eq, lookup_cons_eq, if_neg h, if_neg h]
    · rw [lookup_cons_eq, lookup_cons_eq, ih]

/-- It does not move the entries either. -/
theorem keys_front_assign (j k : κ) (v : β) (l : List (κ × β)) :
    keys (front j (assign k v l)) = keys (front j l) := by
  induction l with
  | nil => rfl
  | cons e l ih =>
    rw [assign]
    split
    · by_cases h : e.1 = j <;> simp [front, h]
    · by_cases h : e.1 = j
      · simp [front, h]
      · simp only [front, List.takeWhile_cons, decide_not, h, decide_false, Bool.not_false,
          if_true, keys_cons, List.cons.injEq, true_and] at ih ⊢
        exact ih

@[simp] theorem others_cons_self (k : κ) (v : β) (l : List (κ × β)) :
    others k ((k, v) :: l) = others k l := by
  simp [others]

/-- The other entries are the same ones. -/
@[simp] theorem others_assign (k : κ) (v : β) (l : List (κ × β)) :
    others k (assign k v l) = others k l := by
  induction l with
  | nil => rfl
  | cons e l ih =>
    rw [assign]
    split
    · next h => simp [others, h]
    · next h =>
      simp only [others, List.filter_cons, decide_not, h, decide_false, Bool.not_false, if_true,
        List.cons.injEq, true_and] at ih ⊢
      exact ih

/-! ## Cutting off -/

/-- The part before a key does not have it. -/
theorem ne_of_mem_front {j k : κ} {l : List (κ × β)} (h : j ∈ keys (front k l)) : j ≠ k := by
  obtain ⟨e, he, rfl⟩ := List.mem_map.mp h
  have := List.mem_takeWhile_imp he
  simpa using this

/-- The key itself stays. -/
theorem lookup_fromKey_self (k : κ) (l : List (κ × β)) :
    List.lookup k (fromKey k l) = List.lookup k l := by
  have hfront : List.lookup k (front k l) = none :=
    lookup_eq_none.mpr fun h => ne_of_mem_front h rfl
  conv_rhs => rw [← front_append_fromKey k l]
  rw [List.lookup_append, hfront, Option.none_or]

/-- A key that is not in front stays. -/
theorem lookup_fromKey {j k : κ} {l : List (κ × β)} (h : j ∉ keys (front k l)) :
    List.lookup j (fromKey k l) = List.lookup j l := by
  conv_rhs => rw [← front_append_fromKey k l]
  rw [List.lookup_append, lookup_eq_none.mpr h, Option.none_or]

/-- A key in front is lost. -/
theorem lookup_fromKey_of_front {j k : κ} {l : List (κ × β)} (hnd : (keys l).Nodup)
    (h : j ∈ keys (front k l)) : List.lookup j (fromKey k l) = none := by
  rw [← front_append_fromKey k l, keys_append] at hnd
  exact lookup_eq_none.mpr fun h' => (List.disjoint_of_nodup_append hnd) h h'

/-- Cutting off keeps the other entries exactly if there is nothing in front. -/
theorem others_fromKey_iff {k : κ} {l : List (κ × β)} :
    others k (fromKey k l) = others k l ↔ front k l = [] := by
  have hfront : others k (front k l) = front k l := by
    refine List.filter_eq_self.mpr ?_
    intro e he
    simpa using ne_of_mem_front (List.mem_map_of_mem he)
  have hsplit : others k l = front k l ++ others k (fromKey k l) := by
    conv_lhs => rw [← front_append_fromKey k l, others, List.filter_append]
    rw [← others, hfront]
    rfl
  rw [hsplit, List.self_eq_append_left]

/-- Cutting off keeps the order. -/
theorem keys_fromKey_sublist (k : κ) (l : List (κ × β)) :
    (keys (fromKey k l)).Sublist (keys l) :=
  (List.dropWhile_sublist _).map _

@[simp] theorem fromKey_cons_self (k : κ) (v : β) (l : List (κ × β)) :
    fromKey k ((k, v) :: l) = (k, v) :: l := by
  simp [fromKey]

@[simp] theorem front_cons_self (k : κ) (v : β) (l : List (κ × β)) :
    front k ((k, v) :: l) = [] := by
  simp [front]

theorem front_cons_ne {j k : κ} (v : β) (l : List (κ × β)) (h : j ≠ k) :
    front k ((j, v) :: l) = (j, v) :: front k l := by
  simp [front, h]

/-! ## The order of keys

`j ∈ keys (front k l)` says that `j` comes before `k`. -/

/-- Of two keys, one comes first. -/
theorem front_asymm {j k : κ} {l : List (κ × β)} (h : j ∈ keys (front k l)) :
    k ∉ keys (front j l) := by
  induction l with
  | nil => cases h
  | cons e l ih =>
    obtain ⟨i, v⟩ := e
    by_cases hk : i = k
    · subst hk
      rw [front_cons_self] at h
      cases h
    · rw [front_cons_ne v l hk, keys_cons, List.mem_cons] at h
      by_cases hj : i = j
      · subst hj
        rw [front_cons_self]
        exact List.not_mem_nil
      · rw [front_cons_ne v l hj, keys_cons, List.mem_cons]
        rintro (rfl | hk')
        · exact hk rfl
        · exact ih (h.resolve_left fun hji => hj hji.symm) hk'

/-- Cutting off keeps the order of what is left. -/
theorem mem_front_fromKey {i j k : κ} {l : List (κ × β)} (hij : i ∈ keys (front j l))
    (hik : i ∉ keys (front k l)) : i ∈ keys (front j (fromKey k l)) := by
  induction l with
  | nil => cases hij
  | cons e l ih =>
    obtain ⟨m, v⟩ := e
    by_cases hk : m = k
    · subst hk
      rwa [fromKey_cons_self]
    · rw [front_cons_ne v l hk, keys_cons, List.mem_cons, not_or] at hik
      by_cases hj : m = j
      · subst hj
        rw [front_cons_self] at hij
        cases hij
      · rw [front_cons_ne v l hj, keys_cons, List.mem_cons] at hij
        have hcut : fromKey k ((m, v) :: l) = fromKey k l := by
          simp [fromKey, hk]
        rw [hcut]
        exact ih (hij.resolve_left hik.1) hik.2

end Keyed
