import Mathlib.Data.List.Sort
import Unikernel.Sml.Text

/-!
# The sort service

`sort/main.sml`: a datagram with integers between spaces is answered with the same
integers in order. The sort is a merge sort whose `split` deals the elements out to
two accumulators.

- `split_perm`, `split_lengths`: both halves hold the elements, and are shorter.
- `mergesort_perm`, `mergesort_sorted`: the result is sorted, with the same elements.
- `sort_service`: the callback between the texts.
-/

namespace Unikernel.Sorting

open Sml

/-! ## The program -/

/-- The answer, as it is sent. -/
def intListToString (l : List Int) : Str :=
  let strL := l.map intToText
  let str := concatWith (lit " ") strL
  str

/-- `intList` of `stringToIntList`: it stops at the first token that is no integer. -/
def intList : List Str → Except Exn (Option (List Int))
  | [] => return some []
  | x :: xs => do
    match ← intFromString x with
    | some i =>
      match ← intList xs with
      | some ys => return some (i :: ys)
      | none => return none
    | none => return none

/-- The request: numbers with blanks between them, or nothing if one cannot be read. -/
def stringToIntList (s : Str) : Except Exn (Option (List Int)) :=
  intList (tokens (fun c => decide (c = 32)) s)

def merge : List Int → List Int → List Int
  | [], l => l
  | l, [] => l
  | h1 :: t1, h2 :: t2 =>
    if h1 < h2 then h1 :: merge t1 (h2 :: t2) else h2 :: merge (h1 :: t1) t2
termination_by l l' => l.length + l'.length

/-- The inner `split`, with its accumulators. -/
def splitOnto : List Int → List Int → List Int → List Int × List Int
  | [], xs, ys => (xs, ys)
  | [x], xs, ys => (x :: xs, ys)
  | x :: y :: t, xs, ys => splitOnto t (x :: xs) (y :: ys)

/-- Two lists of the same length, or nearly. -/
def split (l : List Int) : List Int × List Int := splitOnto l [] []

/-- Both halves are shorter than a list of two or more. -/
theorem splitOnto_lengths (l xs ys : List Int) :
    (splitOnto l xs ys).1.length = xs.length + (l.length + 1) / 2 ∧
    (splitOnto l xs ys).2.length = ys.length + l.length / 2 := by
  induction l, xs, ys using splitOnto.induct with
  | case1 xs ys => exact ⟨rfl, rfl⟩
  | case2 x xs ys =>
    rw [splitOnto]
    exact ⟨by simp, by simp⟩
  | case3 x y t xs ys ih =>
    obtain ⟨hxs, hys⟩ := ih
    rw [splitOnto, hxs, hys]
    simp only [List.length_cons]
    omega

/-- The halves have half the length, the first one rounded up. -/
theorem split_lengths (l : List Int) :
    (split l).1.length = (l.length + 1) / 2 ∧ (split l).2.length = l.length / 2 := by
  have h := splitOnto_lengths l [] []
  simpa [split] using h

def mergesort : List Int → List Int
  | [] => []
  | [x] => [x]
  | x :: y :: t =>
    merge (mergesort (split (x :: y :: t)).1) (mergesort (split (x :: y :: t)).2)
termination_by l => l.length
decreasing_by
  · rw [(split_lengths _).1]
    simp only [List.length_cons]
    omega
  · rw [(split_lengths _).2]
    simp only [List.length_cons]
    omega

/-- The function bound to port 8080. -/
def callback (data : Str) : Except Exn Str := do
  match ← stringToIntList data with
  | some n => return intListToString (mergesort n)
  | none => return lit "Invalid input"

/-! ## The sort -/

theorem splitOnto_perm (l xs ys : List Int) :
    ((splitOnto l xs ys).1 ++ (splitOnto l xs ys).2).Perm (l ++ (xs ++ ys)) := by
  induction l, xs, ys using splitOnto.induct with
  | case1 xs ys => exact .refl _
  | case2 x xs ys => exact .refl _
  | case3 x y t xs ys ih =>
    rw [splitOnto]
    refine ih.trans ?_
    have hmid : (t ++ x :: (xs ++ y :: ys)).Perm (x :: (t ++ (xs ++ y :: ys))) :=
      List.perm_middle
    have hlast : (t ++ (xs ++ y :: ys)).Perm (y :: (t ++ (xs ++ ys))) := by
      rw [← List.append_assoc, ← List.append_assoc]
      exact List.perm_middle
    exact hmid.trans (hlast.cons x)

/-- Nothing is lost by splitting, -/
theorem split_perm (l : List Int) : ((split l).1 ++ (split l).2).Perm l := by
  have h := splitOnto_perm l [] []
  rwa [List.append_nil, List.append_nil] at h

/-- by merging, -/
theorem merge_perm (l l' : List Int) : (merge l l').Perm (l ++ l') := by
  induction l, l' using merge.induct with
  | case1 l => rw [merge]; exact .refl _
  | case2 l hne =>
    rw [List.append_nil]
    cases l with
    | nil => exact absurd rfl hne
    | cons x l => rw [merge]; intro h; cases h
  | case3 h1 t1 h2 t2 hlt ih =>
    rw [merge, if_pos hlt]
    exact ih.cons h1
  | case4 h1 t1 h2 t2 hge ih =>
    rw [merge, if_neg hge]
    exact (ih.cons h2).trans List.perm_middle.symm

/-- What is merged from sorted lists is sorted. -/
theorem merge_sorted {l l' : List Int} (hl : l.Pairwise (· ≤ ·)) (hl' : l'.Pairwise (· ≤ ·)) :
    (merge l l').Pairwise (· ≤ ·) := by
  induction l, l' using merge.induct with
  | case1 l => rw [merge]; exact hl'
  | case2 l hne =>
    cases l with
    | nil => exact absurd rfl hne
    | cons x l => rw [merge]; exact hl; intro h; cases h
  | case3 h1 t1 h2 t2 hlt ih =>
    obtain ⟨hhead, htail⟩ := List.pairwise_cons.mp hl
    obtain ⟨hhead', -⟩ := List.pairwise_cons.mp hl'
    rw [merge, if_pos hlt, List.pairwise_cons]
    refine ⟨?_, ih htail hl'⟩
    intro z hz
    rw [(merge_perm t1 (h2 :: t2)).mem_iff, List.mem_append, List.mem_cons] at hz
    rcases hz with hz | rfl | hz
    · exact hhead z hz
    · omega
    · have hle := hhead' z hz
      omega
  | case4 h1 t1 h2 t2 hge ih =>
    obtain ⟨hhead, -⟩ := List.pairwise_cons.mp hl
    obtain ⟨hhead', htail'⟩ := List.pairwise_cons.mp hl'
    rw [merge, if_neg hge, List.pairwise_cons]
    refine ⟨?_, ih hl htail'⟩
    intro z hz
    rw [(merge_perm (h1 :: t1) t2).mem_iff, List.mem_append, List.mem_cons] at hz
    rcases hz with (rfl | hz) | hz
    · omega
    · have hle := hhead z hz
      omega
    · exact hhead' z hz

/-- or by sorting. -/
theorem mergesort_perm (l : List Int) : (mergesort l).Perm l := by
  induction l using mergesort.induct with
  | case1 => rw [mergesort]
  | case2 x => rw [mergesort]
  | case3 x y t ih ih' =>
    rw [mergesort]
    exact (merge_perm _ _).trans ((ih.append ih').trans (split_perm _))

/-- What comes out is sorted. -/
theorem mergesort_sorted (l : List Int) : (mergesort l).Pairwise (· ≤ ·) := by
  induction l using mergesort.induct with
  | case1 => rw [mergesort]; exact .nil
  | case2 x => rw [mergesort]; exact List.pairwise_singleton _ _
  | case3 x y t ih ih' => rw [mergesort]; exact merge_sorted ih ih'

/-- Sorting again changes nothing. -/
theorem mergesort_mergesort (l : List Int) : mergesort (mergesort l) = mergesort l :=
  (mergesort_perm (mergesort l)).eq_of_pairwise' (mergesort_sorted _) (mergesort_sorted _)

/-! ## The service -/

/-- Every number of the list is read back. -/
theorem intList_map {l : List Int} (h : ∀ i ∈ l, minInt ≤ i ∧ i ≤ maxInt) :
    intList (l.map intToText) = .ok (some l) := by
  induction l with
  | nil => rfl
  | cons i l ih =>
    obtain ⟨hmin, hmax⟩ := h i List.mem_cons_self
    rw [List.map_cons, intList, intFromString_intToText hmin hmax,
      ih fun j hj => h j (List.mem_cons_of_mem _ hj)]
    rfl

/-- A list of integers is read as it was written. -/
theorem stringToIntList_intListToString {l : List Int} (h : ∀ i ∈ l, minInt ≤ i ∧ i ≤ maxInt) :
    stringToIntList (intListToString l) = .ok (some l) := by
  have htok : ∀ s ∈ l.map intToText, IsToken (fun c => decide (c = 32)) s := by
    intro s hs
    obtain ⟨i, -, rfl⟩ := List.mem_map.mp hs
    exact isToken_intToText i
  rw [stringToIntList, intListToString]
  show intList (tokens _ (concatWith [32] (l.map intToText))) = _
  rw [tokens_concatWith (by decide) htok, intList_map h]

/-- A request that is a printed list. -/
theorem callback_intListToString {l : List Int} (h : ∀ i ∈ l, minInt ≤ i ∧ i ≤ maxInt) :
    callback (intListToString l) = .ok (intListToString (mergesort l)) := by
  rw [callback, stringToIntList_intListToString h]
  rfl

/-- **The sort service**: the text of any integers is answered with the text of the
same integers in order, and that answer with itself. -/
theorem sort_service {l : List Int} (h : ∀ i ∈ l, minInt ≤ i ∧ i ≤ maxInt) :
    ∃ l' : List Int, callback (intListToString l) = .ok (intListToString l') ∧
      l'.Perm l ∧ l'.Pairwise (· ≤ ·) ∧
      callback (intListToString l') = .ok (intListToString l') := by
  have hsorted : ∀ i ∈ mergesort l, minInt ≤ i ∧ i ≤ maxInt :=
    fun i hi => h i ((mergesort_perm l).mem_iff.mp hi)
  refine ⟨mergesort l, callback_intListToString h, mergesort_perm l, mergesort_sorted l, ?_⟩
  rw [callback_intListToString hsorted, mergesort_mergesort]

/-- Negative integers, the smallest and largest one, and a repeated one. -/
theorem sort_service_sample :
    ∃ l' : List Int,
      callback (intListToString [3, -1, minInt, 3, maxInt]) = .ok (intListToString l') ∧
      l'.Perm [3, -1, minInt, 3, maxInt] ∧ l'.Pairwise (· ≤ ·) ∧
      callback (intListToString l') = .ok (intListToString l') :=
  sort_service (by decide)

end Unikernel.Sorting
