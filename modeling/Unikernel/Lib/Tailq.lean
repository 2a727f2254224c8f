import Unikernel.Lib.Extent

/-!
# Tail queues

Doubly linked lists with a head of two words: the first element, and the address of the
last link. An element keeps its entry at the offset `off`: the next element, and the address
of the link that leads to the element.

- `Tailq off m h l`: the memory `m` holds the elements `l` in the queue with the head `h`.
- `Tailq.congr`: only the words of the head and of the entries matter.
- `Tailq.move`: what is behind a link is hung on another one.
- `Tailq.insertHead_spec`, `Tailq.remove_spec`: what the operations do.
-/

namespace Tailq

/-- The words of a head. -/
abbrev first (h : Nat) : Nat := h
abbrev last (h : Nat) : Nat := h + 8

/-- The words of an entry. -/
abbrev next (off e : Nat) : Nat := e + off
abbrev prev (off e : Nat) : Nat := e + off + 8

variable (off : Nat)

/-- The element `x`, or the end of the queue, is behind the link `src` from now on. -/
def setBack (m : Mem) (h x src : Nat) : Mem :=
  if x ≠ 0 then Function.update m (prev off x) src else Function.update m (last h) src

def insertHead (m : Mem) (h e : Nat) : Mem :=
  let m := Function.update m (next off e) (m (first h))
  let m := setBack off m h (m (next off e)) (next off e)
  let m := Function.update m (first h) e
  Function.update m (prev off e) (first h)

def remove (m : Mem) (h e : Nat) : Mem :=
  let m := setBack off m h (m (next off e)) (m (prev off e))
  Function.update m (m (prev off e)) (m (next off e))

/-- From the link at `src` through the elements `l` to the link at `dst`, which is left open. -/
def Chain (m : Mem) : Nat → List Nat → Nat → Prop
  | src, [], dst => dst = src
  | src, e :: l, dst =>
    m src = e ∧ e ≠ 0 ∧ m (prev off e) = src ∧ Chain m (next off e) l dst

/-- From the link at `src` through the elements `l` to the end of the queue. -/
structure Rest (m : Mem) (h src : Nat) (l : List Nat) : Prop where
  chain : Chain off m src l (m (last h))
  closed : m (m (last h)) = 0

end Tailq

/-- The memory holds the queue. -/
def Tailq (off : Nat) (m : Mem) (h : Nat) (l : List Nat) : Prop :=
  Tailq.Rest off m h (Tailq.first h) l

namespace Tailq

/-- The words of the head and of the entries are different words. -/
structure Apart (off h : Nat) (l : List Nat) : Prop where
  nodup : l.Nodup
  entry : ∀ x ∈ l, ∀ y ∈ l, x ≠ y + 8
  head : ∀ x ∈ l, ∀ k ∈ [0, 8], ∀ j ∈ [0, 8], x + off + k ≠ h + j

/-- The words of the head and of the entries. -/
def Word (off h : Nat) (l : List Nat) (a : Nat) : Prop :=
  a = first h ∨ a = last h ∨ ∃ x ∈ l, a = next off x ∨ a = prev off x

variable {off h e x src src' dst a : Nat} {m m' : Mem} {l l' : List Nat}

section Words

/-- The order of the elements does not matter. -/
theorem Apart.perm (hap : Apart off h l) (hp : l.Perm l') : Apart off h l' :=
  ⟨hp.nodup hap.nodup, fun x hx y hy => hap.entry x (hp.mem_iff.mpr hx) y (hp.mem_iff.mpr hy),
    fun x hx => hap.head x (hp.mem_iff.mpr hx)⟩

/-- Nor do elements that are not in the queue. -/
theorem Apart.sublist (hap : Apart off h l) (hs : l'.Sublist l) : Apart off h l' :=
  ⟨hap.nodup.sublist hs, fun x hx y hy => hap.entry x (hs.subset hx) y (hs.subset hy),
    fun x hx => hap.head x (hs.subset hx)⟩

/-- The head's first word is in no entry. -/
theorem Apart.first_ne (hap : Apart off h l) (hx : x ∈ l) :
    first h ≠ next off x ∧ first h ≠ prev off x :=
  ⟨(hap.head x hx 0 (by decide) 0 (by decide)).symm,
    (hap.head x hx 8 (by decide) 0 (by decide)).symm⟩

/-- The head's second word is in no entry. -/
theorem Apart.last_ne (hap : Apart off h l) (hx : x ∈ l) :
    last h ≠ next off x ∧ last h ≠ prev off x :=
  ⟨(hap.head x hx 0 (by decide) 8 (by decide)).symm,
    (hap.head x hx 8 (by decide) 8 (by decide)).symm⟩

/-- A link is not a back link, of whichever element. -/
theorem Apart.next_ne_prev (hap : Apart off h l) (hx : x ∈ l) (he : e ∈ l) :
    next off x ≠ prev off e := by
  have hentry := hap.entry x hx e he
  show x + off ≠ e + off + 8
  omega

theorem next_inj (hne : x ≠ e) : next off x ≠ next off e := by
  show x + off ≠ e + off
  omega

theorem prev_inj (hne : x ≠ e) : prev off x ≠ prev off e := by
  show x + off + 8 ≠ e + off + 8
  omega

theorem first_ne_last : first h ≠ last h := by
  show h ≠ h + 8
  omega

theorem word_first : Word off h l (first h) := Or.inl rfl

theorem word_last : Word off h l (last h) := Or.inr (Or.inl rfl)

theorem word_next (hx : x ∈ l) : Word off h l (next off x) := Or.inr (Or.inr ⟨x, hx, Or.inl rfl⟩)

theorem word_prev (hx : x ∈ l) : Word off h l (prev off x) := Or.inr (Or.inr ⟨x, hx, Or.inr rfl⟩)

end Words

/-! ## Chains

What lies between two links, without the head. The open link at the end is the one that the rest of
the queue hangs on, so that a chain followed by a chain is a chain. -/

namespace Chain

/-- A chain can be cut between any two elements. -/
theorem append_iff :
    Chain off m src (l ++ l') dst ↔ ∃ mid, Chain off m src l mid ∧ Chain off m mid l' dst := by
  induction l generalizing src with
  | nil =>
    constructor
    · intro hc
      exact ⟨src, rfl, hc⟩
    · rintro ⟨mid, rfl, hc⟩
      exact hc
  | cons e l ih =>
    simp only [List.cons_append, Chain, ih]
    constructor
    · rintro ⟨h1, h2, h3, mid, hc, hc'⟩
      exact ⟨mid, ⟨h1, h2, h3, hc⟩, hc'⟩
    · rintro ⟨mid, ⟨h1, h2, h3, hc⟩, hc'⟩
      exact ⟨h1, h2, h3, mid, hc, hc'⟩

/-- The open link is the first one, or that of an element. -/
theorem dst_cases (hc : Chain off m src l dst) : dst = src ∨ ∃ x ∈ l, dst = next off x := by
  induction l generalizing src with
  | nil => exact Or.inl hc
  | cons e l ih =>
    refine Or.inr ?_
    rcases ih hc.2.2.2 with heq | ⟨x, hx, heq⟩
    · exact ⟨e, List.mem_cons_self, heq⟩
    · exact ⟨x, List.mem_cons_of_mem _ hx, heq⟩

/-- Only the links matter, and not the open one. -/
theorem congr (hc : Chain off m src l dst)
    (hm : ∀ a, a ≠ dst → (a = src ∨ ∃ x ∈ l, a = next off x ∨ a = prev off x) → m' a = m a)
    (hl : l.Nodup) (hentry : ∀ x ∈ l, ∀ y ∈ l, x ≠ y + 8)
    (hsrc : ∀ x ∈ l, src ≠ next off x) : Chain off m' src l dst := by
  induction l generalizing src with
  | nil => exact hc
  | cons e l ih =>
    obtain ⟨hnode, hne, hprev, hrest⟩ := hc
    obtain ⟨hnotin, hl⟩ := List.nodup_cons.mp hl
    have hdst : src ≠ dst ∧ prev off e ≠ dst := by
      rcases hrest.dst_cases with rfl | ⟨x, hx, rfl⟩
      · exact ⟨hsrc e List.mem_cons_self, by show e + off + 8 ≠ e + off; omega⟩
      · refine ⟨hsrc x (List.mem_cons_of_mem _ hx), ?_⟩
        have hapart := hentry x (List.mem_cons_of_mem _ hx) e List.mem_cons_self
        show e + off + 8 ≠ x + off
        omega
    refine ⟨?_, hne, ?_, ?_⟩
    · rw [hm src hdst.1 (Or.inl rfl), hnode]
    · rw [hm _ hdst.2 (Or.inr ⟨e, List.mem_cons_self, Or.inr rfl⟩), hprev]
    · refine ih hrest ?_ hl (fun x hx y hy => hentry x (List.mem_cons_of_mem _ hx) y
        (List.mem_cons_of_mem _ hy)) ?_
      · rintro a ha (rfl | ⟨x, hx, hax⟩)
        · exact hm _ ha (Or.inr ⟨e, List.mem_cons_self, Or.inl rfl⟩)
        · exact hm a ha (Or.inr ⟨x, List.mem_cons_of_mem _ hx, hax⟩)
      · intro x hx
        exact next_inj fun heq => hnotin (heq ▸ hx)

/-- The same chain in a memory that has the same links, the open one included. -/
theorem agree (hc : Chain off m src l dst) (hsrc : m' src = m src)
    (hnext : ∀ x ∈ l, m' (next off x) = m (next off x))
    (hprev : ∀ x ∈ l, m' (prev off x) = m (prev off x)) : Chain off m' src l dst := by
  induction l generalizing src with
  | nil => exact hc
  | cons e l ih =>
    obtain ⟨hnode, hne, hback, hrest⟩ := hc
    refine ⟨hsrc.trans hnode, hne, (hprev e List.mem_cons_self).trans hback, ?_⟩
    exact ih hrest (hnext e List.mem_cons_self) (fun x hx => hnext x (List.mem_cons_of_mem _ hx))
      fun x hx => hprev x (List.mem_cons_of_mem _ hx)

end Chain

/-- **What is behind the link `src` is hung on the link `src'`.** -/
theorem move (hr : Rest off m h src l) (hhead : m' src' = l.headD 0)
    (hback : m' (if l.headD 0 ≠ 0 then prev off (l.headD 0) else last h) = src')
    (hlast : l ≠ [] → m' (last h) = m (last h))
    (hnext : ∀ x ∈ l, m' (next off x) = m (next off x))
    (hprev : ∀ x ∈ l.tail, m' (prev off x) = m (prev off x)) : Rest off m' h src' l := by
  cases l with
  | nil =>
    have hend : m' (last h) = src' := hback
    exact ⟨hend, by rw [hend]; exact hhead⟩
  | cons x l =>
    obtain ⟨⟨-, hne, -, hrest⟩, hclosed⟩ := hr
    have hback : m' (prev off x) = src' := by rwa [List.headD_cons, if_pos hne] at hback
    have hlast := hlast (List.cons_ne_nil x l)
    refine ⟨⟨hhead, hne, hback, ?_⟩, ?_⟩
    · rw [hlast]
      exact hrest.agree (hnext x List.mem_cons_self)
        (fun y hy => hnext y (List.mem_cons_of_mem _ hy)) hprev
    · rw [hlast, ← hclosed]
      rcases hrest.dst_cases with heq | ⟨y, hy, heq⟩
      · rw [heq]
        exact hnext x List.mem_cons_self
      · rw [heq]
        exact hnext y (List.mem_cons_of_mem _ hy)

/-! ## What a queue says about its words

The words of a queue are read through its elements: the first word leads to the first of them, and
each link to the one behind it. -/

/-- Only the words of the head and of the entries matter. -/
theorem congr (hq : Tailq off m h l) (hm : ∀ a, Word off h l a → m' a = m a) :
    Tailq off m' h l := by
  have hlast : m' (last h) = m (last h) := hm _ word_last
  refine ⟨?_, ?_⟩
  · rw [hlast]
    exact hq.chain.agree (hm _ word_first) (fun x hx => hm _ (word_next hx))
      fun x hx => hm _ (word_prev hx)
  · rw [hlast, ← hq.closed]
    rcases hq.chain.dst_cases with heq | ⟨x, hx, heq⟩
    · rw [heq]
      exact hm _ word_first
    · rw [heq]
      exact hm _ (word_next hx)

/-- An empty queue: the last link is the head's first word. -/
theorem nil_iff : Tailq off m h [] ↔ m (last h) = first h ∧ m (first h) = 0 := by
  constructor
  · rintro ⟨hc, h0⟩
    have hlast : m (last h) = first h := hc
    rw [hlast] at h0
    exact ⟨hlast, h0⟩
  · rintro ⟨hlast, h0⟩
    exact ⟨hlast, by rw [hlast, h0]⟩

/-- What the link leads to. -/
theorem Rest.head_eq (hr : Rest off m h src l) : m src = l.headD 0 := by
  cases l with
  | nil =>
    have hlast : m (last h) = src := hr.chain
    rw [← hlast]
    exact hr.closed
  | cons e l => exact hr.chain.1

/-- The first element, or `0`. -/
theorem first_eq (hq : Tailq off m h l) : m (first h) = l.headD 0 := Rest.head_eq hq

/-- Around an element. -/
theorem split (hq : Tailq off m h (l ++ e :: l')) :
    e ≠ 0 ∧ Chain off m (first h) l (m (prev off e)) ∧ m (m (prev off e)) = e ∧
      Rest off m h (next off e) l' := by
  obtain ⟨src, hl, hnode, hne, rfl, hrest⟩ := Chain.append_iff.mp hq.chain
  exact ⟨hne, hl, hnode, hrest, hq.closed⟩

/-- The element behind another one, or `0`. -/
theorem next_eq (hq : Tailq off m h (l ++ e :: l')) : m (next off e) = l'.headD 0 :=
  (split hq).2.2.2.head_eq

/-- The end of a queue is no element. -/
theorem ne_zero (hq : Tailq off m h l) (he : e ∈ l) : e ≠ 0 := by
  obtain ⟨l₁, l₂, rfl⟩ := List.append_of_mem he
  exact (split hq).1

/-- What is first is in the queue, unless it is the end. -/
theorem headD_mem (hne : l.headD 0 ≠ 0) : l.headD 0 ∈ l := by
  cases l with
  | nil => exact absurd rfl hne
  | cons x l => exact List.mem_cons_self

/-! ## Operations

Both operations write a back link first and a forward link last. Their effect is found by hanging
the part behind the element on another link, and leaving the part before it as it is. -/

/-- The word it writes, -/
theorem setBack_self (m : Mem) (h x src : Nat) :
    setBack off m h x src (if x ≠ 0 then prev off x else last h) = src := by
  unfold setBack
  split <;> exact Function.update_self _ _ _

/-- and it writes no other. -/
theorem setBack_other (hlast : x = 0 → a ≠ last h) (hprev : x ≠ 0 → a ≠ prev off x) :
    setBack off m h x src a = m a := by
  unfold setBack
  split
  · rename_i hx
    exact Function.update_of_ne (hprev hx) _ _
  · rename_i hx
    exact Function.update_of_ne (hlast (not_not.mp hx)) _ _

/-- The word that `setBack` writes is neither a link nor the head's first word. -/
theorem Apart.setBack_next (hap : Apart off h l) (hl : l'.Sublist l) (hx : x ∈ l) :
    setBack off m h (l'.headD 0) src (next off x) = m (next off x) :=
  setBack_other (fun _ => (hap.last_ne hx).1.symm)
    fun hne => hap.next_ne_prev hx (hl.subset (headD_mem hne))

/-- The four stores, with what the second of them reads. -/
theorem insertHead_eq :
    insertHead off m h e = Function.update (Function.update
      (setBack off (Function.update m (next off e) (m (first h))) h (m (first h)) (next off e))
      (first h) e) (prev off e) (first h) := by
  simp only [insertHead, Function.update_self]

/-- An insertion writes words of the queue only. -/
theorem insertHead_other (hq : Tailq off m h l) (ha : ¬ Word off h (e :: l) a) :
    insertHead off m h e a = m a := by
  have hword : ∀ b, Word off h (e :: l) b → a ≠ b := by
    rintro b hb rfl
    exact ha hb
  rw [insertHead_eq,
    Function.update_of_ne (hword _ (word_prev List.mem_cons_self)),
    Function.update_of_ne (hword _ word_first), first_eq hq,
    setBack_other (fun _ => hword _ word_last)
      (fun hne => hword _ (word_prev (List.mem_cons_of_mem _ (headD_mem hne)))),
    Function.update_of_ne (hword _ (word_next List.mem_cons_self))]

/-- **Insertion at the head.** -/
theorem insertHead_spec (hq : Tailq off m h l) (hap : Apart off h (e :: l)) (he : e ≠ 0) :
    Tailq off (insertHead off m h e) h (e :: l) := by
  obtain ⟨hfn, hfp⟩ := hap.first_ne List.mem_cons_self
  obtain ⟨hln, hlp⟩ := hap.last_ne List.mem_cons_self
  have hnp : next off e ≠ prev off e := hap.next_ne_prev List.mem_cons_self List.mem_cons_self
  have hnotin := (List.nodup_cons.mp hap.nodup).1
  have hne : ∀ x ∈ l, x ≠ e := fun x hx heq => hnotin (heq ▸ hx)
  have hx := first_eq hq
  rw [insertHead_eq, hx]
  -- the elements that were there hang on the entry of the new one
  have hrest : Rest off (Function.update (Function.update (setBack off (Function.update m
      (next off e) (l.headD 0)) h (l.headD 0) (next off e)) (first h) e) (prev off e) (first h)) h
      (next off e) l := by
    refine move hq ?_ ?_ ?_ ?_ ?_
    · rw [Function.update_of_ne hnp, Function.update_of_ne hfn.symm,
        hap.setBack_next (List.sublist_cons_self _ _) List.mem_cons_self, Function.update_self]
    · -- their back link is written before, and by no later store
      have hback : ∀ w, (w = if l.headD 0 ≠ 0 then prev off (l.headD 0) else last h) →
          w ≠ prev off e ∧ w ≠ first h := by
        rintro w rfl
        split
        · rename_i hzero
          have hmem := headD_mem hzero
          exact ⟨prev_inj (hne _ hmem), (hap.first_ne (List.mem_cons_of_mem _ hmem)).2.symm⟩
        · exact ⟨hlp, first_ne_last.symm⟩
      obtain ⟨h1, h2⟩ := hback _ rfl
      rw [Function.update_of_ne h1, Function.update_of_ne h2, setBack_self]
    · intro hl
      have hzero : l.headD 0 ≠ 0 := by
        obtain ⟨x, l', rfl⟩ := List.exists_cons_of_ne_nil hl
        exact ne_zero hq List.mem_cons_self
      rw [Function.update_of_ne hlp, Function.update_of_ne first_ne_last.symm,
        setBack_other (fun h0 => absurd h0 hzero)
          (fun _ => (hap.last_ne (List.mem_cons_of_mem _ (headD_mem hzero))).2),
        Function.update_of_ne hln]
    · intro x hx
      have hx' := List.mem_cons_of_mem e hx
      rw [Function.update_of_ne (hap.next_ne_prev hx' List.mem_cons_self),
        Function.update_of_ne (hap.first_ne hx').1.symm,
        hap.setBack_next (List.sublist_cons_self _ _) hx',
        Function.update_of_ne (next_inj (hne x hx))]
    · intro x hx
      have hxl := List.mem_of_mem_tail hx
      have hx' := List.mem_cons_of_mem e hxl
      have hhead : l.headD 0 ≠ 0 → prev off x ≠ prev off (l.headD 0) := by
        intro _
        cases l with
        | nil => cases hx
        | cons y l =>
          have hnodup := List.nodup_cons.mp (List.nodup_cons.mp hap.nodup).2
          refine prev_inj ?_
          rintro rfl
          exact hnodup.1 hx
      rw [Function.update_of_ne (prev_inj (hne x hxl)),
        Function.update_of_ne (hap.first_ne hx').2.symm,
        setBack_other (fun _ => (hap.last_ne hx').2.symm) hhead,
        Function.update_of_ne (hap.next_ne_prev List.mem_cons_self hx').symm]
  refine ⟨⟨?_, he, ?_, hrest.chain⟩, hrest.closed⟩
  · rw [Function.update_of_ne hfp, Function.update_self]
  · rw [Function.update_self]

/-- The word of the open link is neither a back link nor the head's second word. -/
theorem Chain.dst_ne (hc : Chain off m (first h) l dst) (hap : Apart off h l')
    (hl : ∀ x ∈ l, x ∈ l') :
    dst ≠ last h ∧ ∀ x ∈ l', dst ≠ prev off x := by
  rcases hc.dst_cases with rfl | ⟨y, hy, rfl⟩
  · exact ⟨first_ne_last, fun x hx => (hap.first_ne hx).2⟩
  · exact ⟨(hap.last_ne (hl y hy)).1.symm, fun x hx => hap.next_ne_prev (hl y hy) hx⟩

/-- The two stores, with what they read before the first of them. -/
theorem remove_eq (hq : Tailq off m h (l ++ e :: l')) (hap : Apart off h (l ++ e :: l')) :
    remove off m h e = Function.update (setBack off m h (l'.headD 0) (m (prev off e)))
      (m (prev off e)) (l'.headD 0) := by
  have he : e ∈ l ++ e :: l' := List.mem_append_right _ List.mem_cons_self
  have hsub : l'.Sublist (l ++ e :: l') :=
    (List.sublist_cons_self _ _).trans (List.sublist_append_right _ _)
  have hnotin : e ∉ l' := (List.nodup_cons.mp (List.nodup_append.mp hap.nodup).2.1).1
  have hprev : setBack off m h (l'.headD 0) (m (prev off e)) (prev off e) = m (prev off e) :=
    setBack_other (fun _ => (hap.last_ne he).2.symm)
      fun hne => prev_inj fun heq => hnotin (heq ▸ headD_mem hne)
  simp only [remove, next_eq hq, hprev, hap.setBack_next hsub he]

/-- A removal writes words of the queue that remains. -/
theorem remove_other (hq : Tailq off m h (l ++ e :: l')) (hap : Apart off h (l ++ e :: l'))
    (ha : ¬ Word off h (l ++ l') a) : remove off m h e a = m a := by
  have hword : ∀ b, Word off h (l ++ l') b → a ≠ b := by
    rintro b hb rfl
    exact ha hb
  have hsrc : Word off h (l ++ l') (m (prev off e)) := by
    rcases (split hq).2.1.dst_cases with heq | ⟨y, hy, heq⟩
    · rw [heq]
      exact word_first
    · rw [heq]
      exact word_next (List.mem_append_left _ hy)
  rw [remove_eq hq hap, Function.update_of_ne (hword _ hsrc)]
  exact setBack_other (fun _ => hword _ word_last)
    fun hne => hword _ (word_prev (List.mem_append_right _ (headD_mem hne)))

/-- **Removal** of an element from anywhere in the queue. -/
theorem remove_spec (hq : Tailq off m h (l ++ e :: l')) (hap : Apart off h (l ++ e :: l')) :
    Tailq off (remove off m h e) h (l ++ l') := by
  obtain ⟨-, hl, -, hrest⟩ := split hq
  have hmem : ∀ x ∈ l, x ∈ l ++ e :: l' := fun x hx => List.mem_append_left _ hx
  have hmem' : ∀ x ∈ l', x ∈ l ++ e :: l' := fun x hx =>
    List.mem_append_right _ (List.mem_cons_of_mem _ hx)
  have hsub : l'.Sublist (l ++ e :: l') :=
    (List.sublist_cons_self _ _).trans (List.sublist_append_right _ _)
  obtain ⟨hnodup, hnodup', hcross⟩ := List.nodup_append.mp hap.nodup
  obtain ⟨hdlast, hdprev⟩ := hl.dst_ne hap hmem
  have hcases := hl.dst_cases
  rw [remove_eq hq hap]
  generalize m (prev off e) = src at *
  -- what is behind the element hangs on the link that led to it
  have hmoved : Rest off (Function.update (setBack off m h (l'.headD 0) src) src (l'.headD 0)) h
      src l' := by
    refine move hrest (Function.update_self _ _ _) ?_ ?_ ?_ ?_
    · have hback : (if l'.headD 0 ≠ 0 then prev off (l'.headD 0) else last h) ≠ src := by
        split
        · rename_i hne
          exact (hdprev _ (hmem' _ (headD_mem hne))).symm
        · exact hdlast.symm
      rw [Function.update_of_ne hback, setBack_self]
    · intro hne
      have hzero : l'.headD 0 ≠ 0 := by
        obtain ⟨x, l'', rfl⟩ := List.exists_cons_of_ne_nil hne
        exact ne_zero hq (hmem' x List.mem_cons_self)
      rw [Function.update_of_ne hdlast.symm]
      exact setBack_other (fun h0 => absurd h0 hzero)
        fun _ => (hap.last_ne (hmem' _ (headD_mem hzero))).2
    · intro x hx
      have hne : next off x ≠ src := by
        rcases hcases with rfl | ⟨y, hy, rfl⟩
        · exact (hap.first_ne (hmem' x hx)).1.symm
        · exact next_inj fun heq => hcross y hy x (List.mem_cons_of_mem _ hx) heq.symm
      rw [Function.update_of_ne hne]
      exact hap.setBack_next hsub (hmem' x hx)
    · intro x hx
      have hx' := List.mem_of_mem_tail hx
      rw [Function.update_of_ne (hdprev x (hmem' x hx')).symm]
      refine setBack_other (fun _ => (hap.last_ne (hmem' x hx')).2.symm) ?_
      intro _
      cases l' with
      | nil => cases hx
      | cons y l' =>
        refine prev_inj ?_
        rintro rfl
        exact (List.nodup_cons.mp (List.nodup_cons.mp hnodup').2).1 hx
  -- and what is before it is as it was
  have hkept : Chain off (Function.update (setBack off m h (l'.headD 0) src) src (l'.headD 0))
      (first h) l src := by
    refine hl.congr ?_ hnodup (fun x hx y hy => hap.entry x (hmem x hx) y (hmem y hy))
      fun x hx => (hap.first_ne (hmem x hx)).1
    intro a hne ha
    rw [Function.update_of_ne hne]
    rcases ha with rfl | ⟨x, hx, rfl | rfl⟩
    · exact setBack_other (fun _ => first_ne_last)
        fun hne => (hap.first_ne (hmem' _ (headD_mem hne))).2
    · exact hap.setBack_next hsub (hmem x hx)
    · exact setBack_other (fun _ => (hap.last_ne (hmem x hx)).2.symm) fun hne =>
        prev_inj (hcross x hx _ (List.mem_cons_of_mem _ (headD_mem hne)))
  exact ⟨Chain.append_iff.mpr ⟨src, hkept, hmoved.chain⟩, hmoved.closed⟩

end Tailq
