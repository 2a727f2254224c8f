import Mathlib.Data.List.Chain
import Mathlib.Data.List.Perm.Lattice
import Unikernel.Xen.Chunks

/-!
# Spans of pages, cut into chunks

A span is what the page allocator has given at once. Its chunks lie one behind the other,
no two free ones are neighbours, and not all of them are free. `Rep … s Xs free`: the heap
`s` holds the spans `Xs`, and `free` is the queue.

- `Tiles`: chunks from one address to another.
- `Laid.apart`, `Laid.spares`: chunks do not meet, and their headers are not the program's.
- `holds`: the data of the chunks are blocks, as a user of the allocator sees them.
-/

namespace Unikernel.Xmalloc

/-- The chunks lie one behind the other from `a` to `b`. -/
def Tiles : Nat → List Chunk → Nat → Prop
  | a, [], b => a = b
  | a, c :: cs, b => c.addr = a ∧ Tiles c.extent.stop cs b

namespace Tiles

variable {a b : Nat} {c d : Chunk} {cs cs' : List Chunk}

/-- A tiling can be cut between any two chunks. -/
theorem append_iff : Tiles a (cs ++ cs') b ↔ ∃ x, Tiles a cs x ∧ Tiles x cs' b := by
  induction cs generalizing a with
  | nil => simp [Tiles]
  | cons c cs ih => simp [Tiles, ih, and_assoc]

/-- A chunk in between. -/
theorem middle_iff :
    Tiles a (cs ++ c :: cs') b ↔ Tiles a cs c.addr ∧ Tiles c.extent.stop cs' b := by
  rw [append_iff]
  constructor
  · rintro ⟨x, hcs, rfl, hrest⟩
    exact ⟨hcs, hrest⟩
  · rintro ⟨hcs, hrest⟩
    exact ⟨c.addr, hcs, rfl, hrest⟩

/-- The bounds are in order. -/
theorem le (h : Tiles a cs b) : a ≤ b := by
  induction cs generalizing a with
  | nil => exact Nat.le_of_eq h
  | cons c cs ih =>
    obtain ⟨rfl, h⟩ := h
    exact Nat.le_trans (Nat.le_add_right _ _) (ih h)

/-- A chunk lies between them. -/
theorem within (h : Tiles a cs b) (hc : c ∈ cs) : a ≤ c.addr ∧ c.extent.stop ≤ b := by
  obtain ⟨l, l', rfl⟩ := List.append_of_mem hc
  obtain ⟨hl, hl'⟩ := middle_iff.mp h
  exact ⟨hl.le, hl'.le⟩

/-- The chunks do not overlap. -/
theorem separated (h : Tiles a cs b) : Separated (cs.map Chunk.extent) := by
  induction cs generalizing a with
  | nil => exact List.Pairwise.nil
  | cons c cs ih =>
    obtain ⟨rfl, h⟩ := h
    refine Separated.cons_iff.mpr ⟨?_, ih h⟩
    intro e he
    obtain ⟨d, hd, rfl⟩ := List.mem_map.mp he
    exact Or.inl (h.within hd).1

/-- A row of extents. -/
theorem row (h : Tiles a cs b) : Row a (cs.map Chunk.extent) b := by
  induction cs generalizing a with
  | nil => exact h
  | cons c cs ih =>
    obtain ⟨rfl, h⟩ := h
    exact ⟨rfl, ih h⟩

/-- The chunk behind a part is the one at its end. -/
theorem addr_of_concat (h : Tiles a (cs ++ [d]) b) : d.extent.stop = b := (middle_iff.mp h).2

end Tiles

/-- What the program has of the chunks. -/
def live (cs : List Chunk) : List Extent := cs.filterMap Chunk.data

/-- `2 ^ order` pages. -/
structure Span where
  base : Nat
  order : Nat
  chunks : List Chunk

namespace Span

/-- The pages of the span. -/
def extent (X : Span) : Extent := ⟨X.base, pageSize * 2 ^ X.order⟩

/-- The chunks fill the span, and the data of each begin in it. -/
structure Cut (X : Span) : Prop where
  tiles : Tiles X.base X.chunks X.extent.stop
  ok : ∀ c ∈ X.chunks, c.Ok ∧ c.addr + 32 < X.extent.stop

structure Ok (X : Span) : Prop extends Cut X where
  merged : X.chunks.IsChain fun c d => c.free = false ∨ d.free = false
  inUse : ∃ c ∈ X.chunks, c.free = false
  single : X.order ≠ 0 → ∃ c, X.chunks = [c]

/-- A chunk lies in the pages. -/
theorem Cut.within {X : Span} (h : X.Cut) {c : Chunk} (hc : c ∈ X.chunks) :
    c.extent.Within X.extent := h.tiles.within hc

end Span

/-- The page allocator has given the spans. -/
structure Laid {π : Type} (out : π → Mem → List Extent → Prop) (s : π) (m : Mem)
    (Xs : List Span) : Prop where
  out : out s m (Xs.map Span.extent)
  cut : ∀ X ∈ Xs, X.Cut

/-- The heap holds the spans. -/
structure Rep {π : Type} (out : π → Mem → List Extent → Prop) (fl : Nat) (s : Heap π)
    (Xs : List Span) (free : List Nat) : Prop where
  out : out s.pager s.mem (Xs.map Span.extent)
  ok : ∀ X ∈ Xs, X.Ok
  books : Books fl s.mem (Xs.flatMap Span.chunks) free

/-- The pages, and the head of the queue. -/
def Arena (arena : Nat → Prop) (fl a : Nat) : Prop := arena a ∨ (headExtent fl).Has a

/-- What a user of the allocator knows: the blocks `l` are out. -/
def Out {π : Type} (out : π → Mem → List Extent → Prop) (fl : Nat) (s : π) (m : Mem)
    (l : List Extent) : Prop :=
  ∃ Xs free, Rep out fl ⟨m, s⟩ Xs free ∧ l.Perm (live (Xs.flatMap Span.chunks))

/-- What the allocator does not write: the words that the program keeps, and those of the page
allocator. -/
def Spared (arena : Nat → Prop) (fl : Nat) (Xs : List Span) (l : List Extent) (a : Nat) : Prop :=
  Malloc.Kept (Arena arena fl) l a ∨ ¬ Malloc.Kept arena (Xs.map Span.extent) a

section Laid

variable {π : Type} {P : Pager π} {arena : Nat → Prop} {out : π → Mem → List Extent → Prop}
  {fl : Nat} {s : π} {m : Mem} {X : Span} {Xs Ys : List Span} {c : Chunk} {l : List Extent}

/-- Where a span lies. -/
theorem Laid.span (h : Laid out s m Xs) (hP : P.Lawful pageSize arena out) (hX : X ∈ Xs) :
    X.base ≠ 0 ∧ 4096 ∣ X.base ∧ X.extent.stop + 4096 ≤ 2 ^ 64 ∧ ∀ a, X.extent.Has a → arena a := by
  obtain ⟨hne, hdvd, hstop, harena⟩ := hP.block _ _ _ h.out _ (List.mem_map_of_mem hX)
  have hdvd : 4096 ∣ X.base := hdvd
  have hstop : X.base + 4096 * 2 ^ X.order < 2 ^ 64 := hstop
  refine ⟨hne, hdvd, ?_, harena⟩
  show X.base + 4096 * 2 ^ X.order + 4096 ≤ 2 ^ 64
  omega

/-- Where a chunk lies. -/
theorem Laid.chunk (h : Laid out s m Xs) (hP : P.Lawful pageSize arena out)
    (hc : c ∈ Xs.flatMap Span.chunks) :
    c.Ok ∧ c.addr ≠ 0 ∧ c.extent.stop + 4096 ≤ 2 ^ 64 ∧ ∀ a, c.extent.Has a → arena a := by
  obtain ⟨X, hX, hc⟩ := List.mem_flatMap.mp hc
  obtain ⟨hbase, -, hlimit, harena⟩ := h.span hP hX
  have hin := (h.cut X hX).within hc
  refine ⟨((h.cut X hX).ok c hc).1, ?_, Nat.le_trans (Nat.add_le_add_right hin.2 _) hlimit,
    fun a ha => harena a (hin.has ha)⟩
  intro hzero
  have hle : X.base ≤ c.addr := hin.1
  exact hbase (Nat.le_zero.mp (hzero ▸ hle))

/-- Chunks of all spans are apart, since the spans are. -/
theorem Laid.apart (h : Laid out s m Xs) (hP : P.Lawful pageSize arena out)
    (hfl : ∀ a, (headExtent fl).Has a → ¬ arena a) : Apart fl (Xs.flatMap Span.chunks) := by
  refine ⟨?_, fun c hc => (h.chunk hP hc).1, ?_⟩
  · rw [List.map_flatMap, Separated, List.pairwise_flatMap]
    refine ⟨fun X hX => (h.cut X hX).tiles.separated, ?_⟩
    refine (List.pairwise_map.mp (hP.separated _ _ _ h.out)).imp_of_mem ?_
    intro X Y hX hY hdisj e he f hf
    obtain ⟨c, hc, rfl⟩ := List.mem_map.mp he
    obtain ⟨d, hd, rfl⟩ := List.mem_map.mp hf
    exact hdisj.within ((h.cut X hX).within hc) ((h.cut Y hY).within hd)
  · intro c hc
    obtain ⟨hok, -, -, harena⟩ := h.chunk hP hc
    have hroom := hok.room
    refine Extent.disjoint_of_forall ?_ (by decide : 0 < 16) fun a ha hhead => hfl a hhead
      (harena a ha)
    show 0 < c.size
    omega

/-! ## Data -/

/-- The data begin behind the header. -/
theorem Chunk.data_eq {c : Chunk} {e : Extent} (he : c.data = some e) :
    ∃ n, c.used = some n ∧ e = ⟨c.addr + 32, n⟩ := by
  obtain ⟨n, hn, rfl⟩ := Option.map_eq_some_iff.mp he
  exact ⟨n, hn, rfl⟩

/-- The data are behind the header, and in the chunk. -/
theorem Chunk.data_within {c : Chunk} (hc : c.Ok) {e : Extent} (he : c.data = some e) :
    e.Within c.extent ∧ c.head.Disjoint e := by
  obtain ⟨n, hn, rfl⟩ := Chunk.data_eq he
  have hroom := hc.room
  rw [hn, Option.getD_some] at hroom
  refine ⟨⟨Nat.le_add_right _ _, ?_⟩, Or.inl (Nat.le_refl _)⟩
  show c.addr + 32 + n ≤ c.addr + c.size
  omega

/-- Whose data they are. -/
theorem mem_live {cs : List Chunk} {e : Extent} (he : e ∈ live cs) :
    ∃ c ∈ cs, c.data = some e := List.mem_filterMap.mp he

/-- The words of the headers, of the free chunks and of the queue are not spared. -/
theorem Laid.spares (h : Laid out s m Xs) (hP : P.Lawful pageSize arena out)
    (hfl : ∀ a, (headExtent fl).Has a → ¬ arena a)
    (hl : ∀ e ∈ l, e ∈ live (Xs.flatMap Span.chunks)) :
    Spares (Spared arena fl Xs l) fl (Xs.flatMap Span.chunks) := by
  have hap := h.apart hP hfl
  -- a word of the queue or of a chunk, that is in no block
  have hnot : ∀ a, (headExtent fl).Has a ∨ (∃ c ∈ Xs.flatMap Span.chunks, c.extent.Has a) →
      (∀ c ∈ Xs.flatMap Span.chunks, ∀ e, c.data = some e → ¬ e.Has a) →
      ¬ Spared arena fl Xs l a := by
    rintro a ha hdata ((hout | ⟨e, he, hea⟩) | hpager)
    · refine hout ?_
      rcases ha with ha | ⟨c, hc, ha⟩
      · exact Or.inr ha
      · exact Or.inl ((h.chunk hP hc).2.2.2 a ha)
    · obtain ⟨c, hc, hce⟩ := mem_live (hl e he)
      exact hdata c hc e hce hea
    · refine hpager ?_
      rcases ha with ha | ⟨c, hc, ha⟩
      · exact Or.inl (hfl a ha)
      · obtain ⟨X, hX, hc⟩ := List.mem_flatMap.mp hc
        exact Or.inr ⟨X.extent, List.mem_map_of_mem hX, ((h.cut X hX).within hc).has ha⟩
  have : Std.Symm fun x y : Chunk => x.extent.Disjoint y.extent := ⟨fun _ _ hd => hd.symm⟩
  have hdisj : ∀ c ∈ Xs.flatMap Span.chunks, ∀ d ∈ Xs.flatMap Span.chunks, c ≠ d →
      c.extent.Disjoint d.extent := fun c hc d hd hne =>
    List.Pairwise.forall (List.pairwise_map.mp hap.separated) hc hd hne
  refine ⟨?_, ?_, ?_⟩
  · intro a ha hhas
    refine hnot a (Or.inl hhas) ?_ ha
    intro c hc e he hdata
    exact hfl a hhas ((h.chunk hP hc).2.2.2 a ((Chunk.data_within (hap.ok c hc) he).1.has hdata))
  · intro d hd a ha hhas
    have hin := (hap.ok d hd).head_within.has hhas
    refine hnot a (Or.inr ⟨d, hd, hin⟩) ?_ ha
    intro c hc e he hdata
    obtain ⟨hwithin, hapart⟩ := Chunk.data_within (hap.ok c hc) he
    by_cases hcd : c = d
    · subst hcd
      exact hapart.not_has hhas hdata
    · exact (hdisj c hc d hd hcd).not_has (hwithin.has hdata) hin
  · intro d hd hfree a ha hhas
    refine hnot a (Or.inr ⟨d, hd, hhas⟩) ?_ ha
    intro c hc e he hdata
    have hcd : c ≠ d := by
      rintro rfl
      obtain ⟨n, hn, -⟩ := Chunk.data_eq he
      rw [Chunk.free, hn] at hfree
      cases hfree
    exact (hdisj c hc d hd hcd).not_has ((Chunk.data_within (hap.ok c hc) he).1.has hdata) hhas

/-- What the program keeps is kept by the page allocator as well. -/
theorem kept_pager (hcut : ∀ X ∈ Xs, X.Cut) (hl : ∀ e ∈ l, e ∈ live (Xs.flatMap Span.chunks))
    {a : Nat} (ha : Malloc.Kept (Arena arena fl) l a) :
    Malloc.Kept arena (Xs.map Span.extent) a := by
  rcases ha with ha | ⟨e, he, ha⟩
  · exact Or.inl fun harena => ha (Or.inl harena)
  · obtain ⟨c, hc, hce⟩ := mem_live (hl e he)
    obtain ⟨X, hX, hc⟩ := List.mem_flatMap.mp hc
    exact Or.inr ⟨X.extent, List.mem_map_of_mem hX, ((hcut X hX).within hc).has
      ((Chunk.data_within ((hcut X hX).ok c hc).1 hce).1.has ha)⟩

/-- What the page allocator does is not in the books. -/
theorem Books.kept {free : List Nat} {m' : Mem} (hb : Books fl m (Xs.flatMap Span.chunks) free)
    (hfl : ∀ a, (headExtent fl).Has a → ¬ arena a) (hcut : ∀ X ∈ Xs, X.Cut)
    (hm : AgreeOn (Malloc.Kept arena (Xs.map Span.extent)) m m') :
    Books fl m' (Xs.flatMap Span.chunks) free := by
  refine hb.frame ?_ ?_
  · exact fun k hk => hm _ (Or.inl (hfl _ ⟨Nat.le_add_right _ _, Nat.add_lt_add_left hk _⟩))
  · intro c hc k hk
    obtain ⟨X, hX, hc⟩ := List.mem_flatMap.mp hc
    exact hm _ (Or.inr ⟨X.extent, List.mem_map_of_mem hX, ((hcut X hX).within hc).has
      (((hcut X hX).ok c hc).1.has hk)⟩)

end Laid

/-! ## The heap -/

section Rep

variable {π : Type} {P : Pager π} {arena : Nat → Prop} {out : π → Mem → List Extent → Prop}
  {fl : Nat} {s : Heap π} {Xs Ys : List Span} {free : List Nat}

theorem Rep.cut (h : Rep out fl s Xs free) : ∀ X ∈ Xs, X.Cut := fun X hX => (h.ok X hX).toCut

theorem Rep.laid (h : Rep out fl s Xs free) : Laid out s.pager s.mem Xs := ⟨h.out, h.cut⟩

/-- The spans can be listed in any order. -/
theorem Rep.perm (h : Rep out fl s Xs free) (hP : P.Lawful pageSize arena out)
    (hp : Xs.Perm Ys) : Rep out fl s Ys free :=
  ⟨hP.perm _ _ _ _ h.out (hp.map _), fun X hX => h.ok X (hp.mem_iff.mpr hX),
    h.books.perm (hp.flatMap_right _)⟩

/-- **As a user sees it**: the data do not meet, are aligned, and stay. -/
theorem holds (hP : P.Lawful pageSize arena out) (hfl : ∀ a, (headExtent fl).Has a → ¬ arena a) :
    Malloc.Holds 8 (Arena arena fl) (Out out fl) where
  separated := by
    rintro s m l ⟨Xs, free, h, hp⟩
    have hap := h.laid.apart hP hfl
    refine Separated.perm ?_ hp.symm
    refine List.pairwise_filterMap.mpr ((List.pairwise_map.mp hap.separated).imp_of_mem ?_)
    intro c d hc hd hdisj e he f hf
    exact hdisj.within (Chunk.data_within (hap.ok c hc) he).1
      (Chunk.data_within (hap.ok d hd) hf).1
  block := by
    rintro s m l ⟨Xs, free, h, hp⟩ e he
    obtain ⟨c, hc, hce⟩ := mem_live (hp.mem_iff.mp he)
    obtain ⟨hok, -, hlimit, harena⟩ := h.laid.chunk hP hc
    have hin := (Chunk.data_within hok hce).1
    have hstop := hin.2
    obtain ⟨n, -, rfl⟩ := Chunk.data_eq hce
    exact ⟨Nat.succ_ne_zero _, Nat.dvd_add hok.aligned (by decide), by omega,
      fun a ha => Or.inl (harena a (hin.has ha))⟩
  perm := by
    rintro s m l l' ⟨Xs, free, h, hp⟩ hl
    exact ⟨Xs, free, h, hl.symm.trans hp⟩
  store := by
    rintro s m m' l ⟨Xs, free, h, hp⟩ hm
    have hl : ∀ e ∈ l, e ∈ live (Xs.flatMap Span.chunks) := fun e he => hp.mem_iff.mp he
    have hspares := h.laid.spares hP hfl hl
    refine ⟨Xs, free, ⟨?_, h.ok, ?_⟩, hp⟩
    · refine hP.store _ _ _ _ h.out (hm.mono ?_)
      exact fun a ha hkept => ha (kept_pager h.cut hl hkept)
    · refine h.books.frame ?_ ?_
      · exact fun k hk => hm _ fun hkept => hspares.queue _ (Or.inl hkept)
          ⟨Nat.le_add_right _ _, Nat.add_lt_add_left hk _⟩
      · exact fun c hc k hk => hm _ fun hkept =>
          hspares.head c hc _ (Or.inl hkept) (Chunk.head_has hk)

end Rep

end Unikernel.Xmalloc
