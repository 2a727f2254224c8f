import Unikernel.Xen.Blocks

/-!
# What `free` does to the heap

A block is taken out of the books and held in the hand. The search through the free list
adds the neighbours that are free, and then the chunk in the hand is a whole page, or it has
no free neighbours any more.

- `Hand`: a chunk is in the hand, and the search has come to `todo`.
- `mergeFree_spec`: the search ends, and no neighbour is left.
- `free_leads`: `free` takes the block, and no other one.
-/

namespace Unikernel.Xmalloc

/-! ## Neighbours

Two free chunks of which one ends where the other begins become one. Its bytes are those of the
two, so it meets what one of them met, and nothing else. -/

section Join

variable {K : Nat → Prop} {fl a : Nat} {m : Mem} {c d x y : Chunk} {cs : List Chunk}
  {done todo : List Nat}

/-- Chunks with room are all there is between two addresses. -/
theorem Tiles.eq_nil (h : Tiles a cs a) (hok : ∀ c ∈ cs, c.Ok) : cs = [] := by
  cases cs with
  | nil => rfl
  | cons c cs =>
    obtain ⟨rfl, h⟩ := h
    -- a chunk takes 32 bytes at least, and there are none
    have hroom := (hok c List.mem_cons_self).room
    have hle : c.addr + c.size ≤ c.addr := h.le
    omega

/-- Two neighbours, as one free chunk. -/
def join (x y : Chunk) : Chunk := ⟨x.addr, x.size + y.size, none⟩

/-- A byte of both together is one of the first or of the second. -/
theorem join_has (hxy : x.extent.stop = y.addr) {a : Nat} (ha : (join x y).extent.Has a) :
    x.extent.Has a ∨ y.extent.Has a := by
  have hxy : x.addr + x.size = y.addr := hxy
  have hlow : x.addr ≤ a := ha.1
  have hhigh : a < x.addr + (x.size + y.size) := ha.2
  by_cases hax : a < x.addr + x.size
  · exact Or.inl ⟨hlow, hax⟩
  · refine Or.inr ⟨?_, ?_⟩
    · show y.addr ≤ a
      omega
    · show a < y.addr + y.size
      omega

/-- What meets neither of them does not meet both together. -/
theorem join_disjoint {e : Extent} (hxy : x.extent.stop = y.addr) (hx : x.extent.Disjoint e)
    (hy : y.extent.Disjoint e) (hpos : 0 < x.size) (he : 0 < e.len) :
    (join x y).extent.Disjoint e := by
  refine Extent.disjoint_of_forall (Nat.add_pos_left hpos _) he ?_
  intro a ha
  rcases join_has hxy ha with ha | ha
  · exact hx.not_has ha
  · exact hy.not_has ha

/-- Sizes that are multiples of eight add up to one. -/
theorem join_ok (hx : x.Ok) (hy : y.Ok) : (join x y).Ok := by
  have hroom := hx.room
  refine ⟨hx.aligned, Nat.dvd_add hx.sized hy.sized, ?_⟩
  show 32 ≤ x.size + y.size
  omega

/-- A chunk has its header at least. -/
theorem Chunk.Ok.pos (h : c.Ok) : 0 < c.size := by
  have hroom := h.room
  omega

/-- The other chunks are apart from both, and from the two as one. -/
theorem Apart.join (h : Apart fl (x :: y :: cs)) (hxy : x.extent.stop = y.addr) :
    Apart fl (join x y :: cs) := by
  have hx := h.ok x List.mem_cons_self
  have hy := h.ok y (List.mem_cons_of_mem _ List.mem_cons_self)
  refine ⟨Separated.cons_iff.mpr ⟨?_, h.tail.tail.separated⟩, ?_, ?_⟩
  · intro e he
    obtain ⟨d, hd, rfl⟩ := List.mem_map.mp he
    exact join_disjoint hxy (h.disjoint (List.mem_cons_of_mem _ hd)) (h.tail.disjoint hd) hx.pos
      (h.tail.tail.ok d hd).pos
  · intro d hd
    rcases List.mem_cons.mp hd with rfl | hd
    · exact join_ok hx hy
    · exact h.tail.tail.ok d hd
  · intro d hd
    rcases List.mem_cons.mp hd with rfl | hd
    · exact join_disjoint hxy (h.head x List.mem_cons_self)
        (h.tail.head y List.mem_cons_self) hx.pos (by decide : 0 < 16)
    · exact h.tail.tail.head d hd

/-- Of free chunks all words may be written, and so of the two as one. -/
theorem Spares.join (h : Spares K fl (x :: y :: cs)) (hx : x.free = true) (hy : y.free = true)
    (hxok : x.Ok) (hyok : y.Ok) (hxy : x.extent.stop = y.addr) :
    Spares K fl (join x y :: cs) := by
  refine h.tail.tail.cons (join_ok hxok hyok) ?_
  intro a ha hhas
  rcases join_has hxy hhas with hhas | hhas
  · exact h.free x List.mem_cons_self hx a ha hhas
  · exact h.tail.free y List.mem_cons_self hy a ha hhas

/-- Other chunks and the queue are not where a chunk is. -/
theorem Apart.spares (h : Apart fl (c :: cs)) : Spares c.extent.Has fl cs := by
  refine ⟨?_, ?_, ?_⟩
  · intro a ha
    exact (h.head c List.mem_cons_self).not_has ha
  · intro d hd a ha hhas
    exact (h.disjoint hd).not_has ha ((h.tail.ok d hd).head_within.has hhas)
  · intro d hd _ a ha
    exact (h.disjoint hd).not_has ha

end Join

/-- A free chunk `d` is taken out of the books, and the chunk `j` is written in the hand. -/
theorem merge_books {K : Nat → Prop} {fl : Nat} {m : Mem} {d j : Chunk} {cs : List Chunk}
    {done todo : List Nat} (hb : Books fl m (d :: cs) (done ++ d.addr :: todo))
    (hap : Apart fl (d :: cs)) (hd : d.free = true) (hK : Spares K fl (d :: cs))
    (hjoin : Apart fl (j :: cs)) (hjK : Spares K fl (j :: cs)) (hj : j.free = true) (v : Nat) :
    Books fl (Function.update (Tailq.remove Hdr.freelist m fl d.addr) j.addr v) cs (done ++ todo) ∧
      AgreeOn K m (Function.update (Tailq.remove Hdr.freelist m fl d.addr) j.addr v) := by
  have hhas : j.extent.Has j.addr := (hjoin.ok j List.mem_cons_self).has (by decide : 0 < 32)
  exact ⟨(hb.take hap hd).1.store hjoin hhas v,
    (hK.remove hap hb).update (fun ha => hjK.free j List.mem_cons_self hj _ ha hhas) v⟩

/-! ## The chunk in the hand

The loop of `xfree` looks at one element of the free list after the other. An element that is a
neighbour is taken off the list and joined; the others are passed. Free neighbours that have not
been found must be to come, and that is why there are none when the list ends. -/

/-- The chunk `c` of the page `b` is in the hand, between `bs₁` and `bs₂`; the search has been
through `done`. A neighbour that is free is still to come. -/
structure Hand (K : Nat → Prop) (fl b : Nat) (m : Mem) (bs₁ : List Chunk) (c : Chunk)
    (bs₂ rest : List Chunk) (done todo : List Nat) : Prop where
  cut : Span.Cut ⟨b, 0, bs₁ ++ c :: bs₂⟩
  base : b ≠ 0 ∧ 4096 ∣ b ∧ b + 8192 ≤ 2 ^ 64
  free : c.free = true
  left : bs₁.IsChain fun c d => c.free = false ∨ d.free = false
  right : bs₂.IsChain fun c d => c.free = false ∨ d.free = false
  leftmost : ∀ d ∈ bs₁.getLast?, d.free = true → d.addr ∈ todo
  rightmost : ∀ d ∈ bs₂.head?, d.free = true → d.addr ∈ todo
  books : Books fl m (bs₁ ++ bs₂ ++ rest) (done ++ todo)
  size : m (Hdr.size c.addr) = c.size
  apart : Apart fl (c :: (bs₁ ++ bs₂ ++ rest))
  spares : Spares K fl (c :: (bs₁ ++ bs₂ ++ rest))
  pages : ∀ d ∈ rest, d.free = true → d.addr / 4096 ≠ b / 4096
  limit : ∀ d ∈ rest, d.extent.stop + 4096 ≤ 2 ^ 64

namespace Hand

variable {K : Nat → Prop} {fl b : Nat} {m : Mem} {bs₁ bs₂ rest : List Chunk} {c d : Chunk}
  {done todo : List Nat}

/-- The chunks on its left fill the page up to it, those on its right from its end. -/
theorem tiles (h : Hand K fl b m bs₁ c bs₂ rest done todo) :
    Tiles b bs₁ c.addr ∧ Tiles c.extent.stop bs₂ (b + 4096) := Tiles.middle_iff.mp h.cut.tiles

/-- All chunks of the page are on it. -/
theorem within (h : Hand K fl b m bs₁ c bs₂ rest done todo) (hd : d ∈ bs₁ ++ c :: bs₂) :
    b ≤ d.addr ∧ d.addr + d.size ≤ b + 4096 := h.cut.within hd

/-- And so is the one in the hand. -/
theorem chunk_within (h : Hand K fl b m bs₁ c bs₂ rest done todo) :
    b ≤ c.addr ∧ c.addr + c.size ≤ b + 4096 ∧ 32 ≤ c.size := by
  obtain ⟨hlow, hhigh⟩ := h.within (List.mem_append_right bs₁ List.mem_cons_self)
  have hroom := (h.apart.ok c List.mem_cons_self).room
  exact ⟨hlow, hhigh, by omega⟩

/-- Where the elements of the free list are. -/
theorem todo_chunk {x : Nat} (h : Hand K fl b m bs₁ c bs₂ rest done (x :: todo)) :
    ∃ d, d.addr = x ∧ d.free = true ∧ m (Hdr.size x) = d.size ∧ 32 ≤ d.size ∧
      x + d.size < 2 ^ 64 ∧
      (d ∈ bs₁ ∧ b ≤ x ∧ x + d.size ≤ c.addr ∨ d ∈ bs₂ ∧ c.addr + c.size ≤ x ∧
          x + d.size ≤ b + 4096 ∨
        d ∈ rest ∧ x / 4096 ≠ b / 4096) := by
  obtain ⟨d, hd, hfree, rfl⟩ := h.books.exists_chunk
    (List.mem_append_right done (List.mem_cons_self (a := x)))
  have hroom := (h.apart.ok d (List.mem_cons_of_mem _ hd)).room
  obtain ⟨-, -, hlimit⟩ := h.base
  obtain ⟨-, hchigh, -⟩ := h.chunk_within
  refine ⟨d, rfl, hfree, h.books.size d hd, by omega, ?_⟩
  -- left of the chunk in the hand, right of it, or on another page
  rcases List.mem_append.mp hd with hd | hd
  · rcases List.mem_append.mp hd with hd | hd
    · obtain ⟨hlow, hhigh⟩ := h.tiles.1.within hd
      have hhigh : d.addr + d.size ≤ c.addr := hhigh
      exact ⟨by omega, Or.inl ⟨hd, hlow, hhigh⟩⟩
    · obtain ⟨hlow, hhigh⟩ := h.tiles.2.within hd
      have hhigh : d.addr + d.size ≤ b + 4096 := hhigh
      exact ⟨by omega, Or.inr (Or.inl ⟨hd, hlow, hhigh⟩)⟩
  · have hstop : d.addr + d.size + 4096 ≤ 2 ^ 64 := h.limit d hd
    exact ⟨by omega, Or.inr (Or.inr ⟨hd, h.pages d hd hfree⟩)⟩

/-- An element of the free list that is no neighbour. -/
theorem skip {x : Nat} (h : Hand K fl b m bs₁ c bs₂ rest done (x :: todo))
    (hleft : ∀ d ∈ bs₁.getLast?, d.addr ≠ x) (hright : ∀ d ∈ bs₂.head?, d.addr ≠ x) :
    Hand K fl b m bs₁ c bs₂ rest (done ++ [x]) todo := by
  refine { h with leftmost := ?_, rightmost := ?_, books := ?_ }
  · intro d hd hfree
    exact List.mem_of_ne_of_mem (hleft d hd) (h.leftmost d hd hfree)
  · intro d hd hfree
    exact List.mem_of_ne_of_mem (hright d hd) (h.rightmost d hd hfree)
  · rw [List.append_assoc done]
    exact h.books

/-- The sizes when a free chunk has been taken out of the queue. -/
theorem removed (h : Hand K fl b m bs₁ c bs₂ rest done todo) (hd : d ∈ bs₁ ++ bs₂ ++ rest)
    (hfree : d.free = true) :
    Tailq.remove Hdr.freelist m fl d.addr (Hdr.size d.addr) = d.size ∧
      Tailq.remove Hdr.freelist m fl d.addr (Hdr.size c.addr) = c.size := by
  have hmem : d.addr ∈ done ++ todo :=
    h.books.free.mem_iff.mpr (List.mem_map_of_mem (List.mem_filter.mpr ⟨hd, hfree⟩))
  obtain ⟨l, l', hsplit⟩ := List.append_of_mem hmem
  refine ⟨h.books.remove_size h.apart.tail hd hfree, ?_⟩
  -- taking a chunk off the queue does not write to the chunk in the hand
  have hagree := h.apart.spares.perm (List.perm_cons_erase hd)
  have hb := h.books
  rw [hsplit] at hb
  exact (hagree.remove (h.apart.tail.perm (List.perm_cons_erase hd))
    (hb.perm (List.perm_cons_erase hd)) c.addr
    ((h.apart.ok c List.mem_cons_self).has (by decide : 0 < 32))).trans h.size

/-- A neighbour on the left is the last one there. -/
theorem eq_concat (h : Hand K fl b m bs₁ c bs₂ rest done todo) (hd : d ∈ bs₁)
    (hstop : d.addr + d.size = c.addr) : ∃ l, bs₁ = l ++ [d] := by
  obtain ⟨l, l', rfl⟩ := List.append_of_mem hd
  have hrest := (Tiles.middle_iff.mp h.tiles.1).2
  rw [show d.extent.stop = c.addr from hstop] at hrest
  refine ⟨l, ?_⟩
  rw [hrest.eq_nil fun e he => (h.cut.ok e (List.mem_append_left _ (List.mem_append_right _
    (List.mem_cons_of_mem _ he)))).1]

/-- A neighbour on the right is the first one there. -/
theorem eq_cons (h : Hand K fl b m bs₁ c bs₂ rest done todo) (hd : d ∈ bs₂)
    (hstop : c.addr + c.size = d.addr) : ∃ l, bs₂ = d :: l := by
  obtain ⟨l, l', rfl⟩ := List.append_of_mem hd
  have hrest := (Tiles.middle_iff.mp h.tiles.2).1
  rw [show c.extent.stop = d.addr from hstop] at hrest
  refine ⟨l', ?_⟩
  rw [hrest.eq_nil fun e he => (h.cut.ok e (List.mem_append_right _
    (List.mem_cons_of_mem _ (List.mem_append_left _ he)))).1, List.nil_append]

/-- The chunks next to the one in the hand. -/
theorem neighbours (h : Hand K fl b m bs₁ c bs₂ rest done todo) :
    (∀ e ∈ bs₁.getLast?, e.addr + e.size = c.addr ∧ b ≤ e.addr) ∧
      ∀ e ∈ bs₂.head?, e.addr = c.addr + c.size ∧ e.addr < b + 4096 := by
  -- the last chunk on the left, the first one on the right
  constructor
  · intro e he
    have hlow := (h.tiles.1.within (List.mem_of_getLast? he)).1
    obtain ⟨l, rfl⟩ := List.getLast?_eq_some_iff.mp he
    exact ⟨h.tiles.1.addr_of_concat, hlow⟩
  · intro e he
    obtain ⟨l, rfl⟩ := List.head?_eq_some_iff.mp he
    have hin : e.addr + e.size ≤ b + 4096 := (h.tiles.2.within List.mem_cons_self).2
    have hpos := (h.cut.ok e (List.mem_append_right _
      (List.mem_cons_of_mem _ List.mem_cons_self))).1.pos
    exact ⟨h.tiles.2.1, by omega⟩

/-- The neighbour on the left is added. -/
theorem mergeLeft (h : Hand K fl b m (bs₁ ++ [d]) c bs₂ rest done (d.addr :: todo))
    (hd : d.free = true) :
    Hand K fl b (Function.update (Tailq.remove Hdr.freelist m fl d.addr) d.addr (d.size + c.size))
        bs₁ (join d c) bs₂ rest done todo ∧
      AgreeOn K m
        (Function.update (Tailq.remove Hdr.freelist m fl d.addr) d.addr (d.size + c.size)) := by
  have hstop : d.extent.stop = c.addr := h.tiles.1.addr_of_concat
  -- the neighbour is pulled to the front, next to the chunk in the hand
  have hperm : (bs₁ ++ [d] ++ bs₂ ++ rest).Perm (d :: (bs₁ ++ bs₂ ++ rest)) :=
    perm_around bs₁ [d] bs₂ rest
  have hap := (h.apart.perm (hperm.cons c)).perm (List.Perm.swap d c _)
  have hspares := (h.spares.perm (hperm.cons c)).perm (List.Perm.swap d c _)
  have hjoin := hap.join hstop
  have hjoined := hspares.join hd h.free (hap.ok d List.mem_cons_self)
    (hap.tail.ok c List.mem_cons_self) hstop
  obtain ⟨hbooks, hagree⟩ := merge_books (h.books.perm hperm) (hap.perm (List.Perm.swap c d _)).tail
    hd (hspares.perm (List.Perm.swap c d _)).tail hjoin hjoined rfl (d.size + c.size)
  -- the one before the neighbour, if there is one, is in use
  obtain ⟨hchain, -, hlast⟩ := List.isChain_append.mp h.left
  refine ⟨⟨?_, h.base, rfl, hchain, h.right, ?_, ?_, hbooks, Function.update_self _ _ _, hjoin,
    hjoined, h.pages, h.limit⟩, hagree⟩
  · obtain ⟨hleft, hright⟩ := h.tiles
    refine ⟨Tiles.middle_iff.mpr ⟨(Tiles.middle_iff.mp hleft).1, ?_⟩, ?_⟩
    · have heq : (join d c).extent.stop = c.extent.stop := by
        show d.addr + (d.size + c.size) = c.addr + c.size
        rw [← hstop]
        exact (Nat.add_assoc _ _ _).symm
      rw [heq]
      exact hright
    · intro e he
      rcases List.mem_append.mp he with he | he
      · exact h.cut.ok e (List.mem_append_left _ (List.mem_append_left _ he))
      · rcases List.mem_cons.mp he with rfl | he
        · refine ⟨hjoin.ok _ List.mem_cons_self, ?_⟩
          exact (h.cut.ok d (List.mem_append_left _ (List.mem_append_right _ List.mem_cons_self))).2
        · exact h.cut.ok e (List.mem_append_right _ (List.mem_cons_of_mem _ he))
  · -- the neighbour of a free chunk is not free
    intro e he hfree
    rcases hlast e he d rfl with hused | hused
    · rw [hused] at hfree
      cases hfree
    · rw [hused] at hd
      cases hd
  · intro e he hfree
    refine List.mem_of_ne_of_mem ?_ (h.rightmost e he hfree)
    -- what is right of the chunk has another address than the neighbour on the left
    have hin := h.tiles.2.within (List.mem_of_mem_head? he)
    have hlow : c.addr + c.size ≤ e.addr := hin.1
    have hpos := (hap.ok d List.mem_cons_self).pos
    have hstop : d.addr + d.size = c.addr := hstop
    omega

/-- The neighbour on the right is added. -/
theorem mergeRight (h : Hand K fl b m bs₁ c (d :: bs₂) rest done (d.addr :: todo))
    (hd : d.free = true) :
    Hand K fl b (Function.update (Tailq.remove Hdr.freelist m fl d.addr) c.addr (c.size + d.size))
        bs₁ (join c d) bs₂ rest done todo ∧
      AgreeOn K m
        (Function.update (Tailq.remove Hdr.freelist m fl d.addr) c.addr (c.size + d.size)) := by
  obtain ⟨hleft, hstart, hright⟩ := h.tiles
  -- as on the left
  have hperm : (bs₁ ++ d :: bs₂ ++ rest).Perm (d :: (bs₁ ++ bs₂ ++ rest)) :=
    List.perm_middle.append_right rest
  have hap := h.apart.perm (hperm.cons c)
  have hspares := h.spares.perm (hperm.cons c)
  have hjoin := hap.join hstart.symm
  have hjoined := hspares.join h.free hd (hap.ok c List.mem_cons_self)
    (hap.tail.ok d List.mem_cons_self) hstart.symm
  obtain ⟨hbooks, hagree⟩ := merge_books (h.books.perm hperm) hap.tail hd hspares.tail hjoin hjoined
    rfl (c.size + d.size)
  -- the one behind the neighbour, if there is one, is in use
  obtain ⟨hlast, hchain⟩ := List.isChain_cons.mp h.right
  refine ⟨⟨?_, h.base, rfl, h.left, hchain, ?_, ?_, hbooks, Function.update_self _ _ _, hjoin,
    hjoined, h.pages, h.limit⟩, hagree⟩
  · refine ⟨Tiles.middle_iff.mpr ⟨hleft, ?_⟩, ?_⟩
    · have heq : (join c d).extent.stop = d.extent.stop := by
        show c.addr + (c.size + d.size) = d.addr + d.size
        rw [hstart]
        exact (Nat.add_assoc _ _ _).symm
      rw [heq]
      exact hright
    · intro e he
      rcases List.mem_append.mp he with he | he
      · exact h.cut.ok e (List.mem_append_left _ he)
      · rcases List.mem_cons.mp he with rfl | he
        · exact ⟨hjoin.ok _ List.mem_cons_self,
            (h.cut.ok c (List.mem_append_right _ List.mem_cons_self)).2⟩
        · exact h.cut.ok e
            (List.mem_append_right _ (List.mem_cons_of_mem _ (List.mem_cons_of_mem _ he)))
  · intro e he hfree
    refine List.mem_of_ne_of_mem ?_ (h.leftmost e he hfree)
    -- what is left of the chunk has another address than the neighbour on the right
    have hin := hleft.within (List.mem_of_getLast? he)
    have hhigh : e.addr + e.size ≤ c.addr := hin.2
    have hpos := (hap.ok c List.mem_cons_self).pos
    have hstart : d.addr = c.addr + c.size := hstart
    omega
  · intro e he hfree
    rcases hlast e he with hused | hused
    · rw [hused] at hd
      cases hd
    · rw [hused] at hfree
      cases hfree

end Hand

/-! ## The search for neighbours

First what a round of the loop does, for an element on another page, a neighbour on the left, one
on the right, and one that is no neighbour. The second test is made after the first one has
succeeded, too, with the old address and the new size of the chunk in the hand. -/

section Search

variable {fl fuel x hdr : Nat} {m : Mem}

/-- On another page, nothing else is looked at. -/
theorem mergeFree_page (hx : x ≠ 0) (hpage : (x ^^^ hdr) &&& pageMask ≠ 0) :
    mergeFree fl (fuel + 1) m hdr x = mergeFree fl fuel m hdr (m (Tailq.next Hdr.freelist x)) := by
  simp only [mergeFree, if_neg hx, if_pos hpage]

/-- The element becomes the chunk in the hand. It lies below the old one, so the
second test fails. -/
theorem mergeFree_left (hx : x ≠ 0) (hpage : (x ^^^ hdr) &&& pageMask = 0)
    (hleft : add x (m (Hdr.size x)) = hdr) {v : Nat}
    (hv : add (Tailq.remove Hdr.freelist m fl x (Hdr.size x))
      (Tailq.remove Hdr.freelist m fl x (Hdr.size hdr)) = v) (hright : add hdr v ≠ x) :
    mergeFree fl (fuel + 1) m hdr x =
      mergeFree fl fuel (Function.update (Tailq.remove Hdr.freelist m fl x) x v) x
        (m (Tailq.next Hdr.freelist x)) := by
  simp only [mergeFree, if_neg hx, if_neg (not_not_intro hpage), if_pos hleft, hv,
    Mem.update_self, if_neg hright]

/-- The element is added to the chunk in the hand. -/
theorem mergeFree_right (hx : x ≠ 0) (hpage : (x ^^^ hdr) &&& pageMask = 0)
    (hleft : add x (m (Hdr.size x)) ≠ hdr) (hright : add hdr (m (Hdr.size hdr)) = x) :
    mergeFree fl (fuel + 1) m hdr x =
      mergeFree fl fuel (Function.update (Tailq.remove Hdr.freelist m fl x) hdr
        (add (Tailq.remove Hdr.freelist m fl x (Hdr.size hdr))
          (Tailq.remove Hdr.freelist m fl x (Hdr.size x)))) hdr
        (m (Tailq.next Hdr.freelist x)) := by
  simp only [mergeFree, if_neg hx, if_neg (not_not_intro hpage), if_neg hleft, if_pos hright]

/-- Whether on the same page or not. -/
theorem mergeFree_none (hx : x ≠ 0) (hleft : add x (m (Hdr.size x)) ≠ hdr)
    (hright : add hdr (m (Hdr.size hdr)) ≠ x) :
    mergeFree fl (fuel + 1) m hdr x = mergeFree fl fuel m hdr (m (Tailq.next Hdr.freelist x)) := by
  by_cases hpage : (x ^^^ hdr) &&& pageMask = 0
  · simp only [mergeFree, if_neg hx, if_neg (not_not_intro hpage), if_neg hleft, if_neg hright]
  · exact mergeFree_page hx hpage

end Search

section Merge

variable {K : Nat → Prop} {fl b fuel : Nat} {m : Mem} {bs₁ bs₂ rest : List Chunk} {c d : Chunk}
  {done todo : List Nat}

/-- A round at the neighbour on the left. -/
theorem Hand.round_left (fuel : Nat)
    (h : Hand K fl b m (bs₁ ++ [d]) c bs₂ rest done (d.addr :: todo)) (hfree : d.free = true) :
    ∃ m', mergeFree fl (fuel + 1) m c.addr d.addr = mergeFree fl fuel m' d.addr (todo.headD 0) ∧
      Hand K fl b m' bs₁ (join d c) bs₂ rest done todo ∧ AgreeOn K m m' := by
  have hd : d ∈ bs₁ ++ [d] := List.mem_append_right _ (List.mem_singleton_self _)
  have hmem : d ∈ bs₁ ++ [d] ++ bs₂ ++ rest := List.mem_append_left _ (List.mem_append_left _ hd)
  have hne : d.addr ≠ 0 :=
    Tailq.ne_zero h.books.queue (List.mem_append_right _ List.mem_cons_self)
  have hnext : m (Tailq.next Hdr.freelist d.addr) = todo.headD 0 := Tailq.next_eq h.books.queue
  have hstop : d.addr + d.size = c.addr := h.tiles.1.addr_of_concat
  have hlow := (h.tiles.1.within hd).1
  obtain ⟨hclow, hchigh, hcroom⟩ := h.chunk_within
  obtain ⟨-, hbal, hblimit⟩ := h.base
  have hpage : (d.addr ^^^ c.addr) &&& pageMask = 0 :=
    (samePage_iff (by omega) (by omega)).mpr (by omega)
  have hsum : add d.addr (m (Hdr.size d.addr)) = c.addr := by
    rw [h.books.size d hmem, add_eq (by omega), hstop]
  obtain ⟨hrd, hrc⟩ := h.removed hmem hfree
  obtain ⟨hhand, hagree⟩ := h.mergeLeft hfree
  refine ⟨_, ?_, hhand, hagree⟩
  rw [mergeFree_left hne hpage hsum (by rw [hrd, hrc, add_eq (by omega)])
    (by rw [add_eq (by omega)]; omega), hnext]

/-- A round at the neighbour on the right. -/
theorem Hand.round_right (fuel : Nat)
    (h : Hand K fl b m bs₁ c (d :: bs₂) rest done (d.addr :: todo)) (hfree : d.free = true) :
    ∃ m', mergeFree fl (fuel + 1) m c.addr d.addr = mergeFree fl fuel m' c.addr (todo.headD 0) ∧
      Hand K fl b m' bs₁ (join c d) bs₂ rest done todo ∧ AgreeOn K m m' := by
  have hmem : d ∈ bs₁ ++ d :: bs₂ ++ rest :=
    List.mem_append_left _ (List.mem_append_right _ List.mem_cons_self)
  have hne : d.addr ≠ 0 :=
    Tailq.ne_zero h.books.queue (List.mem_append_right _ List.mem_cons_self)
  have hnext : m (Tailq.next Hdr.freelist d.addr) = todo.headD 0 := Tailq.next_eq h.books.queue
  have hstart : d.addr = c.addr + c.size := h.tiles.2.1
  have hhigh : d.addr + d.size ≤ b + 4096 := (h.tiles.2.within List.mem_cons_self).2
  have hpos := (h.cut.ok d (List.mem_append_right _ (List.mem_cons_of_mem _ List.mem_cons_self))).1
  have hroom := hpos.room
  obtain ⟨hclow, hchigh, hcroom⟩ := h.chunk_within
  obtain ⟨-, hbal, hblimit⟩ := h.base
  have hpage : (d.addr ^^^ c.addr) &&& pageMask = 0 :=
    (samePage_iff (by omega) (by omega)).mpr (by omega)
  have hsumL : add d.addr (m (Hdr.size d.addr)) ≠ c.addr := by
    rw [h.books.size d hmem, add_eq (by omega)]
    omega
  have hsumR : add c.addr (m (Hdr.size c.addr)) = d.addr := by
    rw [h.size, add_eq (by omega), hstart]
  obtain ⟨hrd, hrc⟩ := h.removed hmem hfree
  obtain ⟨hhand, hagree⟩ := h.mergeRight hfree
  refine ⟨_, ?_, hhand, hagree⟩
  rw [mergeFree_right hne hpage hsumL hsumR, hrd, hrc, add_eq (by omega), hnext]

/-- A round at an element that is no neighbour. Were it the last one on the left or the first one
on the right, it would be one. -/
theorem Hand.round_pass (fuel : Nat) (h : Hand K fl b m bs₁ c bs₂ rest done (d.addr :: todo))
    (hsize : m (Hdr.size d.addr) = d.size) (hroom : 32 ≤ d.size)
    (hlimit : d.addr + d.size < 2 ^ 64)
    (hwhere : d ∈ bs₁ ∧ b ≤ d.addr ∧ d.addr + d.size ≤ c.addr ∨
      d ∈ bs₂ ∧ c.addr + c.size ≤ d.addr ∧ d.addr + d.size ≤ b + 4096 ∨
      d ∈ rest ∧ d.addr / 4096 ≠ b / 4096)
    (hleft : ¬ (d ∈ bs₁ ∧ d.addr + d.size = c.addr))
    (hright : ¬ (d ∈ bs₂ ∧ c.addr + c.size = d.addr)) :
    mergeFree fl (fuel + 1) m c.addr d.addr = mergeFree fl fuel m c.addr (todo.headD 0) ∧
      Hand K fl b m bs₁ c bs₂ rest (done ++ [d.addr]) todo := by
  have hne : d.addr ≠ 0 :=
    Tailq.ne_zero h.books.queue (List.mem_append_right _ List.mem_cons_self)
  have hnext : m (Tailq.next Hdr.freelist d.addr) = todo.headD 0 := Tailq.next_eq h.books.queue
  obtain ⟨hclow, hchigh, hcroom⟩ := h.chunk_within
  obtain ⟨-, hbal, hblimit⟩ := h.base
  obtain ⟨hneighL, hneighR⟩ := h.neighbours
  have hsumL : add d.addr (m (Hdr.size d.addr)) = d.addr + d.size := by rw [hsize, add_eq hlimit]
  have hsumR : add c.addr (m (Hdr.size c.addr)) = c.addr + c.size := by
    rw [h.size, add_eq (by omega)]
  refine ⟨?_, h.skip ?_ ?_⟩
  · rw [← hnext]
    by_cases hsame : (d.addr ^^^ c.addr) &&& pageMask = 0
    · have hsame := (samePage_iff (by omega) (by omega)).mp hsame
      refine mergeFree_none hne ?_ ?_
      · rw [hsumL]
        rcases hwhere with ⟨hd, -⟩ | ⟨-, hlow, -⟩ | ⟨-, hpages⟩
        · exact fun hstop => hleft ⟨hd, hstop⟩
        · omega
        · omega
      · rw [hsumR]
        rcases hwhere with ⟨-, -, hhigh⟩ | ⟨hd, -⟩ | ⟨-, hpages⟩
        · omega
        · exact fun hstop => hright ⟨hd, hstop⟩
        · omega
    · exact mergeFree_page hne hsame
  · intro e he heq
    obtain ⟨hstop, hlow⟩ := hneighL e he
    have hesize := h.books.size e
      (List.mem_append_left _ (List.mem_append_left _ (List.mem_of_getLast? he)))
    rw [heq, hsize] at hesize
    rcases hwhere with ⟨hd, -⟩ | ⟨-, hlow, -⟩ | ⟨-, hpages⟩
    · exact hleft ⟨hd, by omega⟩
    · omega
    · omega
  · intro e he heq
    obtain ⟨hstart, hhigh⟩ := hneighR e he
    rcases hwhere with ⟨-, -, hhigh⟩ | ⟨hd, -⟩ | ⟨-, hpages⟩
    · omega
    · exact hright ⟨hd, by omega⟩
    · omega

/-- **The search** adds the neighbours that are free, and then there are none left. -/
theorem mergeFree_spec (h : Hand K fl b m bs₁ c bs₂ rest done todo) (hfuel : todo.length < fuel) :
    ∃ m' bs₁' c' bs₂' done', mergeFree fl fuel m c.addr (todo.headD 0) = .ok (m', c'.addr) ∧
      Hand K fl b m' bs₁' c' bs₂' rest done' [] ∧ AgreeOn K m m' ∧
      live (bs₁' ++ bs₂') = live (bs₁ ++ bs₂) := by
  induction fuel generalizing m bs₁ c bs₂ done todo with
  | zero => exact absurd hfuel (Nat.not_lt_zero _)
  | succ fuel ih =>
    cases todo with
    | nil => exact ⟨m, bs₁, c, bs₂, done, rfl, h, AgreeOn.refl K m, rfl⟩
    | cons x todo =>
      have hless : todo.length < fuel := Nat.lt_of_succ_lt_succ hfuel
      -- the element is a free chunk, and it is left, right or elsewhere
      obtain ⟨d, rfl, hfree, hsize, hroom, hlimit, hwhere⟩ := h.todo_chunk
      rw [List.headD_cons]
      by_cases hleft : d ∈ bs₁ ∧ d.addr + d.size = c.addr
      · obtain ⟨l, rfl⟩ := h.eq_concat hleft.1 hleft.2
        obtain ⟨m₁, hround, hhand, hagree⟩ := h.round_left fuel hfree
        obtain ⟨m', bs₁', c', bs₂', done', heq, hend, hagree', hlive⟩ := ih hhand hless
        refine ⟨m', bs₁', c', bs₂', done', hround.trans heq, hend, hagree.trans hagree', ?_⟩
        rw [hlive, List.append_assoc, List.singleton_append, live_append, live_append,
          live_cons_free hfree]
      · by_cases hright : d ∈ bs₂ ∧ c.addr + c.size = d.addr
        · obtain ⟨l, rfl⟩ := h.eq_cons hright.1 hright.2
          obtain ⟨m₁, hround, hhand, hagree⟩ := h.round_right fuel hfree
          obtain ⟨m', bs₁', c', bs₂', done', heq, hend, hagree', hlive⟩ := ih hhand hless
          refine ⟨m', bs₁', c', bs₂', done', hround.trans heq, hend, hagree.trans hagree', ?_⟩
          rw [hlive, live_append, live_append, live_cons_free hfree]
        · obtain ⟨hround, hhand⟩ :=
            h.round_pass fuel hsize hroom hlimit hwhere hleft hright
          rw [hround]
          exact ih hhand hless

end Merge

/-! ## Whole pages

A page without a block in it goes back to the page allocator. It is then a single chunk: its free
chunks have no free neighbours, and so there can only be one. -/

/-- A chunk of the size of its span is all there is in it. -/
theorem Span.Cut.eq_whole {b k : Nat} {bs₁ bs₂ : List Chunk} {c : Chunk}
    (h : Span.Cut ⟨b, k, bs₁ ++ c :: bs₂⟩) (hsize : 4096 * 2 ^ k ≤ c.size) :
    bs₁ = [] ∧ bs₂ = [] ∧ c.addr = b ∧ c.size = 4096 * 2 ^ k := by
  obtain ⟨hleft, hright⟩ := Tiles.middle_iff.mp h.tiles
  have hlow : b ≤ c.addr := hleft.le
  have hhigh : c.addr + c.size ≤ b + 4096 * 2 ^ k := hright.le
  have haddr : c.addr = b := by omega
  have hstop : c.extent.stop = b + 4096 * 2 ^ k := by
    show c.addr + c.size = _
    omega
  rw [haddr] at hleft
  rw [hstop] at hright
  refine ⟨hleft.eq_nil ?_, hright.eq_nil ?_, haddr, by omega⟩
  · exact fun d hd => (h.ok d (List.mem_append_left _ hd)).1
  · exact fun d hd => (h.ok d (List.mem_append_right _ (List.mem_cons_of_mem _ hd))).1

/-- Larger spans are one chunk. -/
theorem Span.Ok.size_eq {b k : Nat} {bs₁ bs₂ : List Chunk} {c : Chunk}
    (h : Span.Ok ⟨b, k, bs₁ ++ c :: bs₂⟩) (hk : k ≠ 0) : c.size = 4096 * 2 ^ k := by
  obtain ⟨d, hd⟩ := h.single hk
  have hd : bs₁ ++ c :: bs₂ = [d] := hd
  have hlen := congrArg List.length hd
  rw [List.length_append, List.length_cons, List.length_singleton] at hlen
  obtain rfl : bs₁ = [] := List.eq_nil_of_length_eq_zero (by omega)
  obtain rfl : bs₂ = [] := List.eq_nil_of_length_eq_zero (by omega)
  obtain ⟨haddr, hstop⟩ := h.tiles
  have haddr : c.addr = b := haddr
  have hstop : c.addr + c.size = b + 4096 * 2 ^ k := hstop
  omega

/-- A chunk that takes a page is the only one, whether its span is one page or more. -/
theorem Span.Ok.eq_whole {b k : Nat} {bs₁ bs₂ : List Chunk} {c : Chunk}
    (h : Span.Ok ⟨b, k, bs₁ ++ c :: bs₂⟩) (hsize : 4096 ≤ c.size) :
    bs₁ = [] ∧ bs₂ = [] ∧ c.addr = b ∧ c.size = 4096 * 2 ^ k := by
  refine h.toCut.eq_whole ?_
  by_cases hk : k = 0
  · subst hk
    exact hsize
  · exact (h.size_eq hk).symm.le

section Free

variable {π : Type} {P : Pager π} {arena : Nat → Prop} {out : π → Mem → List Extent → Prop}
  {fl fuel b k : Nat} {q : π} {m : Mem} {s : Heap π} {c : Chunk} {Xs Ys : List Span}
  {bs₁ bs₂ : List Chunk} {free : List Nat}

/-- **Pages go back** when nothing in them is in use. -/
theorem freePages_leads (hP : P.Lawful pageSize arena out)
    (hfl : ∀ a, (headExtent fl).Has a → ¬ arena a)
    (hout : out q m (⟨b, 4096 * 2 ^ k⟩ :: Ys.map Span.extent)) (hYs : ∀ X ∈ Ys, X.Ok)
    (hb : Books fl m (Ys.flatMap Span.chunks) free) :
    Leads arena out fl ⟨m, q⟩ (live (Ys.flatMap Span.chunks))
      ⟨(P.freePages q m b k).2, (P.freePages q m b k).1⟩ (live (Ys.flatMap Span.chunks)) := by
  have hcut : ∀ X ∈ Ys, X.Cut := fun X hX => (hYs X hX).toCut
  obtain ⟨hkept, hout⟩ := hP.free _ _ _ _ _ hout
  exact ⟨hkept.mono fun a ha => kept_pager hcut (fun e he => he) ha, Ys, free,
    ⟨hout, hYs, hb.kept hfl hcut hkept⟩, List.Perm.refl _⟩

/-- The chunk is taken into the hand. -/
theorem Rep.hand (h : Rep out fl s (⟨b, 0, bs₁ ++ c :: bs₂⟩ :: Ys) free)
    (hP : P.Lawful pageSize arena out) (hfl : ∀ a, (headExtent fl).Has a → ¬ arena a)
    (hc : c.free = false) :
    Hand (Spared arena fl (⟨b, 0, bs₁ ++ ⟨c.addr, c.size, none⟩ :: bs₂⟩ :: Ys)
        (live (bs₁ ++ bs₂ ++ Ys.flatMap Span.chunks))) fl b s.mem bs₁ ⟨c.addr, c.size, none⟩ bs₂
      (Ys.flatMap Span.chunks) [] free := by
  have hX := h.ok _ List.mem_cons_self
  obtain ⟨hcok, hcin⟩ := hX.ok c (List.mem_append_right _ List.mem_cons_self)
  -- seen as free, the chunk may lie next to other free chunks
  have hcut : Span.Cut ⟨b, 0, bs₁ ++ ⟨c.addr, c.size, none⟩ :: bs₂⟩ := by
    have htiles := Tiles.middle_iff.mp hX.tiles
    refine ⟨Tiles.middle_iff.mpr htiles, ?_⟩
    intro d hd
    rcases List.mem_append.mp hd with hd | hd
    · exact hX.ok d (List.mem_append_left _ hd)
    · rcases List.mem_cons.mp hd with rfl | hd
      · have hroom := hcok.room
        refine ⟨⟨hcok.aligned, hcok.sized, ?_⟩, hcin⟩
        show 32 ≤ c.size
        omega
      · exact hX.ok d (List.mem_append_right _ (List.mem_cons_of_mem _ hd))
  have hlaid : Laid out s.pager s.mem (⟨b, 0, bs₁ ++ ⟨c.addr, c.size, none⟩ :: bs₂⟩ :: Ys) := by
    refine ⟨h.out, ?_⟩
    intro Y hY
    rcases List.mem_cons.mp hY with rfl | hY
    · exact hcut
    · exact (h.ok Y (List.mem_cons_of_mem _ hY)).toCut
  have harr : ((bs₁ ++ (⟨c.addr, c.size, none⟩ : Chunk) :: bs₂) ++ Ys.flatMap Span.chunks).Perm
      (⟨c.addr, c.size, none⟩ :: (bs₁ ++ bs₂ ++ Ys.flatMap Span.chunks)) :=
    List.perm_middle.append_right _
  have harr' : ((bs₁ ++ c :: bs₂) ++ Ys.flatMap Span.chunks).Perm
      (c :: (bs₁ ++ bs₂ ++ Ys.flatMap Span.chunks)) := List.perm_middle.append_right _
  have hbooks := h.books.perm harr'
  obtain ⟨hbne, hbal, hblimit, -⟩ := hlaid.span hP List.mem_cons_self
  have hblimit : b + 4096 * 2 ^ 0 + 4096 ≤ 2 ^ 64 := hblimit
  obtain ⟨hchain₁, hchain₂, -⟩ := List.isChain_append.mp hX.merged
  -- the free chunks of the page are on the free list, and all of this is to come
  have hfree : ∀ d ∈ bs₁ ++ bs₂, d.free = true → d.addr ∈ free := fun d hd hfree =>
    (hbooks.drop hc).free.mem_iff.mpr (List.mem_map_of_mem
      (List.mem_filter.mpr ⟨List.mem_append_left _ hd, hfree⟩))
  refine ⟨hcut, ⟨hbne, hbal, by omega⟩, rfl, hchain₁, hchain₂.tail, ?_, ?_, hbooks.drop hc,
    h.books.size c (harr'.mem_iff.mpr List.mem_cons_self), (hlaid.apart hP hfl).perm harr, ?_, ?_,
    ?_⟩
  · exact fun d hd => hfree d (List.mem_append_left _ (List.mem_of_getLast? hd))
  · exact fun d hd => hfree d (List.mem_append_right _ (List.mem_of_mem_head? hd))
  · refine (hlaid.spares hP hfl ?_).perm harr
    intro e he
    refine (live_perm harr).mem_iff.mpr ?_
    rwa [live_cons_free rfl]
  · -- other spans are on other pages
    intro d hd _ hpage
    obtain ⟨Y, hY, hd⟩ := List.mem_flatMap.mp hd
    have hdisj := (Separated.cons_iff.mp (hP.separated _ _ _ h.out)).1 _ (List.mem_map_of_mem hY)
    have hin := (h.ok Y (List.mem_cons_of_mem _ hY)).within hd
    have hdok := ((h.ok Y (List.mem_cons_of_mem _ hY)).ok d hd).1
    have hbal : 4096 ∣ b := hbal
    refine hdisj.not_has (a := d.addr) ⟨?_, ?_⟩ (hin.has (hdok.has (by decide : 0 < 32)))
    · show b ≤ d.addr
      omega
    · show d.addr < b + 4096
      omega
  · intro d hd
    exact (h.laid.chunk hP (List.mem_append_right _ hd)).2.2.1

/-- **The chunk goes to the free list** when its page is still in use. -/
theorem insertHead_leads {l : List Extent} {X : Span} {done : List Nat}
    (hP : P.Lawful pageSize arena out) (hXe : X.extent = ⟨b, 4096⟩)
    (h : Hand (Spared arena fl (X :: Ys) l) fl b m bs₁ c bs₂ (Ys.flatMap Span.chunks) done [])
    (hout : out q m ((X :: Ys).map Span.extent)) (hYs : ∀ X ∈ Ys, X.Ok) (hsize : c.size ≠ 4096) :
    AgreeOn (Spared arena fl (X :: Ys) l) m (Tailq.insertHead Hdr.freelist m fl c.addr) ∧
      Out out fl q (Tailq.insertHead Hdr.freelist m fl c.addr)
        (live (bs₁ ++ bs₂ ++ Ys.flatMap Span.chunks)) := by
  have hagree := h.spares.insertHead h.books
  -- the list is at its end, so that a free neighbour would have been found
  have hleft : ∀ d ∈ bs₁.getLast?, d.free = false := fun d hd =>
    Bool.eq_false_iff.mpr fun hfree => List.not_mem_nil (h.leftmost d hd hfree)
  have hright : ∀ d ∈ bs₂.head?, d.free = false := fun d hd =>
    Bool.eq_false_iff.mpr fun hfree => List.not_mem_nil (h.rightmost d hd hfree)
  have hspan : Span.Ok ⟨b, 0, bs₁ ++ c :: bs₂⟩ := by
    refine ⟨h.cut, ?_, ?_, fun hne => absurd rfl hne⟩
    · refine List.isChain_append.mpr ⟨h.left, List.isChain_cons.mpr ⟨?_, h.right⟩, ?_⟩
      · exact fun d hd => Or.inr (hright d hd)
      · exact fun d hd _ _ => Or.inl (hleft d hd)
    · -- the chunk is not the whole page, so that it has a neighbour
      cases hlast : bs₁.getLast? with
      | some d =>
        exact ⟨d, List.mem_append_left _ (List.mem_of_getLast? hlast), hleft d hlast⟩
      | none =>
        cases hhead : bs₂.head? with
        | some d =>
          exact ⟨d, List.mem_append_right _
            (List.mem_cons_of_mem _ (List.mem_of_mem_head? hhead)), hright d hhead⟩
        | none =>
          obtain ⟨hstart, hstop⟩ := h.tiles
          rw [List.getLast?_eq_none_iff.mp hlast] at hstart
          rw [List.head?_eq_none_iff.mp hhead] at hstop
          have hstart : b = c.addr := hstart
          have hstop : c.addr + c.size = b + 4096 := hstop
          omega
  have hlow := h.chunk_within.1
  have hbne := h.base.1
  refine ⟨hagree, ⟨b, 0, bs₁ ++ c :: bs₂⟩ :: Ys, c.addr :: (done ++ []), ⟨?_, ?_, ?_⟩, ?_⟩
  · have hout := hP.store _ _ _ _ hout (hagree.mono fun a ha => Or.inr ha)
    rw [List.map_cons, hXe] at hout
    exact hout
  · intro Y hY
    rcases List.mem_cons.mp hY with rfl | hY
    · exact hspan
    · exact hYs Y hY
  · exact (h.books.give h.apart h.free (by omega) h.size).perm
      (List.perm_middle.append_right _).symm
  · rw [← live_cons_free h.free (bs₁ ++ bs₂ ++ Ys.flatMap Span.chunks)]
    exact live_perm (List.perm_middle.append_right _).symm

/-- The pages of a large block go back at once. -/
theorem xfree_large {p hdr : Nat} (hp : p ≠ 0) (hhdr : sub p (s.mem (sub p sizeofPad)) = hdr)
    (hsize : pageSize ≤ s.mem hdr) :
    xfree P fl fuel s p = .ok ⟨(P.freePages s.pager s.mem hdr (getOrder (s.mem hdr))).2,
      (P.freePages s.pager s.mem hdr (getOrder (s.mem hdr))).1⟩ := by
  simp only [xfree, if_neg hp, hhdr, if_pos hsize]

/-- A small block: neighbours are added, and what comes out is a page or goes to the free list. -/
theorem xfree_small {p hdr hdr' : Nat} {m' : Mem} (hp : p ≠ 0)
    (hhdr : sub p (s.mem (sub p sizeofPad)) = hdr) (hsize : ¬ pageSize ≤ s.mem hdr)
    (hpage : p &&& pageMask = hdr &&& pageMask)
    (hmerge : mergeFree fl fuel s.mem hdr (s.mem (Tailq.first fl)) = .ok (m', hdr')) :
    xfree P fl fuel s p =
      if m' hdr' = pageSize then
        if hdr' &&& (pageSize - 1) ≠ 0 then .error notPageStart
        else .ok ⟨(P.freePages s.pager m' hdr' 0).2, (P.freePages s.pager m' hdr' 0).1⟩
      else .ok ⟨Tailq.insertHead Hdr.freelist m' fl hdr', s.pager⟩ := by
  simp only [xfree, if_neg hp, hhdr, if_neg hsize, if_neg (not_not_intro hpage), hmerge, ok_bind]
  rfl

/-- The header of a block is found from the word in front of its data. -/
theorem Rep.header (h : Rep out fl s Xs free) (hP : P.Lawful pageSize arena out)
    (hc : c ∈ Xs.flatMap Span.chunks) (hused : c.free = false) :
    sub (c.addr + 32) (s.mem (sub (c.addr + 32) sizeofPad)) = c.addr := by
  have hroom := (h.laid.chunk hP hc).1.room
  have hlimit : c.addr + c.size + 4096 ≤ 2 ^ 64 := (h.laid.chunk hP hc).2.2.1
  have hpad : sub (c.addr + 32) sizeofPad = c.addr + 24 :=
    sub_eq (by show 8 ≤ c.addr + 32; omega) (by omega)
  rw [hpad, h.books.pad c hc hused, sub_eq (Nat.le_add_left _ _) (by omega), Nat.add_sub_cancel]

/-- **Whole pages** go back, in the order with which they were asked for. -/
theorem free_large_leads (fuel : Nat) (hP : P.Lawful pageSize arena out)
    (hfl : ∀ a, (headExtent fl).Has a → ¬ arena a)
    (h : Rep out fl s (⟨b, k, bs₁ ++ c :: bs₂⟩ :: Ys) free) (hused : c.free = false)
    (hlarge : 4096 ≤ c.size) :
    ∃ s', xfree P fl fuel s (c.addr + 32) = .ok s' ∧
      Leads arena out fl s (live (bs₁ ++ bs₂ ++ Ys.flatMap Span.chunks)) s'
        (live (bs₁ ++ bs₂ ++ Ys.flatMap Span.chunks)) := by
  have hc : c ∈ (⟨b, k, bs₁ ++ c :: bs₂⟩ :: Ys : List Span).flatMap Span.chunks :=
    List.mem_append_left _ (List.mem_append_right _ List.mem_cons_self)
  have hheader := h.header hP hc hused
  have hlimit : c.addr + c.size + 4096 ≤ 2 ^ 64 := (h.laid.chunk hP hc).2.2.1
  have hsize : s.mem c.addr = c.size := h.books.size c hc
  -- there is nothing else in the span
  obtain ⟨rfl, rfl, rfl, hpages⟩ := (h.ok _ List.mem_cons_self).eq_whole hlarge
  have horder : getOrder (s.mem c.addr) = k := by
    rw [hsize, hpages, getOrder_pages (by omega)]
  have hlead := freePages_leads hP hfl h.out (fun Y hY => h.ok Y (List.mem_cons_of_mem _ hY))
    (h.books.drop hused)
  refine ⟨_, xfree_large (Nat.succ_ne_zero _) hheader (by rw [hsize]; exact hlarge), ?_⟩
  rw [horder]
  exact hlead

/-- **A chunk of a page** is joined with its neighbours; then its page goes back, or it goes to the
free list. -/
theorem free_small_leads (hP : P.Lawful pageSize arena out)
    (hfl : ∀ a, (headExtent fl).Has a → ¬ arena a)
    (h : Rep out fl s (⟨b, 0, bs₁ ++ c :: bs₂⟩ :: Ys) free) (hfuel : free.length < fuel)
    (hused : c.free = false) (hsmall : ¬ 4096 ≤ c.size) :
    ∃ s', xfree P fl fuel s (c.addr + 32) = .ok s' ∧
      Leads arena out fl s (live (bs₁ ++ bs₂ ++ Ys.flatMap Span.chunks)) s'
        (live (bs₁ ++ bs₂ ++ Ys.flatMap Span.chunks)) := by
  have hX := h.ok _ List.mem_cons_self
  have hYs : ∀ Y ∈ Ys, Y.Ok := fun Y hY => h.ok Y (List.mem_cons_of_mem _ hY)
  have hc : c ∈ (⟨b, 0, bs₁ ++ c :: bs₂⟩ :: Ys : List Span).flatMap Span.chunks :=
    List.mem_append_left _ (List.mem_append_right _ List.mem_cons_self)
  have hlimit : c.addr + c.size + 4096 ≤ 2 ^ 64 := (h.laid.chunk hP hc).2.2.1
  have hbal : 4096 ∣ b := (h.laid.span hP List.mem_cons_self).2.1
  have hlow : b ≤ c.addr := (hX.within (List.mem_append_right _ List.mem_cons_self)).1
  have hin : c.addr + 32 < b + 4096 := (hX.ok c (List.mem_append_right _ List.mem_cons_self)).2
  -- data and header are on one page, so the check in front of the search passes
  have hpage : (c.addr + 32) &&& pageMask = c.addr &&& pageMask := by
    rw [pageMask_eq (by omega), pageMask_eq (by omega)]
    omega
  obtain ⟨m', bs₁', c', bs₂', done', hmerge, hhand, hagree, hsame⟩ :=
    mergeFree_spec (h.hand hP hfl hused) hfuel
  rw [← Tailq.first_eq h.books.queue] at hmerge
  have hout := hP.store _ _ _ _ h.out (hagree.mono fun a ha => Or.inr ha)
  -- the search has moved no block that is out
  have hl : live (bs₁ ++ bs₂ ++ Ys.flatMap Span.chunks) =
      live (bs₁' ++ bs₂' ++ Ys.flatMap Span.chunks) := by
    rw [live_append, live_append (bs₁' ++ bs₂'), hsame]
  have hsize : s.mem c.addr = c.size := h.books.size c hc
  have hfree := xfree_small (P := P) (Nat.succ_ne_zero (c.addr + 31)) (h.header hP hc hused)
    (by rw [hsize]; exact hsmall) hpage hmerge
  have hkept : AgreeOn (Malloc.Kept (Arena arena fl)
      (live (bs₁ ++ bs₂ ++ Ys.flatMap Span.chunks))) s.mem m' :=
    hagree.mono fun a ha => Or.inl ha
  by_cases hwhole : c'.size = 4096
  · -- the page is free
    obtain ⟨rfl, rfl, hbase, -⟩ := hhand.cut.eq_whole (by rw [hwhole]; decide)
    have hoffset : ¬ c'.addr &&& (pageSize - 1) ≠ 0 := by
      rw [pageOffset_eq]
      omega
    have hsize' : m' c'.addr = pageSize := hhand.size.trans hwhole
    rw [if_pos hsize', if_neg hoffset, hbase] at hfree
    obtain ⟨hagree', hout'⟩ := freePages_leads (k := 0) (q := s.pager) (m := m') hP hfl hout hYs
      hhand.books
    rw [List.nil_append, List.nil_append] at hl
    rw [hl] at hkept ⊢
    exact ⟨_, hfree, hkept.trans hagree', hout'⟩
  · -- a part of the page stays in use
    have hsize' : ¬ m' c'.addr = pageSize := by
      rw [show m' c'.addr = c'.size from hhand.size]
      exact hwhole
    rw [if_neg hsize'] at hfree
    obtain ⟨hagree', hout'⟩ := insertHead_leads hP rfl hhand hout hYs hwhole
    refine ⟨_, hfree, hkept.trans (hagree'.mono fun a ha => Or.inl ha), ?_⟩
    rw [hl]
    exact hout'

/-- **`free`** takes the block, and does not write to the other ones. -/
theorem free_leads (hP : P.Lawful pageSize arena out)
    (hfl : ∀ a, (headExtent fl).Has a → ¬ arena a) (h : Rep out fl s Xs free)
    (hfuel : free.length < fuel) {e : Extent} (he : e ∈ live (Xs.flatMap Span.chunks)) :
    ∃ s' l, xfree P fl fuel s e.base = .ok s' ∧ (live (Xs.flatMap Span.chunks)).Perm (e :: l) ∧
      Leads arena out fl s l s' l := by
  obtain ⟨c, hc, hce⟩ := mem_live he
  obtain ⟨n, hn, rfl⟩ := Chunk.data_eq hce
  have hused : c.free = false := by rw [Chunk.free, hn]; rfl
  obtain ⟨b, k, bs₁, bs₂, Ys, hp⟩ := exists_around hc
  have hrep := h.perm hP hp
  have hlive : (live (Xs.flatMap Span.chunks)).Perm
      (⟨c.addr + 32, n⟩ :: live (bs₁ ++ bs₂ ++ Ys.flatMap Span.chunks)) := by
    have hcons : live (c :: (bs₁ ++ bs₂ ++ Ys.flatMap Span.chunks)) =
        ⟨c.addr + 32, n⟩ :: live (bs₁ ++ bs₂ ++ Ys.flatMap Span.chunks) :=
      List.filterMap_cons_some hce
    rw [← hcons]
    exact live_perm ((hp.flatMap_right _).trans (List.perm_middle.append_right _))
  by_cases hlarge : 4096 ≤ c.size
  · obtain ⟨s', heq, hlead⟩ := free_large_leads fuel hP hfl hrep hused hlarge
    exact ⟨s', _, heq, hlive, hlead⟩
  · -- only a span of one page has chunks that are smaller
    obtain rfl : k = 0 := by
      by_contra hk
      have hpos := Nat.two_pow_pos k
      have hpages := (hrep.ok _ List.mem_cons_self).size_eq hk
      omega
    obtain ⟨s', heq, hlead⟩ := free_small_leads hP hfl hrep hfuel hused hlarge
    exact ⟨s', _, heq, hlive, hlead⟩

end Free

end Unikernel.Xmalloc
