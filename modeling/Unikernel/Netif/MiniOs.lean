import Unikernel.Lib.Machine
import Unikernel.Lib.Ring

/-!
# netiflib on mini-OS: the receive queue

The two sides of the receive queue of `Libs/netiflib/netif-miniOS.c`: the network
driver calls `netif_rx` for each packet, the stack calls `Receive`. They share two
arrays of `QUEUE_SIZE` cells and two positions; `Receive` waits while its next
position is the write position.

`netif_rx` does not look at the read position. With `QUEUE_SIZE - 1` packets unread
one more makes the two positions meet, which reads as an empty queue, and the ones
after that overwrite what was not read. `fifo_iff_room` says that this is the
only way to lose a packet.
-/

namespace Unikernel.Netif

/-- `QUEUE_SIZE`. -/
def queueSize : Nat := 1000

instance : NeZero queueSize := ⟨by decide⟩

variable {α : Type}

/-- The global variables of the queue. A packet is the pointer and the length that
`netif_rx` got. -/
structure Queue (α : Type) where
  dataPtrs : Fin queueSize → α
  dataLengths : Fin queueSize → Int
  writePos : Fin queueSize
  readPos : Fin queueSize

/-- The queue at start-up, with its arrays zeroed. -/
def Queue.init (null : α) : Queue α where
  dataPtrs := fun _ => null
  dataLengths := fun _ => 0
  writePos := 1
  readPos := 0

/-- `(pos + 1) % QUEUE_SIZE`. -/
def nextPos (pos : Fin queueSize) : Fin queueSize :=
  ⟨(pos.val + 1) % queueSize, Nat.mod_lt _ (by decide)⟩

def netifRx (q : Queue α) (data : α) (len : Int) : Queue α :=
  let newWritePos := nextPos q.writePos
  { q with
    dataPtrs := Function.update q.dataPtrs q.writePos data
    dataLengths := Function.update q.dataLengths q.writePos len
    writePos := newWritePos }

/-- `Receive` does not wait. -/
def Queue.Ready (q : Queue α) : Prop := nextPos q.readPos ≠ q.writePos

instance (q : Queue α) : Decidable q.Ready := inferInstanceAs (Decidable (_ ≠ _))

/-- `Receive` once it does not wait any more: the packet that it converts to a
string, and the queue that it leaves. -/
def receive (q : Queue α) : (α × Int) × Queue α :=
  let newReadPos := nextPos q.readPos
  ((q.dataPtrs newReadPos, q.dataLengths newReadPos), { q with readPos := newReadPos })

/-- One step of either side. A `Receive` that has to wait changes nothing. -/
def Queue.step (q : Queue α) : Fifo.Op (α × Int) → Queue α × List (α × Int)
  | .put (data, len) => (netifRx q data len, [])
  | .get => if q.Ready then ((receive q).2, [(receive q).1]) else (q, [])

/-! ## What the queue holds -/

/-- The unread packets, oldest first. -/
structure Queue.Unread (q : Queue α) (l : List (α × Int)) : Prop where
  room : l.length < queueSize
  placed : ∃ read : Nat, q.readPos = Ring.slot queueSize read ∧
    q.writePos = Ring.slot queueSize (read + 1 + l.length) ∧
    Ring.Holds q.dataPtrs (read + 1) (l.map Prod.fst) ∧
    Ring.Holds q.dataLengths (read + 1) (l.map Prod.snd)

variable {q : Queue α} {l : List (α × Int)}

theorem unread_init (null : α) : (Queue.init null).Unread [] where
  room := Nat.zero_lt_succ 999
  placed := ⟨0, rfl, rfl, Ring.holds_nil, Ring.holds_nil⟩

theorem nextPos_slot (k : Nat) :
    nextPos (Ring.slot queueSize k) = Ring.slot queueSize (k + 1) :=
  Ring.slot_succ k _

/-- `Receive` is enabled exactly when something is unread. -/
theorem Queue.Unread.ready_iff (h : q.Unread l) : q.Ready ↔ l ≠ [] := by
  obtain ⟨hroom, read, hread, hwrite, -, -⟩ := h
  have hinj : Ring.slot queueSize (read + 1 + 0) = Ring.slot queueSize (read + 1 + l.length) ↔
      0 = l.length := Ring.slot_add_inj (Nat.zero_lt_of_lt hroom) hroom
  rw [Queue.Ready, hread, hwrite, nextPos_slot, Ne, ← Nat.add_zero (read + 1), Nat.add_zero, hinj,
    eq_comm, List.length_eq_zero_iff]

/-- A packet is put behind the unread ones, if a cell is left between the positions. -/
theorem Queue.Unread.put (h : q.Unread l) (hroom : l.length + 1 < queueSize) (data : α)
    (len : Int) : (netifRx q data len).Unread (l ++ [(data, len)]) := by
  obtain ⟨-, read, hread, hwrite, hptrs, hlens⟩ := h
  have hptr := hptrs.push (by rw [List.length_map]; omega) data
  have hlen := hlens.push (by rw [List.length_map]; omega) len
  rw [List.length_map, ← hwrite] at hptr hlen
  refine ⟨by rwa [List.length_append], read, hread, ?_, ?_, ?_⟩
  · show nextPos q.writePos = _
    rw [hwrite, nextPos_slot, List.length_append, List.length_singleton, Nat.add_assoc]
  · rw [List.map_append]
    exact hptr
  · rw [List.map_append]
    exact hlen

/-- `Receive` takes the oldest of them. -/
theorem Queue.Unread.get {p : α × Int} (h : q.Unread (p :: l)) :
    (receive q).1 = p ∧ (receive q).2.Unread l := by
  obtain ⟨hroom, read, hread, hwrite, hptrs, hlens⟩ := h
  have hnext : nextPos q.readPos = Ring.slot queueSize (read + 1) := by
    rw [hread, nextPos_slot]
  rw [List.length_cons] at hroom hwrite
  refine ⟨?_, by omega, read + 1, hnext, ?_, hptrs.tail, hlens.tail⟩
  · show (q.dataPtrs (nextPos q.readPos), q.dataLengths (nextPos q.readPos)) = p
    rw [hnext, hptrs.head, hlens.head]
  · show q.writePos = _
    rw [hwrite, Nat.add_assoc (read + 1), Nat.add_comm 1]

/-- One packet too many, and `Receive` is not enabled at all. -/
theorem Queue.Unread.overrun (h : q.Unread l) (hfull : queueSize ≤ l.length + 1) (data : α)
    (len : Int) : ¬ (netifRx q data len).Ready := by
  obtain ⟨hroom, read, hread, hwrite, -, -⟩ := h
  have hround : read + 1 + l.length + 1 = read + 1 + queueSize := by omega
  rw [Queue.Ready, not_not]
  show nextPos q.readPos = nextPos q.writePos
  rw [hread, hwrite, nextPos_slot, nextPos_slot, hround, Ring.slot_self]

/-! ## Runs -/

/-- The queue does, along the run, what a queue with room for `QUEUE_SIZE - 1` packets
may do with the unread packets `l`: `Receive` returns them in order, each once, and
only a packet that comes when it is full may be dropped; and at every moment `Receive`
is enabled exactly when a packet is unread. -/
def Queue.Lawful : Queue α → List (α × Int) → List (Fifo.Op (α × Int)) → Prop :=
  Machine.Follows Queue.step (Fifo.Bounded (queueSize - 1)) fun q l => q.Ready ↔ l ≠ []

/-- A step that has room does what the queue as such does. -/
theorem Queue.Unread.step (h : q.Unread l) {op : Fifo.Op (α × Int)}
    (hroom : Fifo.Room (queueSize - 1) l op) :
    (q.step op).1.Unread (Fifo.step l op).1 ∧ (q.step op).2 = (Fifo.step l op).2 := by
  cases op with
  | put p =>
    have hlen : l.length < queueSize - 1 := hroom
    exact ⟨h.put (by omega) p.1 p.2, rfl⟩
  | get =>
    cases l with
    | nil =>
      have hwait : ¬ q.Ready := mt h.ready_iff.mp (not_not_intro rfl)
      rw [Queue.step, if_neg hwait]
      exact ⟨h, rfl⟩
    | cons p l =>
      rw [Queue.step, if_pos (h.ready_iff.mpr (List.cons_ne_nil _ _))]
      exact ⟨h.get.2, congrArg (fun p => [p]) h.get.1⟩

theorem lawful_iff_room (h : q.Unread l) (ops : List (Fifo.Op (α × Int))) :
    q.Lawful l ops ↔ Machine.Along Fifo.step (Fifo.Room (queueSize - 1)) l ops := by
  refine Machine.follows_iff (fun q l h => h.ready_iff) ?_ ?_ h ops
  · intro q l op h hroom
    obtain ⟨hnext, hout⟩ := h.step hroom
    refine ⟨hnext, ?_⟩
    intro l'
    rw [Fifo.bounded_iff hroom, hout, Prod.ext_iff]
    exact and_iff_left rfl
  · intro q l op h hno l' hspec hfits
    cases op with
    | get => exact hno trivial
    | put p =>
      have hfull : queueSize - 1 ≤ l.length := Nat.not_lt.mp hno
      refine h.overrun (by omega) p.1 p.2 (hfits.mpr ?_)
      -- put or dropped, packets are unread
      cases hspec with
      | step => exact List.append_ne_nil_of_right_ne_nil _ (List.cons_ne_nil _ _)
      | drop => exact List.ne_nil_of_length_pos (Nat.lt_of_lt_of_le (by decide) hfull)

/-- **The receive queue**: from start-up, a run of `netif_rx` and `Receive` keeps every
packet in order and never blocks on an unread one if and only if no packet comes while
`QUEUE_SIZE - 1` are unread. -/
theorem fifo_iff_room (null : α) (ops : List (Fifo.Op (α × Int))) :
    (Queue.init null).Lawful [] ops ↔
      Machine.Along Fifo.step (Fifo.Room (queueSize - 1)) [] ops :=
  lawful_iff_room (unread_init null) ops

/-- Packets that all find room fit into the queue together. -/
theorem length_le_of_room {n : Nat} {l ps : List (α × Int)} (hlen : l.length ≤ n)
    (h : Machine.Along Fifo.step (Fifo.Room n) l (ps.map .put)) : l.length + ps.length ≤ n := by
  induction ps generalizing l with
  | nil => simpa using hlen
  | cons p ps ih =>
    obtain ⟨hroom, hrest⟩ := h
    have hput : l.length < n := hroom
    have hall := ih (l := l ++ [p]) (by rw [List.length_append]; exact hput) hrest
    rw [List.length_append, List.length_singleton] at hall
    rw [List.length_cons]
    omega

/-- A burst that `Receive` does not interrupt must fit. -/
theorem not_lawful_of_burst (null : α) {ps : List (α × Int)} (hlen : queueSize ≤ ps.length) :
    ¬ (Queue.init null).Lawful [] (ps.map .put) := by
  intro h
  have hfits := length_le_of_room (Nat.zero_le _) ((lawful_iff_room (unread_init null) _).mp h)
  rw [List.length_nil] at hfits
  have hpos : 0 < queueSize := by decide
  omega

/-- A thousand packets, and no `Receive`. -/
theorem burst_not_lawful :
    ¬ (Queue.init 0).Lawful [] (((List.range 1000).map fun i => (i, 60)).map .put) :=
  not_lawful_of_burst 0 (by rw [List.length_map, List.length_range]; exact Nat.le_refl _)

end Unikernel.Netif
