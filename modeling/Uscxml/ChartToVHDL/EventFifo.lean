import Uscxml.Lib.RingBuffer

/-!
# The event queue of `ChartToVHDL`

`writeFiFo` writes one clocked process for the queue of events. A cycle may read and write at once; the flags are
outputs that keep their values until they are assigned. An event of the state chart is a word of `data_in`.
-/

namespace Uscxml

namespace ChartToVHDL

/-- The variables and outputs of `fifo_proc`. `data_out` is undriven before the first read. -/
structure Fifo (α : Type) (depth : Nat) where
  buffer : RingBuffer α depth
  dataOut : Option α
  full : Bool
  empty : Bool

structure FifoInput (α : Type) where
  rst : Bool := false
  writeEn : Bool
  readEn : Bool
  dataIn : α

namespace Fifo

variable {α : Type} {depth : Nat}

def read (i : FifoInput α) (f : Fifo α depth) : Fifo α depth :=
  if i.readEn = true then
    if h : f.buffer.CanRead then { f with dataOut := some (f.buffer.memory f.buffer.tail), buffer := f.buffer.drop h }
    else f
  else f

def write (i : FifoInput α) (f : Fifo α depth) : Fifo α depth :=
  if i.writeEn = true then
    if h : f.buffer.CanWrite then { f with buffer := f.buffer.push h i.dataIn } else f
  else f

/-- Update empty and full flags. Each branch assigns only one of them while the positions are equal. -/
def updateFlags (f : Fifo α depth) : Fifo α depth :=
  if f.buffer.head = f.buffer.tail then
    if f.buffer.looped = true then { f with full := true } else { f with empty := true }
  else { f with empty := false, full := false }

def clock (f : Fifo α depth) (i : FifoInput α) : Fifo α depth :=
  if i.rst = true then { f with buffer := f.buffer.clear, full := false, empty := true }
  else updateFlags (write i (read i f))

end Fifo

/-- What the queue is for: it holds what was written, up to `depth` events, and hands the first one out. -/
structure EventQueue (α : Type) where
  items : List α := []
  handedOut : Option α

namespace EventQueue

variable {α : Type}

def take (readEn : Bool) (q : EventQueue α) : EventQueue α :=
  if readEn = true then ⟨q.items.tail, q.items.head?.or q.handedOut⟩ else q

/-- Put an event behind the others, if there is room. -/
def put (depth : Nat) (writeEn : Bool) (a : α) (q : EventQueue α) : EventQueue α :=
  if writeEn = true ∧ q.items.length < depth then { q with items := q.items ++ [a] } else q

def clock (depth : Nat) (q : EventQueue α) (i : FifoInput α) : EventQueue α :=
  if i.rst = true then { q with items := [] } else put depth i.writeEn i.dataIn (take i.readEn q)

def accepted (depth : Nat) : EventQueue α → List (FifoInput α) → List α
  | _, [] => []
  | q, i :: l =>
    (if i.writeEn = true ∧ (q.take i.readEn).items.length < depth then [i.dataIn] else []) ++ accepted depth (q.clock depth i) l

def delivered (depth : Nat) : EventQueue α → List (FifoInput α) → List α
  | _, [] => []
  | q, i :: l => (if i.readEn = true then q.items.head?.toList else []) ++ delivered depth (q.clock depth i) l

variable {depth : Nat} {q : EventQueue α}

theorem take_items (readEn : Bool) :
    q.items = (if readEn = true then q.items.head?.toList else []) ++ (q.take readEn).items := by
  rw [take]
  split
  · cases q.items with
    | nil => rfl
    | cons a l => rfl
  · rfl

theorem put_items (writeEn : Bool) (a : α) :
    (q.put depth writeEn a).items = q.items ++ if writeEn = true ∧ q.items.length < depth then [a] else [] := by
  rw [put]
  split
  · rfl
  · exact (List.append_nil _).symm

/-- Nothing is lost, nothing doubled and nothing overtakes. -/
theorem items_append_accepted {l : List (FifoInput α)} (hl : ∀ i ∈ l, i.rst = false) :
    q.items ++ accepted depth q l = delivered depth q l ++ (l.foldl (clock depth) q).items := by
  induction l generalizing q with
  | nil => exact List.append_nil _
  | cons i l ih =>
    have hclock : q.clock depth i = put depth i.writeEn i.dataIn (take i.readEn q) := by
      rw [clock, hl i List.mem_cons_self]
      rfl
    have hitems := take_items (q := q) i.readEn
    have hput : ((q.take i.readEn).put depth i.writeEn i.dataIn).items = _ := put_items i.writeEn i.dataIn
    rw [← hclock] at hput
    rw [accepted, delivered, List.foldl_cons, List.append_assoc, ← ih fun j hj => hl j (List.mem_cons_of_mem i hj), hput]
    nth_rewrite 1 [hitems]
    rw [List.append_assoc, List.append_assoc]

end EventQueue

structure Holds {α : Type} {depth : Nat} (f : Fifo α depth) (q : EventQueue α) : Prop where
  contents : f.buffer.contents = q.items
  dataOut : f.dataOut = q.handedOut

/-- The flags say whether the queue is full and whether it is empty. -/
structure FlagsExact {α : Type} {depth : Nat} (f : Fifo α depth) : Prop where
  full : f.full = true ↔ f.buffer.contents.length = depth
  empty : f.empty = true ↔ f.buffer.contents = []

namespace Fifo

variable {α : Type} {depth : Nat} {f : Fifo α depth} {q : EventQueue α} {i : FifoInput α}

theorem read_holds (h : Holds f q) : Holds (read i f) (q.take i.readEn) := by
  rw [read, EventQueue.take]
  split
  · by_cases hread : f.buffer.CanRead
    · rw [dif_pos hread, ← h.contents, RingBuffer.contents_eq_cons _ hread]
      exact ⟨rfl, rfl⟩
    · have hnone : f.buffer.contents = [] := by
        rw [← List.length_eq_zero_iff, RingBuffer.length_contents]
        exact not_not.mp (f.buffer.canRead_iff.not.mp hread)
      rw [dif_neg hread, ← h.contents, hnone]
      exact ⟨hnone, h.dataOut⟩
  · exact h

theorem write_holds (h : Holds f q) : Holds (write i f) (q.put depth i.writeEn i.dataIn) := by
  have hle := f.buffer.length_le
  rw [write, EventQueue.put, ← h.contents, RingBuffer.length_contents]
  by_cases hen : i.writeEn = true
  · rw [if_pos hen]
    by_cases hroom : f.buffer.CanWrite
    · rw [dif_pos hroom, if_pos ⟨hen, lt_of_le_of_ne hle (f.buffer.canWrite_iff.mp hroom)⟩]
      exact ⟨RingBuffer.contents_push _ hroom _, h.dataOut⟩
    · have hfull : f.buffer.length = depth := not_not.mp (f.buffer.canWrite_iff.not.mp hroom)
      rw [dif_neg hroom, if_neg (by omega)]
      exact h
  · rw [if_neg hen, if_neg fun hboth => hen hboth.1]
    exact h

theorem updateFlags_holds (h : Holds f q) : Holds (updateFlags f) q := by
  rw [updateFlags]
  split
  · split
    · exact ⟨h.contents, h.dataOut⟩
    · exact ⟨h.contents, h.dataOut⟩
  · exact ⟨h.contents, h.dataOut⟩

/-- A cycle of the process is one of the queue. -/
theorem clock_holds (h : Holds f q) : Holds (f.clock i) (q.clock depth i) := by
  rw [clock, EventQueue.clock]
  split
  · exact ⟨RingBuffer.contents_clear _, h.dataOut⟩
  · exact updateFlags_holds (write_holds (read_holds h))

theorem length_write_read :
    (write i (read i f)).buffer.length ≤ f.buffer.length + 1 ∧ f.buffer.length ≤ (write i (read i f)).buffer.length + 1 := by
  have hread : (read i f).buffer.length ≤ f.buffer.length ∧ f.buffer.length ≤ (read i f).buffer.length + 1 := by
    rw [read]
    split
    · split
      · rename_i h
        have hdrop := RingBuffer.length_drop f.buffer h
        dsimp only
        constructor <;> omega
      · constructor <;> omega
    · constructor <;> omega
  rw [write]
  split
  · split
    · rename_i h
      have hpush := RingBuffer.length_push _ h i.dataIn
      dsimp only
      constructor <;> omega
    · constructor <;> omega
  · constructor <;> omega

theorem write_read_flags : (write i (read i f)).full = f.full ∧ (write i (read i f)).empty = f.empty := by
  have hread : (read i f).full = f.full ∧ (read i f).empty = f.empty := by
    rw [read]
    split
    · split
      · exact ⟨rfl, rfl⟩
      · exact ⟨rfl, rfl⟩
    · exact ⟨rfl, rfl⟩
  rw [write]
  split
  · split
    · exact hread
    · exact hread
  · exact hread

theorem flagsExact_iff : FlagsExact f ↔ (f.full = true ↔ f.buffer.length = depth) ∧ (f.empty = true ↔ f.buffer.length = 0) := by
  have hnil : f.buffer.contents = [] ↔ f.buffer.length = 0 := by
    rw [← List.length_eq_zero_iff, RingBuffer.length_contents]
  constructor
  · rintro ⟨hfull, hempty⟩
    rw [RingBuffer.length_contents] at hfull
    exact ⟨hfull, hempty.trans hnil⟩
  · rintro ⟨hfull, hempty⟩
    refine ⟨?_, hempty.trans hnil.symm⟩
    rw [RingBuffer.length_contents]
    exact hfull

/-- The flag that a cycle does not assign is still right: the queue cannot run from empty to full, or back, in a cycle. -/
theorem clock_flags (hdepth : 2 ≤ depth) (h : FlagsExact f) : FlagsExact (f.clock i) := by
  rw [flagsExact_iff] at h ⊢
  obtain ⟨hfull, hempty⟩ := h
  rw [clock]
  split
  · have hclear := RingBuffer.length_contents f.buffer.clear
    rw [RingBuffer.contents_clear, List.length_nil] at hclear
    refine ⟨?_, ?_⟩
    · show false = true ↔ f.buffer.clear.length = depth
      rw [← hclear]
      simp only [Bool.false_eq_true, false_iff]
      omega
    · show true = true ↔ f.buffer.clear.length = 0
      rw [← hclear]
      simp
  · obtain ⟨hup, hdown⟩ := length_write_read (i := i) (f := f)
    obtain ⟨hsamefull, hsameempty⟩ := write_read_flags (i := i) (f := f)
    generalize write i (read i f) = g at *
    have hread := g.buffer.canRead_iff
    have hwrite := g.buffer.canWrite_iff
    rw [RingBuffer.CanRead] at hread
    rw [RingBuffer.CanWrite] at hwrite
    rw [updateFlags]
    by_cases hpos : g.buffer.head = g.buffer.tail
    · rw [if_pos hpos]
      simp only [hpos, ne_eq, not_true_eq_false, or_false] at hread hwrite
      split
      · rename_i hlooped
        simp only [hlooped, true_iff] at hread
        simp only [hlooped, Bool.true_eq_false, false_iff, not_not] at hwrite
        refine ⟨?_, ?_⟩
        · simp [hwrite]
        · show g.empty = true ↔ g.buffer.length = 0
          rw [hsameempty, hempty]
          omega
      · rename_i hlooped
        simp only [hlooped, Bool.false_eq_true, false_iff, not_not] at hread
        refine ⟨?_, ?_⟩
        · show g.full = true ↔ g.buffer.length = depth
          rw [hsamefull, hfull]
          omega
        · simp [hread]
    · rw [if_neg hpos]
      simp only [hpos, ne_eq, not_false_eq_true, or_true, true_iff] at hread hwrite
      exact ⟨by simp [hwrite], by simp [hread]⟩

/-- After a reset the process is a queue: it holds what was written and not yet read, in this order, its flags are exact,
and an event is accepted whenever the queue is not full. -/
theorem fifo_exact (f : Fifo α (depth + 2)) (r : FifoInput α) {l : List (FifoInput α)} (hl : ∀ i ∈ l, i.rst = false) :
    let q : EventQueue α := { handedOut := f.dataOut }
    let g := l.foldl clock (f.clock { r with rst := true })
    Holds g (l.foldl (EventQueue.clock (depth + 2)) q) ∧ FlagsExact g ∧
      q.accepted (depth + 2) l = q.delivered (depth + 2) l ++ g.buffer.contents := by
  have hreset : Holds (f.clock { r with rst := true }) { handedOut := f.dataOut } :=
    ⟨RingBuffer.contents_clear _, rfl⟩
  have hflags : FlagsExact (f.clock { r with rst := true }) := by
    refine ⟨?_, ?_⟩
    · show false = true ↔ f.buffer.clear.contents.length = depth + 2
      rw [RingBuffer.contents_clear]
      simp
    · show true = true ↔ f.buffer.clear.contents = []
      rw [RingBuffer.contents_clear]
      simp
  have hrun : ∀ {g : Fifo α (depth + 2)} {q : EventQueue α}, Holds g q → FlagsExact g →
      Holds (l.foldl clock g) (l.foldl (EventQueue.clock (depth + 2)) q) ∧ FlagsExact (l.foldl clock g) := by
    clear hl
    induction l with
    | nil => exact fun hg hf => ⟨hg, hf⟩
    | cons i l ih => exact fun hg hf => ih (clock_holds hg) (clock_flags (Nat.le_add_left 2 depth) hf)
  obtain ⟨hholds, hexact⟩ := hrun hreset hflags
  refine ⟨hholds, hexact, ?_⟩
  rw [hholds.contents]
  exact EventQueue.items_append_accepted (q := { handedOut := f.dataOut }) hl

/-- The process when it is powered on, with an undriven output. -/
def powerOn (memory : Fin (depth + 1) → α) : Fifo α (depth + 1) := ⟨.ofMemory memory, none, false, false⟩

def threeCycles : List (FifoInput Nat) := [⟨false, true, false, 5⟩, ⟨false, true, true, 6⟩, ⟨false, true, false, 7⟩]

/-- A queue of the emitted depth hands the first of three events out and holds the others. -/
theorem fifo_exact_threeCycles :
    let f : Fifo Nat 256 := powerOn fun _ => 0
    let g := threeCycles.foldl clock (f.clock ⟨true, false, false, 0⟩)
    g.dataOut = some 5 ∧ g.buffer.contents = [6, 7] ∧ FlagsExact g := by
  have hcycles : ∀ i ∈ threeCycles, i.rst = false := by decide
  obtain ⟨⟨hcontents, hout⟩, hflags, -⟩ :=
    fifo_exact (powerOn fun _ => 0 : Fifo Nat (254 + 2)) ⟨false, false, false, 0⟩ hcycles
  exact ⟨hout, hcontents, hflags⟩

end Fifo

end ChartToVHDL

end Uscxml
