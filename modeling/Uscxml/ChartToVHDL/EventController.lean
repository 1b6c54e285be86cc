import Uscxml.ChartToVHDL.EventCodes
import Uscxml.ChartToVHDL.EventFifo

/-!
# The event controller of `ChartToVHDL`

`writeEventController` writes a clocked process that raises the events of executable content one after the other, while the
micro stepper is stalled. A block of content is active by a line of the micro stepper, which keeps its values meanwhile.
-/

namespace Uscxml

namespace ChartToVHDL

/-- The blocks of executable content, each with its input line. -/
inductive Block where
  | onentry (documentOrder : Nat)
  | onexit (documentOrder : Nat)
  | transition (postFixOrder : Nat)
  deriving DecidableEq

/-- A `<raise>` or `<send>` with its block, which `getLineForExecContent` finds. -/
structure ContentElement where
  block : Block
  event : List Char

/-- `_execContent`, with the blocks whose lines stall the micro stepper. -/
structure ExecContent where
  elements : List ContentElement
  blocks : List Block
  listed : ∀ e ∈ elements, e.block ∈ blocks
  eventNames : List (List Char)

structure Controller where
  done : Nat → Bool
  eventBus : List Char
  eventWe : Bool
  cmplBuf : Bool
  completed : Bool

namespace Controller

section Write

variable (x : ExecContent) (active : Block → Bool)

def line (i : Nat) : Bool := x.elements[i]?.any fun e => active e.block

/-- `seq_i_sig`: the element is next. -/
def seq (done : Nat → Bool) : Nat → Bool
  | 0 => true
  | i + 1 => done i || (!line x active (i + 1) && seq done i)

def start (done : Nat → Bool) (i : Nat) : Bool := line x active i && !done i && seq x active done i

/-- Stalling the micro stepper. Without content there is nothing to wait for. -/
def microStepperEn (c : Controller) : Bool :=
  if x.elements = [] then true else c.completed || !x.blocks.any active

/-- What is put on the bus for an element. -/
def busWord (i : Nat) : List Char := encode x.eventNames ((x.elements[i]?.map (·.event)).getD [])

def reset : Controller where
  done _ := false
  eventBus := List.replicate (eventBitSize x.eventNames + 1) '0'
  eventWe := false
  cmplBuf := false
  completed := false

/-- `ex_content_block` at a rising edge of the clock. -/
def clock (rst : Bool) (c : Controller) : Controller :=
  if rst then reset x
  else
    let c' :=
      { c with
        cmplBuf := if microStepperEn x active c then false else seq x active c.done (x.elements.length - 1)
        completed := c.cmplBuf }
    match (List.range x.elements.length).find? (start x active c.done) with
    | some i => { c' with eventBus := busWord x i, done := Function.update c.done i true, eventWe := true }
    | none => if microStepperEn x active c then { c' with done := fun _ => false, eventWe := false } else c'

/-- The registers after some cycles in which the lines keep their values. -/
def after (c : Controller) (m : Nat) : Controller := (clock x active false)^[m] c

/-- The words that the queue takes from the bus at the first rising edges. -/
def written (c : Controller) (m : Nat) : List (List Char) :=
  (((List.range m).map (after x active c)).filter (·.eventWe)).map (·.eventBus)

def leading : List ContentElement := x.elements.takeWhile fun e => active e.block

/-- No active element stands behind one that is not. -/
def Leading : Prop := ∀ e ∈ x.elements.dropWhile fun e => active e.block, active e.block = false

instance : Decidable (Leading x active) := inferInstanceAs (Decidable (∀ e ∈ _, _))

end Write

section Sequence

variable (x : ExecContent) (active : Block → Bool)

theorem line_eq (i : Nat) :
    line x active i =
      if i < (leading x active).length then true
      else ((x.elements.dropWhile fun e => active e.block)[i - (leading x active).length]?).any fun e => active e.block := by
  have hsplit : x.elements = leading x active ++ x.elements.dropWhile fun e => active e.block :=
    (List.takeWhile_append_dropWhile ..).symm
  rw [line]
  nth_rewrite 1 [hsplit]
  split
  · rename_i h
    rw [List.getElem?_append_left h, List.getElem?_eq_getElem h, Option.any_some]
    exact List.mem_takeWhile_imp (p := fun e : ContentElement => active e.block) (List.getElem_mem h)
  · rename_i h
    rw [List.getElem?_append_right (by omega)]

theorem length_leading_le : (leading x active).length ≤ x.elements.length := (List.takeWhile_sublist _).length_le

variable {x active}

theorem line_of_lt {i : Nat} (h : i < (leading x active).length) : line x active i = true := by
  rw [line_eq, if_pos h]

theorem line_length_leading : line x active (leading x active).length = false := by
  rw [line_eq, if_neg (by omega), Nat.sub_self, ← List.head?_eq_getElem?]
  have hhead := List.head?_dropWhile_not (fun e => active e.block) x.elements
  cases h : (x.elements.dropWhile fun e => active e.block).head? with
  | none => rfl
  | some e =>
    rw [h] at hhead
    exact hhead

theorem line_of_length_le {i : Nat} (h : x.elements.length ≤ i) : line x active i = false := by
  rw [line, List.getElem?_eq_none h]
  rfl

theorem leading_iff : Leading x active ↔ ∀ i, (leading x active).length < i → line x active i = false := by
  constructor
  · intro h i hi
    rw [line_eq, if_neg (by omega), Option.any_eq_false]
    intro e he
    simp [h e (List.mem_of_getElem? he)]
  · intro h e he
    obtain ⟨j, hj⟩ := List.mem_iff_getElem?.mp he
    have hline := line_eq x active ((leading x active).length + j)
    rw [if_neg (by omega), Nat.add_sub_cancel_left, hj, Option.any_some] at hline
    rw [← hline]
    cases j with
    | zero => exact line_length_leading
    | succ j => exact h _ (by omega)

/-- While the first `j` elements are done, an element is next when none of the others up to it is active. -/
theorem seq_iff {j i : Nat} :
    seq x active (fun i => decide (i < j)) i = true ↔ ∀ l, j < l → l ≤ i → line x active l = false := by
  induction i with
  | zero =>
    rw [seq]
    simp only [true_iff]
    omega
  | succ i ih =>
    rw [seq, Bool.or_eq_true, Bool.and_eq_true, ih, decide_eq_true_iff, Bool.not_eq_true']
    constructor
    · intro h l hjl hl
      rcases h with h | ⟨hline, h⟩
      · omega
      · rcases Nat.lt_or_ge l (i + 1) with hlt | hge
        · exact h l hjl (by omega)
        · rwa [show l = i + 1 by omega]
    · intro h
      by_cases hij : i < j
      · exact .inl hij
      · exact .inr ⟨h (i + 1) (by omega) (le_refl _), fun l hjl hl => h l hjl (by omega)⟩

theorem start_iff {j i : Nat} :
    start x active (fun i => decide (i < j)) i = true ↔ i = j ∧ line x active j = true := by
  rw [start, Bool.and_eq_true, Bool.and_eq_true, seq_iff, Bool.not_eq_true', decide_eq_false_iff_not]
  constructor
  · rintro ⟨⟨hline, hij⟩, hseq⟩
    have heq : i = j := by
      by_contra hne
      rw [hseq i (by omega) (le_refl _)] at hline
      cases hline
    exact ⟨heq, heq ▸ hline⟩
  · rintro ⟨rfl, hline⟩
    exact ⟨⟨hline, by omega⟩, by omega⟩

theorem find?_start (x : ExecContent) (active : Block → Bool) {j : Nat} (hj : j ≤ (leading x active).length) :
    (List.range x.elements.length).find? (start x active fun i => decide (i < j)) =
      if j < (leading x active).length then some j else none := by
  have hle := length_leading_le x active
  split
  · rename_i h
    rw [List.find?_range_eq_some]
    refine ⟨start_iff.mpr ⟨rfl, line_of_lt h⟩, List.mem_range.mpr (by omega), ?_⟩
    intro i hij
    rw [Bool.not_eq_true', Bool.eq_false_iff]
    intro hstart
    have := (start_iff.mp hstart).1
    omega
  · rename_i h
    rw [List.find?_eq_none]
    intro i _ hstart
    obtain ⟨-, hline⟩ := start_iff.mp hstart
    rw [show j = (leading x active).length by omega, line_length_leading] at hline
    cases hline

/-- The registers after `m` cycles, as long as the micro stepper is stalled. -/
def stateAt (x : ExecContent) (active : Block → Bool) (c : Controller) (m : Nat) : Controller :=
  let k := (leading x active).length
  { done := fun i => decide (i < min m k)
    eventBus := if m = 0 ∨ k = 0 then c.eventBus else busWord x (min m k - 1)
    eventWe := decide (0 < m ∧ 0 < k)
    cmplBuf := decide (Leading x active ∧ max k 1 ≤ m)
    completed := decide (Leading x active ∧ max k 1 + 1 ≤ m) }

/-- The process has nothing left of an earlier microstep. -/
structure Rests (c : Controller) : Prop where
  done : c.done = fun _ => false
  eventWe : c.eventWe = false
  cmplBuf : c.cmplBuf = false
  completed : c.completed = false

theorem stateAt_zero {c : Controller} (hc : c.Rests) : stateAt x active c 0 = c := by
  obtain ⟨hdone, hwe, hcmpl, hcompleted⟩ := hc
  cases c
  simp_all [stateAt]

theorem microStepperEn_stateAt (hne : x.elements ≠ []) {b : Block} (hb : b ∈ x.blocks) (hactive : active b = true)
    (c : Controller) (m : Nat) :
    microStepperEn x active (stateAt x active c m) =
      decide (Leading x active ∧ max (leading x active).length 1 + 1 ≤ m) := by
  have hany : x.blocks.any active = true := List.any_eq_true.mpr ⟨b, hb, hactive⟩
  rw [microStepperEn, if_neg hne, hany, Bool.not_true, Bool.or_false, stateAt]

theorem clock_stateAt (hne : x.elements ≠ []) {b : Block} (hb : b ∈ x.blocks) (hactive : active b = true)
    (c : Controller) {m : Nat} (hm : ¬ (Leading x active ∧ max (leading x active).length 1 + 1 ≤ m)) :
    clock x active false (stateAt x active c m) = stateAt x active c (m + 1) := by
  have hen : microStepperEn x active (stateAt x active c m) = false := by
    rw [microStepperEn_stateAt hne hb hactive, decide_eq_false hm]
  have hfind := find?_start x active (j := min m (leading x active).length) (by omega)
  have hlen := List.length_pos_of_ne_nil hne
  have hle := length_leading_le x active
  have hseq : seq x active (fun i => decide (i < min m (leading x active).length)) (x.elements.length - 1) =
      decide (Leading x active ∧ max (leading x active).length 1 ≤ m + 1) := by
    rw [Bool.eq_iff_iff, seq_iff, decide_eq_true_iff, leading_iff]
    constructor
    · intro h
      refine ⟨fun i hi => ?_, ?_⟩
      · by_cases hi' : i ≤ x.elements.length - 1
        · exact h i (by omega) hi'
        · exact line_of_length_le (by omega)
      · by_contra hlt
        have hline := h (m + 1) (by omega) (by omega)
        rw [line_of_lt (by omega)] at hline
        cases hline
    · rintro ⟨hlead, hk⟩ l hl _
      rcases Nat.lt_or_ge (leading x active).length l with hlt | hge
      · exact hlead l hlt
      · rw [show l = (leading x active).length by omega]
        exact line_length_leading
  have hdone : (stateAt x active c m).done = fun i => decide (i < min m (leading x active).length) := rfl
  simp only [clock, hen, Bool.false_eq_true, if_false, hdone, hfind, hseq]
  by_cases hlt : m < (leading x active).length
  · rw [if_pos (by omega)]
    simp only [stateAt, Controller.mk.injEq]
    refine ⟨?_, ?_, ?_, trivial, ?_⟩
    · funext i
      rw [Function.update_apply]
      by_cases hi : i = m
      · rw [if_pos (by omega), eq_comm, decide_eq_true_iff]
        omega
      · rw [if_neg (by omega), decide_eq_decide]
        omega
    · rw [if_neg (by omega)]
      congr 1
      omega
    · rw [eq_comm, decide_eq_true_iff]
      omega
    · rw [decide_eq_decide, Nat.add_le_add_iff_right]
  · rw [if_neg (by omega)]
    simp only [stateAt, Controller.mk.injEq]
    refine ⟨?_, ?_, ?_, trivial, ?_⟩
    · funext i
      rw [decide_eq_decide]
      omega
    · by_cases hk : (leading x active).length = 0
      · simp [hk]
      · rw [if_neg (by omega), if_neg (by omega)]
        congr 1
        omega
    · rw [decide_eq_decide]
      omega
    · rw [decide_eq_decide, Nat.add_le_add_iff_right]

theorem after_eq_stateAt (hne : x.elements ≠ []) {b : Block} (hb : b ∈ x.blocks) (hactive : active b = true)
    {c : Controller} (hc : c.Rests) {m : Nat} (hm : Leading x active → m ≤ max (leading x active).length 1 + 1) :
    after x active c m = stateAt x active c m := by
  induction m with
  | zero => exact (stateAt_zero hc).symm
  | succ m ih =>
    have hlater : ¬ (Leading x active ∧ max (leading x active).length 1 + 1 ≤ m) := by
      rintro ⟨hlead, hle⟩
      have := hm hlead
      omega
    rw [after, Function.iterate_succ_apply', ← after, ih fun hlead => by have := hm hlead; omega]
    exact clock_stateAt hne hb hactive c hlater

def leadingWords (x : ExecContent) (active : Block → Bool) : List (List Char) :=
  (leading x active).map fun e => encode x.eventNames e.event

def repeatLast (words : List (List Char)) (j : Nat) : List (List Char) :=
  words ++ words.getLast?.toList.flatMap (List.replicate j)

theorem leadingWords_getElem? (x : ExecContent) (active : Block → Bool) {i : Nat} (h : i < (leading x active).length) :
    (leadingWords x active)[i]? = some (busWord x i) := by
  have hprefix : leading x active <+: x.elements := List.takeWhile_prefix _
  rw [leadingWords, List.getElem?_map, List.getElem?_eq_getElem h, hprefix.getElem h, busWord,
    List.getElem?_eq_getElem (lt_of_lt_of_le h hprefix.length_le)]
  rfl

theorem written_succ (c : Controller) (m : Nat) :
    written x active c (m + 1) =
      written x active c m ++ if (after x active c m).eventWe then [(after x active c m).eventBus] else [] := by
  rw [written, List.range_succ, List.map_append, List.filter_append, List.map_append, ← written]
  congr 1
  cases h : (after x active c m).eventWe <;> simp [h]

theorem written_take {c : Controller} {m : Nat} (hm : m ≤ (leading x active).length)
    (hafter : ∀ e ≤ m, after x active c e = stateAt x active c e) :
    written x active c (m + 1) = (leadingWords x active).take m := by
  induction m with
  | zero =>
    rw [written_succ, hafter 0 (le_refl 0)]
    simp [written, stateAt]
  | succ m ih =>
    have hword := leadingWords_getElem? x active (i := m) (by omega)
    rw [written_succ, ih (by omega) fun e he => hafter e (by omega), hafter (m + 1) (le_refl _), List.take_add_one, hword]
    have hwe : (stateAt x active c (m + 1)).eventWe = true := by
      simp only [stateAt, decide_eq_true_iff]
      omega
    have hbus : (stateAt x active c (m + 1)).eventBus = busWord x m := by
      simp only [stateAt]
      rw [if_neg (by omega), show min (m + 1) (leading x active).length - 1 = m by omega]
    rw [hwe, hbus]
    rfl

theorem written_repeatLast (x : ExecContent) (active : Block → Bool) {c : Controller} (j : Nat)
    (hafter : ∀ e ≤ (leading x active).length + j, after x active c e = stateAt x active c e) :
    written x active c ((leading x active).length + 1 + j) = repeatLast (leadingWords x active) j := by
  have hlength : (leadingWords x active).length = (leading x active).length := List.length_map _
  induction j with
  | zero =>
    rw [Nat.add_zero, written_take (le_refl _) hafter, ← hlength, List.take_length]
    simp [repeatLast]
  | succ j ih =>
    have hstep : (leading x active).length + 1 + (j + 1) = (leading x active).length + 1 + j + 1 := by omega
    rw [hstep, written_succ, ih fun e he => hafter e (by omega), hafter _ (by omega), repeatLast, repeatLast,
      List.append_assoc]
    congr 1
    by_cases hk : (leading x active).length = 0
    · have hnil : leadingWords x active = [] := List.length_eq_zero_iff.mp (hlength.trans hk)
      simp [hnil, stateAt, hk]
    · have hlast : (leadingWords x active).getLast? = some (busWord x ((leading x active).length - 1)) := by
        rw [List.getLast?_eq_getElem?, hlength]
        exact leadingWords_getElem? x active (by omega)
      have hwe : (stateAt x active c ((leading x active).length + 1 + j)).eventWe = true := by
        simp only [stateAt, decide_eq_true_iff]
        omega
      have hbus : (stateAt x active c ((leading x active).length + 1 + j)).eventBus =
          busWord x ((leading x active).length - 1) := by
        simp only [stateAt]
        rw [if_neg (by omega), Nat.min_eq_right (by omega)]
      rw [hlast, hwe, hbus]
      simp [List.replicate_succ']

/-- What happens from a state of rest on while some block is active and the lines keep their values. -/
structure Executes (x : ExecContent) (active : Block → Bool) (c : Controller) : Prop where
  /-- The micro stepper waits for the leading elements and one cycle, when no other one is active. -/
  stalls : Leading x active →
    ∀ m ≤ max (leading x active).length 1, microStepperEn x active (after x active c m) = false
  releases : Leading x active →
    microStepperEn x active (after x active c (max (leading x active).length 1 + 1)) = true
  /-- The events are in the queue by then, in their order, and the last one of them twice. -/
  raises : Leading x active →
    written x active c (max (leading x active).length 1 + 2) = repeatLast (leadingWords x active) 1
  /-- The registers have forgotten the content behind the edge, but that it was completed. -/
  forgets : Leading x active → ∃ bus, after x active c (max (leading x active).length 1 + 2) =
    { done := fun _ => false, eventBus := bus, eventWe := false, cmplBuf := false, completed := true }
  /-- Otherwise it waits forever, and the last of the leading events is raised in every cycle. -/
  hangs : ¬ Leading x active → ∀ m, microStepperEn x active (after x active c m) = false ∧
    written x active c ((leading x active).length + 1 + m) = repeatLast (leadingWords x active) m

theorem clock_completed (hne : x.elements ≠ []) {b : Block} (hb : b ∈ x.blocks) (hactive : active b = true)
    (c : Controller) {m : Nat} (hlead : Leading x active) (hm : max (leading x active).length 1 + 1 ≤ m) :
    clock x active false (stateAt x active c m) =
      { done := fun _ => false, eventBus := (stateAt x active c m).eventBus, eventWe := false, cmplBuf := false,
        completed := true } := by
  have hen : microStepperEn x active (stateAt x active c m) = true := by
    rw [microStepperEn_stateAt hne hb hactive, decide_eq_true ⟨hlead, hm⟩]
  have hfind := find?_start x active (j := min m (leading x active).length) (by omega)
  rw [if_neg (by omega)] at hfind
  have hdone : (stateAt x active c m).done = fun i => decide (i < min m (leading x active).length) := rfl
  have hcmpl : (stateAt x active c m).cmplBuf = true := by
    simp only [stateAt, decide_eq_true_iff]
    exact ⟨hlead, by omega⟩
  simp only [clock, hen, Bool.false_eq_true, if_false, if_true, hdone, hfind, hcmpl]

theorem controller_executes (x : ExecContent) (active : Block → Bool) (hne : x.elements ≠ []) {b : Block}
    (hb : b ∈ x.blocks) (hactive : active b = true) {c : Controller} (hc : c.Rests) : Executes x active c := by
  have hafter {m : Nat} (hm : Leading x active → m ≤ max (leading x active).length 1 + 1) :=
    after_eq_stateAt hne hb hactive hc hm
  have hen {m : Nat} (hm : Leading x active → m ≤ max (leading x active).length 1 + 1) :
      microStepperEn x active (after x active c m) =
        decide (Leading x active ∧ max (leading x active).length 1 + 1 ≤ m) := by
    rw [hafter hm, microStepperEn_stateAt hne hb hactive]
  constructor
  · intro hlead m hm
    rw [hen fun _ => by omega, decide_eq_false]
    omega
  · intro hlead
    rw [hen fun _ => le_refl _, decide_eq_true ⟨hlead, le_refl _⟩]
  · intro hlead
    by_cases hk : (leading x active).length = 0
    · have hwritten := written_repeatLast x active (c := c) 2 fun e he => hafter fun _ => by omega
      have hnil : leadingWords x active = [] := by
        rw [leadingWords, List.length_eq_zero_iff.mp hk]
        rfl
      rw [hk] at hwritten ⊢
      rw [hnil] at hwritten ⊢
      exact hwritten
    · have hwritten := written_repeatLast x active (c := c) 1 fun e he => hafter fun _ => by omega
      rwa [show max (leading x active).length 1 + 2 = (leading x active).length + 1 + 1 by omega]
  · intro hlead
    refine ⟨(stateAt x active c (max (leading x active).length 1 + 1)).eventBus, ?_⟩
    rw [after, Function.iterate_succ_apply', ← after, hafter fun _ => le_refl _]
    exact clock_completed hne hb hactive c hlead (le_refl _)
  · intro hlead m
    refine ⟨?_, written_repeatLast x active m fun e _ => hafter fun h => absurd h hlead⟩
    rw [hen fun h => absurd h hlead, decide_eq_false]
    exact fun h => hlead h.1

end Sequence

def threeElements : ExecContent where
  elements := [⟨.onentry 1, ['a']⟩, ⟨.onentry 1, ['b']⟩, ⟨.onentry 2, ['c']⟩]
  blocks := [.onentry 1, .onentry 2]
  listed := by decide
  eventNames := [['a'], ['b'], ['c']]

/-- The content of the second state is never executed, while that of the first one is. -/
theorem controller_executes_threeElements :
    (∀ m, microStepperEn threeElements (· = .onentry 2) (after threeElements (· = .onentry 2) (reset threeElements) m) =
      false) ∧
      written threeElements (· = .onentry 1) (reset threeElements) 4 = [['0', '0'], ['0', '1'], ['0', '1']] := by
  have hrests : (reset threeElements).Rests := ⟨rfl, rfl, rfl, rfl⟩
  have hsecond := controller_executes threeElements (· = .onentry 2) (b := .onentry 2) (by decide) (by decide) rfl hrests
  have hfirst := controller_executes threeElements (· = .onentry 1) (b := .onentry 1) (by decide) (by decide) rfl hrests
  refine ⟨fun m => (hsecond.hangs (by decide) m).1, ?_⟩
  have hraises := hfirst.raises (by decide)
  rw [show (leading threeElements (· = .onentry 1)).length = 2 from rfl] at hraises
  exact hraises.trans (by decide +kernel)

end Controller

end ChartToVHDL

end Uscxml
