import Uscxml.FastMicroStep.Tables
import Mathlib.Data.List.Sort

/-!
# The completion tables

`FastMicroStep::init` turns the list of `getCompletion` into a bit set by walking over the states once and taking the front
of the list whenever it is the state at hand, and asserts that nothing of the list is left. Children and histories come in
the order of the document; what an `initial` attribute names comes in the order in which it names it.
-/

namespace Uscxml

namespace FastMicroStep

open Document

/-- What the walk leaves of the list. -/
def leftInOrder : List TreePath → List (Option TreePath) → List (Option TreePath)
  | [], completion => completion
  | _ :: _, [] => []
  | s :: states, c :: completion =>
    if c = some s then leftInOrder states completion else leftInOrder states (c :: completion)

theorem matchInOrder_sublist (states : List TreePath) (completion : List (Option TreePath)) :
    (matchInOrder states completion).Sublist states := by
  induction states generalizing completion with
  | nil => exact List.Sublist.refl []
  | cons s states ih =>
    cases completion with
    | nil => exact List.nil_sublist _
    | cons c completion =>
      rw [matchInOrder]
      split
      · exact (ih completion).cons_cons s
      · exact (ih (c :: completion)).cons s

/-- Everything is taken exactly when the list names states in the order of the walk. -/
theorem leftInOrder_eq_nil_iff {states : List TreePath} {completion : List (Option TreePath)} :
    leftInOrder states completion = [] ↔ ∃ l : List TreePath, completion = l.map some ∧ l.Sublist states := by
  induction states generalizing completion with
  | nil =>
    rw [leftInOrder]
    constructor
    · rintro rfl
      exact ⟨[], rfl, List.Sublist.refl []⟩
    · rintro ⟨l, rfl, h⟩
      rw [List.sublist_nil.mp h]
      rfl
  | cons s states ih =>
    cases completion with
    | nil => exact ⟨fun _ => ⟨[], rfl, List.nil_sublist _⟩, fun _ => rfl⟩
    | cons c completion =>
      rw [leftInOrder]
      split
      · rename_i hc
        rw [ih]
        constructor
        · rintro ⟨l, rfl, h⟩
          exact ⟨s :: l, by rw [hc]; rfl, h.cons_cons s⟩
        · rintro ⟨l, hl, h⟩
          cases l with
          | nil => cases hl
          | cons x l =>
            obtain ⟨hx, rfl⟩ := List.cons.inj hl
            obtain rfl : x = s := Option.some.inj (hx.symm.trans hc)
            exact ⟨l, rfl, List.cons_sublist_cons.mp h⟩
      · rename_i hc
        rw [ih]
        constructor
        · rintro ⟨l, hl, h⟩
          exact ⟨l, hl, h.cons s⟩
        · rintro ⟨l, hl, h⟩
          refine ⟨l, hl, ?_⟩
          rcases List.sublist_cons_iff.mp h with h | ⟨r, rfl, -⟩
          · exact h
          · exact absurd (List.cons.inj hl).1 hc

variable {β : Type} {d : Document β}

/-- The bit set of a state holds what `getCompletion` returned, and the assertion behind the walk holds. -/
def CompletionExact (d : Document β) (p : TreePath) : Prop :=
  (∀ s, s ∈ (stateInfo d p).completion ↔ some s ∈ getCompletion d p) ∧ leftInOrder d.states (getCompletion d p) = []

/-- The names of an `initial` attribute are those of states, in the order of the document. -/
def NamesInOrder (d : Document β) (ids : List String) : Prop :=
  ∃ l : List TreePath, d.getStates ids = l.map some ∧ l.Pairwise (· < ·)

theorem completionExact_iff_left {p : TreePath} :
    CompletionExact d p ↔ leftInOrder d.states (getCompletion d p) = [] := by
  refine ⟨fun h => h.2, fun h => ⟨?_, h⟩⟩
  intro s
  obtain ⟨l, hl, hsub⟩ := leftInOrder_eq_nil_iff.mp h
  rw [stateInfo, hl, matchInOrder_of_sublist hsub, List.mem_toFinset]
  simp

/-- A list of states is in the order of the document when it is increasing. -/
theorem sublist_states_iff {l : List TreePath} : l.Sublist d.states ↔ l.Pairwise (· < ·) ∧ ∀ s ∈ l, s ∈ d.states := by
  have hstates : d.states.Pairwise (· < ·) := d.tree.preorder_pairwise
  constructor
  · intro h
    exact ⟨hstates.sublist h, fun s hs => h.subset hs⟩
  · intro ⟨hl, hmem⟩
    have hnodup : l.Nodup := hl.imp fun h => ne_of_lt h
    refine @List.sublist_of_subperm_of_pairwise TreePath (· ≤ ·) _ l d.states (hnodup.subperm hmem) ?_ ?_
    · exact hl.imp fun h => le_of_lt h
    · exact hstates.imp fun h => le_of_lt h

theorem mem_states_of_getStates {ids : List String} {l : List TreePath} (h : d.getStates ids = l.map some) :
    ∀ s ∈ l, s ∈ d.states := by
  intro s hs
  have hmem : some s ∈ d.getStates ids := h ▸ List.mem_map_of_mem hs
  obtain ⟨i, -, hi⟩ := List.mem_map.mp hmem
  exact getState_mem_states hi

theorem leftInOrder_getStates_iff {ids : List String} :
    leftInOrder d.states (d.getStates ids) = [] ↔ NamesInOrder d ids := by
  rw [leftInOrder_eq_nil_iff]
  refine exists_congr fun l => and_congr_right fun hl => ?_
  rw [sublist_states_iff]
  exact and_iff_left (mem_states_of_getStates hl)

/-- Without an `initial` attribute at most one child is named. -/
theorem leftInOrder_initialCompletion {p : TreePath} (h : (d.elem? p).bind (·.initial) = none) :
    leftInOrder d.states (initialCompletion d p) = [] := by
  have hsub : ∀ c ∈ d.children p, [c].Sublist d.states := by
    intro c hc
    exact List.singleton_sublist.mpr (mem_children.mp hc).1
  rw [leftInOrder_eq_nil_iff, initialCompletion, h]
  cases hinit : (d.children p).filter fun c => d.tag? c = some .initial with
  | cons init rest =>
    have hmem : init ∈ (d.children p).filter fun c => d.tag? c = some .initial := hinit ▸ List.mem_cons_self
    exact ⟨[init], rfl, hsub init (List.mem_filter.mp hmem).1⟩
  | nil =>
    cases hhead : (d.getChildStates p true).head? with
    | none => exact ⟨[], rfl, List.nil_sublist _⟩
    | some c =>
      have hmem : c ∈ d.getChildStates p true := List.mem_of_head? hhead
      exact ⟨[c], rfl, hsub c (List.mem_filter.mp hmem).1⟩

/-- The table of completions holds what `getCompletion` returns, and the assertion of `init` holds, exactly when the
`initial` attribute of a state that is neither parallel nor a history names states in the order of the document. -/
theorem completion_exact_iff (D : Document β) (p : TreePath) :
    CompletionExact (resortStates D) p ↔
      ∀ ids, (resortStates D).isHistory p = false → (resortStates D).isParallel p = false →
        ((resortStates D).elem? p).bind (·.initial) = some ids → NamesInOrder (resortStates D) ids := by
  generalize resortStates D = d
  rw [completionExact_iff_left, getCompletion]
  by_cases hhist : d.isHistory p = true
  · have hsub : (getHistoryCompletion d p).Sublist d.states := List.filter_sublist
    simp only [hhist, if_true, Bool.true_eq_false, false_implies, implies_true, iff_true]
    exact leftInOrder_eq_nil_iff.mpr ⟨_, rfl, hsub⟩
  by_cases hpar : d.isParallel p = true
  · have hsub : (d.getChildStates p true).Sublist d.states := List.filter_sublist.trans List.filter_sublist
    simp only [hhist, hpar, if_true, Bool.true_eq_false, false_implies, implies_true, iff_true]
    exact leftInOrder_eq_nil_iff.mpr ⟨_, rfl, hsub⟩
  rw [if_neg hhist, if_neg hpar]
  simp only [Bool.not_eq_true] at hhist hpar
  simp only [hhist, hpar, forall_const]
  cases hattr : (d.elem? p).bind (·.initial) with
  | none =>
    refine iff_of_true (leftInOrder_initialCompletion hattr) ?_
    intro ids h
    cases h
  | some ids =>
    rw [initialCompletion, hattr, leftInOrder_getStates_iff]
    exact ⟨fun h ids' he => Option.some.inj he ▸ h, fun h => h ids rfl⟩

/-- `<scxml initial="r2 r1">` over a parallel with the regions `r1` and `r2`. -/
def swappedInitial : Document Unit where
  tree :=
    { root := { tag := .scxml
                initial := some ["r2", "r1"] }
      kids :=
        .cons { tag := .parallel
                id := some "p" }
          (.cons { tag := .state
                   id := some "r1" } .nil
            (.cons { tag := .state
                     id := some "r2" } .nil .nil))
          .nil }

/-- Both regions are named, the bit of the first one stays clear and its pointer is left in the list. -/
theorem swapped_region_lost :
    getCompletion (resortStates swappedInitial) [] = [some [0, 1], some [0, 0]] ∧
      ((init swappedInitial).state []).completion = {[0, 1]} ∧
      leftInOrder (resortStates swappedInitial).states (getCompletion (resortStates swappedInitial) []) = [some [0, 0]] ∧
      ¬ CompletionExact (resortStates swappedInitial) [] := by
  refine ⟨by decide +kernel, by decide +kernel, by decide +kernel, fun h => ?_⟩
  have hleft : leftInOrder (resortStates swappedInitial).states (getCompletion (resortStates swappedInitial) []) =
      [some [0, 0]] := by decide +kernel
  exact absurd (hleft.symm.trans h.2) (by simp)

end FastMicroStep

end Uscxml
