import Uscxml.Legal
import Uscxml.Lib.Worklist
import Mathlib.Data.List.ReduceOption

/-!
# Reachable states

`getReachableStates` of `util/Predicates.cpp`, with which `InterpreterIssue` warns about unreachable states. Starting from
the root it adds initial states, the targets of transitions and, from atomic states only, the states above.
-/

namespace Uscxml

variable {β : Type}

namespace Document

section

variable (d : Document β)

/-- `getInitialStates`. An id without a state leaves a null pointer. -/
def getInitialStates (state : TreePath) : List (Option TreePath) :=
  if d.isAtomic state then []
  else if d.isParallel state then (d.getChildStates state true).map some
  else if d.isCompound state then
    match (d.elem? state).bind (·.initial) with
    | some ids => d.getStates ids
    | none =>
      match (d.children state).filter fun c => d.tag? c = some .initial with
      | init :: _ =>
        if (d.trans? (init, 0)).any (·.target.isSome) then (d.getTargetStates (init, 0)).map some else []
      | [] => (d.getChildStates state true).head?.toList.map some
  else []

def transitionTargetsOf (state : TreePath) : List TreePath := (d.transIds state).flatMap d.getTargetStates

/-- The states above an atomic state, up to the first element that is none. -/
def statesAbove (state : TreePath) : List TreePath :=
  if d.isAtomic state then (parentNodes state).takeWhile (d.isState · true) else []

/-- What one round of `getReachableStates` finds. A null pointer among the initial states is followed in the next round. -/
def found (additions : List TreePath) : Option (List TreePath) :=
  if none ∈ additions.flatMap d.getInitialStates then none
  else
    some ((additions.flatMap d.getInitialStates).reduceOption ++ additions.flatMap d.transitionTargetsOf ++
      additions.flatMap d.statesAbove)

/-- `getReachableStates`; every round but the last one finds a new state. -/
def getReachableStates : Option (List TreePath) := Worklist.close d.found (d.states.length + 1) [[]] []

end

/-- A set the search can end with. -/
structure Closed (d : Document β) (R : List TreePath) : Prop where
  root : [] ∈ R
  initial : ∀ x ∈ R, ∀ s, some s ∈ d.getInitialStates x → s ∈ R
  target : ∀ x ∈ R, ∀ t ∈ d.transIds x, ∀ s ∈ d.getTargetStates t, s ∈ R
  above : ∀ x ∈ R, d.isAtomic x = true → ∀ a ∈ (parentNodes x).takeWhile (d.isState · true), a ∈ R

variable {d : Document β}

theorem getTargetStates_mem_states {t : TransId} {s : TreePath} (h : s ∈ d.getTargetStates t) : s ∈ d.states := by
  obtain ⟨i, -, hi⟩ := List.mem_filterMap.mp h
  exact getState_mem_states hi

theorem getChildStates_mem_states {p s : TreePath} {properOnly : Bool} (h : s ∈ d.getChildStates p properOnly) :
    s ∈ d.states := (mem_children.mp (List.mem_filter.mp h).1).1

theorem getInitialStates_mem_states {x s : TreePath} (h : some s ∈ d.getInitialStates x) : s ∈ d.states := by
  unfold getInitialStates at h
  split at h
  · simp at h
  split at h
  · obtain ⟨c, hc, hcs⟩ := List.mem_map.mp h
    cases hcs
    exact getChildStates_mem_states hc
  split at h
  · split at h
    · obtain ⟨i, -, hi⟩ := List.mem_map.mp h
      exact getState_mem_states hi
    · split at h
      · split at h
        · obtain ⟨c, hc, hcs⟩ := List.mem_map.mp h
          cases hcs
          exact getTargetStates_mem_states hc
        · simp at h
      · obtain ⟨c, hc, hcs⟩ := List.mem_map.mp h
        cases hcs
        exact getChildStates_mem_states (List.mem_of_mem_head? (Option.mem_toList.mp hc))
  · simp at h

def Finds (d : Document β) (x y : TreePath) : Prop :=
  some y ∈ d.getInitialStates x ∨ y ∈ d.transitionTargetsOf x ∨ y ∈ d.statesAbove x

theorem mem_found {additions : List TreePath} {l : List TreePath} (h : d.found additions = some l) {y : TreePath} :
    y ∈ l ↔ ∃ x ∈ additions, d.Finds x y := by
  unfold found at h
  split at h
  · cases h
  · cases h
    simp only [List.mem_append, List.reduceOption_mem_iff, List.mem_flatMap, Finds]
    constructor
    · rintro ((⟨x, hx, h⟩ | ⟨x, hx, h⟩) | ⟨x, hx, h⟩)
      · exact ⟨x, hx, .inl h⟩
      · exact ⟨x, hx, .inr (.inl h)⟩
      · exact ⟨x, hx, .inr (.inr h)⟩
    · rintro ⟨x, hx, h | h | h⟩
      · exact .inl (.inl ⟨x, hx, h⟩)
      · exact .inl (.inr ⟨x, hx, h⟩)
      · exact .inr ⟨x, hx, h⟩

theorem finds_mem_states {x y : TreePath} (hx : x ∈ d.states) (h : d.Finds x y) : y ∈ d.states := by
  rcases h with h | h | h
  · exact getInitialStates_mem_states h
  · obtain ⟨t, -, ht⟩ := List.mem_flatMap.mp h
    exact getTargetStates_mem_states ht
  · unfold statesAbove at h
    split at h
    · have hparent : y ∈ parentNodes x := (List.takeWhile_sublist _).subset h
      exact mem_states_of_above (mem_parentNodes.mp hparent).1 hx
    · simp at h

def InitialsResolve (d : Document β) : Prop :=
  ∀ p ∈ d.states, ∀ ids, (d.elem? p).bind (·.initial) = some ids → ∀ i ∈ ids, (d.getState i).isSome

theorem InitialsResolve.found (h : d.InitialsResolve) {l : List TreePath} (hl : ∀ x ∈ l, x ∈ d.states) :
    ∃ found, d.found l = some found := by
  have hnull : none ∉ l.flatMap d.getInitialStates := by
    intro hnone
    obtain ⟨x, hx, hnone⟩ := List.mem_flatMap.mp hnone
    unfold getInitialStates at hnone
    split at hnone
    · simp at hnone
    split at hnone
    · simp at hnone
    split at hnone
    · split at hnone
      · rename_i ids hids
        obtain ⟨i, hi, hstate⟩ := List.mem_map.mp hnone
        have hsome := h x (hl x hx) ids hids i hi
        rw [hstate] at hsome
        cases hsome
      · split at hnone
        · split at hnone
          · simp at hnone
          · simp at hnone
        · simp at hnone
    · simp at hnone
  exact ⟨_, by rw [Document.found, if_neg hnull]⟩

/-- The search ends with a closed set of states. -/
theorem getReachableStates_closed (h : d.InitialsResolve) :
    ∃ R, d.getReachableStates = some R ∧ d.Closed R ∧ ∀ x ∈ R, x ∈ d.states := by
  have hcard : d.states.toFinset.card ≤ d.states.length := List.toFinset_card_le d.states
  obtain ⟨R, hR, -, hadded, hin, hnext⟩ := @Worklist.close_spec TreePath _ d.found d.Finds d.states
    (fun l hl => by
      obtain ⟨found, hfound⟩ := h.found hl
      exact ⟨found, hfound, fun y => mem_found hfound⟩)
    (fun x hx y hxy => finds_mem_states hx hxy) (d.states.length + 1) [[]] []
    (by
      intro x hx
      rw [List.mem_singleton] at hx
      subst hx
      exact ⟨d.root_mem_states, by simp⟩)
    (by simp) (by simp) (by simp; omega)
  refine ⟨R, hR, ⟨hadded [] List.mem_cons_self, ?_, ?_, ?_⟩, hin⟩
  · exact fun x hx s hs => hnext x hx s (.inl hs)
  · exact fun x hx t ht s hs => hnext x hx s (.inr (.inl (List.mem_flatMap.mpr ⟨t, ht, hs⟩)))
  · intro x hx hatomic a ha
    refine hnext x hx a (.inr (.inr ?_))
    rw [statesAbove, if_pos hatomic]
    exact ha

/-! ### From a state to an atomic one -/

/-- Initial states and default transitions lead from a state to an atomic one below it, and from a pseudo-state to one
below its parent. -/
inductive Grounded (d : Document β) : TreePath → Prop where
  | atomic {p : TreePath} (h : d.isAtomic p = true) : Grounded d p
  | completed {p s : TreePath} (h : some s ∈ d.getInitialStates p) (hb : s.Below p) (hs : Grounded d s) : Grounded d p
  | default {p s : TreePath} (htag : d.tag? p = some .history ∨ d.tag? p = some .initial) {t : TransId}
      (ht : t ∈ d.transIds p) (h : s ∈ d.getTargetStates t) (hb : s.Below p.parent) (hs : Grounded d s) : Grounded d p

/-- The parent of a member of a closed set lies above an atomic member. -/
theorem Grounded.exists_atomic {p : TreePath} (h : d.Grounded p) {R : List TreePath} (hR : d.Closed R) (hp : p ∈ R) :
    ∃ a ∈ R, d.isAtomic a = true ∧ p.parent <+: a := by
  induction h with
  | @atomic p hatomic => exact ⟨p, hp, hatomic, List.dropLast_prefix p⟩
  | @completed p s hs hb _ ih =>
    obtain ⟨a, ha, hatomic, habove⟩ := ih (hR.initial p hp s hs)
    have hpa : p <+: a := (TreePath.prefix_parent_of_below hb).trans habove
    exact ⟨a, ha, hatomic, (List.dropLast_prefix p).trans hpa⟩
  | @default p s _ t ht hs hb _ ih =>
    obtain ⟨a, ha, hatomic, habove⟩ := ih (hR.target p hp t ht s hs)
    exact ⟨a, ha, hatomic, (TreePath.prefix_parent_of_below hb).trans habove⟩

/-- The charts the search is meant for: elements stand where they may, ids are unique and those of `initial` attributes
resolve, an `<initial>` has one transition, and every state leads to an atomic one. -/
structure Searchable (d : Document β) : Prop extends Nesting d where
  uniqueIds : d.UniqueIds
  resolve : d.InitialsResolve
  initialTransition : ∀ p ∈ d.states, d.tag? p = some .initial → (d.transitionsAt p).length = 1
  grounded : ∀ p ∈ d.states, d.Grounded p

theorem Searchable.above (h : d.Searchable) {R : List TreePath} (hR : d.Closed R) {x q : TreePath} (hx : x ∈ R)
    (hxs : x ∈ d.states) (hb : x.Below q) : q ∈ R := by
  obtain ⟨a, ha, hatomic, habove⟩ := (h.grounded x hxs).exists_atomic hR hx
  have hqa : q <+: a := (TreePath.prefix_parent_of_below hb).trans habove
  rcases TreePath.below_or_eq_of_prefix hqa with rfl | hqb
  · exact ha
  · refine hR.above a ha hatomic q ?_
    have has : a ∈ d.states := by
      have hstate : d.isState a true = true := by
        simp only [isAtomic, Bool.and_eq_true] at hatomic
        exact hatomic.1
      rcases isState_true_iff.mp hstate with htag | hproper
      · exact mem_states_of_tag htag
      · exact hproper.mem_states
    have hall : (parentNodes a).takeWhile (d.isState · true) = parentNodes a := by
      rw [List.takeWhile_eq_self_iff]
      intro b hb
      rcases h.toNesting.proper_of_below has (mem_parentNodes.mp hb) with rfl | hproper
      · exact isState_true_iff.mpr (.inl ((h.toNesting.root []).mpr rfl))
      · exact isState_true_iff.mpr (.inr hproper)
    rw [hall]
    exact mem_parentNodes.mpr hqb

end Document

end Uscxml
