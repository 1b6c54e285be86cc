import Uscxml.Legal
import Uscxml.FastMicroStep.Tables

/-!
# Domains, exit sets and conflicts

The domain of a transition is its source when it is internal and stays inside of it, and else the least common compound
ancestor of the source and the targets. Everything below the domain is exited, and the interpreter decides once, before any
state is active, which transitions exit a common state.
-/

namespace Uscxml

variable {β : Type} {d : Document β}

namespace Document

/-- A `<state>` with child states or the `<scxml>` element. -/
def CompoundElement (d : Document β) (a : TreePath) : Prop :=
  (d.tag? a = some .state ∧ ∃ c, d.ProperChild a c) ∨ d.tag? a = some .scxml

structure LeastCommonCompoundAncestor (d : Document β) (states : List TreePath) (a : TreePath) : Prop where
  compound : d.CompoundElement a
  above : ∀ s ∈ states, s.Below a
  least : ∀ b, d.CompoundElement b → (∀ s ∈ states, s.Below b) → ¬ b.Below a

/-- A transition of a state or pseudo-state below the root all of whose targets are states or pseudo-states below the
root. -/
structure Resolvable (d : Document β) (t : TransId) : Prop where
  targets : ∃ ids, (d.trans? t).bind (·.target) = some ids ∧ ids ≠ [] ∧ ∀ i ∈ ids, ∃ s, d.getState i = some s ∧ s ≠ []
  source : d.getSourceState t ≠ []

def StaysInside (d : Document β) (t : TransId) : Prop :=
  (d.trans? t).any (·.internal) = true ∧ d.CompoundElement (d.getSourceState t) ∧
    ∀ s ∈ d.getTargetStates t, s.Below (d.getSourceState t)

theorem Resolvable.targets_ne_nil {t : TransId} (h : d.Resolvable t) : d.getTargetStates t ≠ [] := by
  obtain ⟨ids, hids, hne, hfound⟩ := h.targets
  cases ids with
  | nil => exact absurd rfl hne
  | cons i ids =>
    obtain ⟨s, hs, -⟩ := hfound i List.mem_cons_self
    simp [getTargetStates, hids, hs]

theorem Resolvable.target {t : TransId} (h : d.Resolvable t) {s : TreePath} (hs : s ∈ d.getTargetStates t) :
    s ∈ d.states ∧ s ≠ [] := by
  obtain ⟨ids, hids, -, hfound⟩ := h.targets
  rw [getTargetStates, hids, Option.getD_some, List.mem_filterMap] at hs
  obtain ⟨i, hi, hget⟩ := hs
  obtain ⟨s', hs', hne⟩ := hfound i hi
  obtain rfl : s = s' := Option.some.inj (hget.symm.trans hs')
  exact ⟨getState_mem_states hget, hne⟩

theorem mem_states_of_trans {t : TransId} (h : (d.trans? t).isSome) : t.1 ∈ d.states := by
  rw [Document.mem_states]
  cases he : d.elem? t.1 with
  | none => simp [trans?, transitionsAt, he] at h
  | some e => rfl

theorem getSourceState_mem_states {t : TransId} (h : (d.trans? t).isSome) : d.getSourceState t ∈ d.states := by
  have hmem := mem_states_of_trans h
  rw [getSourceState]
  split
  · exact mem_states_of_above (List.dropLast_prefix t.1) hmem
  · exact hmem

/-- The ancestors of one element are above each other, so there is only one least among them. -/
theorem LeastCommonCompoundAncestor.unique {states : List TreePath} {s a b : TreePath} (hs : s ∈ states)
    (ha : d.LeastCommonCompoundAncestor states a) (hb : d.LeastCommonCompoundAncestor states b) : b = a := by
  rcases TreePath.comparable (hb.above s hs).1 (ha.above s hs).1 with heq | hba | hab
  · exact heq
  · exact absurd hba (ha.least b hb.compound hb.above)
  · exact absurd hab (hb.least a ha.compound ha.above)

namespace Nesting

variable (hn : d.Nesting)

include hn

theorem compoundElement_iff {a : TreePath} : d.CompoundElement a ↔ d.isCompound a = true := by
  rw [hn.isCompound_iff]
  constructor
  · rintro (⟨htag, hc⟩ | htag)
    · exact ⟨Or.inr htag, hc⟩
    · exact ⟨Or.inl htag, (hn.root a).mp htag ▸ hn.nonempty⟩
  · rintro ⟨htag | htag, hc⟩
    · exact Or.inr htag
    · exact Or.inl ⟨htag, hc⟩

/-- What `findLCCA` returns for elements below the root is their least common compound ancestor. -/
theorem findLCCA_least {front : TreePath} {states : List TreePath} (h : ∀ s ∈ front :: states, s ∈ d.states ∧ s ≠ []) :
    ∃ a, d.findLCCA (front :: states) = some a ∧ d.LeastCommonCompoundAncestor (front :: states) a := by
  obtain ⟨a, ha, hcomp, habove⟩ := hn.findLCCA_spec front states h
  refine ⟨a, ha, hn.compoundElement_iff.mpr hcomp, habove, ?_⟩
  intro b hb hbelow hba
  have hfind : (parentNodes front).find? (fun a => d.isCompound a && (front :: states).all (isDescendant · a)) = some a := by
    rw [findLCCA, hn.getProperAncestors_eq (h front List.mem_cons_self).1] at ha
    cases hf : (parentNodes front).find? fun a => d.isCompound a && (front :: states).all (isDescendant · a) with
    | some a' =>
      simp only [hf] at ha
      exact ha
    | none =>
      -- The root would have been found.
      have hroot := List.find?_eq_none.mp hf [] (mem_parentNodes.mpr
        (TreePath.below_nil.mpr (h front List.mem_cons_self).2))
      refine absurd ?_ hroot
      rw [hn.isCompound_root, Bool.true_and, List.all_eq_true]
      intro s hs
      exact isDescendant_iff.mpr (TreePath.below_nil.mpr (h s hs).2)
  have hpre : b <+: a := by
    refine prefix_of_find_parentNodes hfind (hbelow front List.mem_cons_self) ?_
    rw [Bool.and_eq_true, List.all_eq_true]
    exact ⟨hn.compoundElement_iff.mp hb, fun s hs => isDescendant_iff.mpr (hbelow s hs)⟩
  exact absurd hpre.length_le (Nat.not_le.mpr hba.length_lt)

/-- The domain of a transition, by the two ways `getTransitionDomain` finds it. -/
theorem getTransitionDomain_eq {t : TransId} (h : d.getTargetStates t ≠ []) :
    (d.StaysInside t ∧ d.getTransitionDomain t = some (d.getSourceState t)) ∨
      (¬ d.StaysInside t ∧ d.getTransitionDomain t = d.findLCCA (d.getSourceState t :: d.getTargetStates t)) := by
  have hiff : ((d.trans? t).any (·.internal) && d.isCompound (d.getSourceState t) &&
      (d.getTargetStates t).all (isDescendant · (d.getSourceState t))) = true ↔ d.StaysInside t := by
    rw [Bool.and_eq_true, Bool.and_eq_true, List.all_eq_true, and_assoc, StaysInside, hn.compoundElement_iff]
    simp only [isDescendant_iff]
  simp only [getTransitionDomain]
  rw [if_neg (by simpa using h)]
  by_cases hin : d.StaysInside t
  · rw [if_pos (hiff.mpr hin)]
    exact Or.inl ⟨hin, rfl⟩
  · rw [if_neg (mt hiff.mp hin)]
    exact Or.inr ⟨hin, rfl⟩

/-- The domain of a transition out of an active state is an active compound state. -/
theorem domain_active {C : Finset TreePath} (hC : d.Legal C) {t : TransId} (hsource : d.getSourceState t ∈ C)
    (hne : d.getSourceState t ≠ []) {domain : TreePath} (h : d.getTransitionDomain t = some domain) :
    domain ∈ C ∧ d.isCompound domain = true := by
  rcases hn.getTransitionDomain_eq (targets_ne_nil_of_domain h) with ⟨hin, heq⟩ | ⟨-, heq⟩
  · rw [heq] at h
    cases h
    exact ⟨hsource, hn.compoundElement_iff.mp hin.2.1⟩
  · rw [heq, findLCCA, hn.getProperAncestors_eq (hC.mem_states hsource)] at h
    split at h
    · rename_i a ha
      cases h
      have hspec := List.find?_some ha
      rw [Bool.and_eq_true] at hspec
      have habove := mem_parentNodes.mp (List.mem_of_find?_eq_some ha)
      exact ⟨hC.ancestor _ hsource _ habove, hspec.1⟩
    · rw [parentNodes_getLast hne] at h
      cases h
      exact ⟨hC.root, hn.isCompound_root⟩

end Nesting

/-- The domain is the source exactly when the transition stays inside of it, and else the least common compound ancestor,
of which there is one; the exit set lists the proper states below the domain in document order, each once. -/
theorem transitionDomain_exact (hn : d.Nesting) {t : TransId} (ht : d.Resolvable t) :
    (d.getTransitionDomain t = some (d.getSourceState t) ↔ d.StaysInside t) ∧
      (¬ d.StaysInside t → ∃ a, d.getTransitionDomain t = some a ∧
        d.findLCCA (d.getSourceState t :: d.getTargetStates t) = some a ∧
        d.LeastCommonCompoundAncestor (d.getSourceState t :: d.getTargetStates t) a ∧
        ∀ b, d.LeastCommonCompoundAncestor (d.getSourceState t :: d.getTargetStates t) b → b = a) ∧
      ∃ domain, d.getTransitionDomain t = some domain ∧
        (∀ s, s ∈ d.getExitSet t ↔ d.ProperState s ∧ s.Below domain) ∧
        (d.getExitSet t).Nodup ∧ (d.getExitSet t).Sublist d.states := by
  have htrans : (d.trans? t).isSome := by
    obtain ⟨ids, hids, -⟩ := ht.targets
    cases he : d.trans? t with
    | none => simp [he] at hids
    | some e => rfl
  have hstates : ∀ s ∈ d.getSourceState t :: d.getTargetStates t, s ∈ d.states ∧ s ≠ [] := by
    intro s hs
    rcases List.mem_cons.mp hs with rfl | hs
    · exact ⟨getSourceState_mem_states htrans, ht.source⟩
    · exact ht.target hs
  obtain ⟨a, ha, hleast⟩ := hn.findLCCA_least hstates
  have hexit : ∀ {domain}, d.getTransitionDomain t = some domain →
      ∀ s, s ∈ d.getExitSet t ↔ d.ProperState s ∧ s.Below domain := by
    intro domain hdom s
    simp [mem_getExitSet, hdom]
  have hsub := FastMicroStep.getExitSet_sublist (d := d) t
  have hnodup : (d.getExitSet t).Nodup := d.tree.preorder_nodup.sublist hsub
  rcases hn.getTransitionDomain_eq ht.targets_ne_nil with ⟨hin, hdom⟩ | ⟨hout, hdom⟩
  · refine ⟨iff_of_true hdom hin, fun hout => absurd hin hout, ?_⟩
    exact ⟨_, hdom, hexit hdom, hnodup, hsub⟩
  · rw [ha] at hdom
    have hne : d.getSourceState t ≠ a := (hleast.above _ List.mem_cons_self).ne
    refine ⟨iff_of_false ?_ hout, fun _ => ⟨a, hdom, ha, hleast, ?_⟩, ?_⟩
    · rw [hdom]
      exact fun h => hne (Option.some.inj h).symm
    · exact fun b hb => hleast.unique List.mem_cons_self hb
    · exact ⟨a, hdom, hexit hdom, hnodup, hsub⟩

/-- A parallel with the regions `r1`, in which `a` leads to `b`, and `r2`, from which `c` leads out to `x`. -/
def leavingRegion : Document Unit where
  tree :=
    { root := { tag := .scxml }
      kids :=
        .cons { tag := .parallel
                id := some "p" }
          (.cons { tag := .state
                   id := some "r1" }
            (.cons { tag := .state
                     id := some "a"
                     transitions := [{ target := some ["b"] }] } .nil
              (.cons { tag := .state
                       id := some "b" } .nil .nil))
            (.cons { tag := .state
                     id := some "r2" }
              (.cons { tag := .state
                       id := some "c"
                       transitions := [{ target := some ["x"] }] } .nil .nil)
              .nil))
          (.cons { tag := .state
                   id := some "x" } .nil .nil) }

theorem leavingRegion_nesting : leavingRegion.Nesting := ⟨by decide +kernel, by decide +kernel, by decide +kernel⟩

/-- The transition out of `c` has the root as its domain and exits everything. -/
theorem transitionDomain_exact_leavingRegion :
    leavingRegion.Nesting ∧ leavingRegion.getTransitionDomain ([0, 1, 0], 0) = some [] ∧
      leavingRegion.getExitSet ([0, 1, 0], 0) = [[0], [0, 0], [0, 0, 0], [0, 0, 1], [0, 1], [0, 1, 0], [1]] ∧
      ∀ b, leavingRegion.LeastCommonCompoundAncestor [[0, 1, 0], [1]] b → b = [] := by
  have ht : leavingRegion.Resolvable ([0, 1, 0], 0) := by
    refine ⟨⟨["x"], by decide +kernel, by decide, ?_⟩, by decide +kernel⟩
    intro i hi
    rw [List.mem_singleton] at hi
    exact ⟨[1], by rw [hi]; decide +kernel, by decide⟩
  have hdom : leavingRegion.getTransitionDomain ([0, 1, 0], 0) = some [] := by decide +kernel
  have hlist : leavingRegion.getSourceState ([0, 1, 0], 0) :: leavingRegion.getTargetStates ([0, 1, 0], 0) =
      [[0, 1, 0], [1]] := by decide +kernel
  refine ⟨leavingRegion_nesting, hdom, by decide +kernel, ?_⟩
  obtain ⟨hsource, hlcca, -⟩ := transitionDomain_exact leavingRegion_nesting ht
  have hout : ¬ leavingRegion.StaysInside ([0, 1, 0], 0) := by
    rw [← hsource]
    decide +kernel
  obtain ⟨a, ha, -, -, huniq⟩ := hlcca hout
  rw [hlist] at huniq
  rw [hdom] at ha
  cases ha
  exact huniq

/-- The exit sets of the two transitions share an active state: how the recommendation decides in a configuration
whether they conflict. -/
def ConflictIn (d : Document β) (C : Finset TreePath) (t u : TransId) : Prop :=
  ∃ s ∈ C, s ∈ d.getExitSet t ∧ s ∈ d.getExitSet u

/-- Of two exit sets with a common state one domain is above the other, and the active child of the lower one is in
both. -/
theorem exitSets_share_active (hn : d.Nesting) {C : Finset TreePath} (hC : d.Legal C) {t u : TransId}
    (ht : d.getSourceState t ∈ C) (hu : d.getSourceState u ∈ C) (hne : d.getSourceState t ≠ [])
    (hne' : d.getSourceState u ≠ []) (h : ∃ s ∈ d.getExitSet t, s ∈ d.getExitSet u) : d.ConflictIn C t u := by
  obtain ⟨s, hst, hsu⟩ := h
  obtain ⟨D, hD, -, hsD⟩ := mem_getExitSet.mp hst
  obtain ⟨E, hE, -, hsE⟩ := mem_getExitSet.mp hsu
  obtain ⟨hDC, hDcomp⟩ := hn.domain_active hC ht hne hD
  obtain ⟨hEC, hEcomp⟩ := hn.domain_active hC hu hne' hE
  rcases List.prefix_or_prefix_of_prefix hsD.1 hsE.1 with h | h
  · obtain ⟨c, ⟨hc, hchild⟩, -⟩ := hC.compound E hEC (Or.inr hEcomp)
    refine ⟨c, hc, mem_getExitSet.mpr ⟨D, hD, hchild.2.2, ?_⟩, mem_getExitSet.mpr ⟨E, hE, hchild.2.2, hchild.below⟩⟩
    exact hchild.below.trans_above h
  · obtain ⟨c, ⟨hc, hchild⟩, -⟩ := hC.compound D hDC (Or.inr hDcomp)
    refine ⟨c, hc, mem_getExitSet.mpr ⟨D, hD, hchild.2.2, hchild.below⟩, mem_getExitSet.mpr ⟨E, hE, hchild.2.2, ?_⟩⟩
    exact hchild.below.trans_above h

theorem mem_postFixTransitions_of_exit {t : TransId} {s : TreePath} (h : s ∈ d.getExitSet t) :
    t ∈ FastMicroStep.postFixTransitions d := by
  obtain ⟨D, hD, -⟩ := mem_getExitSet.mp h
  rw [FastMicroStep.mem_postFixTransitions]
  by_contra hge
  have hnone : d.trans? t = none := List.getElem?_eq_none (Nat.not_lt.mp hge)
  exact targets_ne_nil_of_domain hD (by simp [getTargetStates, hnone])

/-- For transitions of unrelated active states it makes no difference that exit sets and conflicts are computed for the
whole document. -/
theorem static_conflicts_exact (hn : d.Nesting) {C : Finset TreePath} (hC : d.Legal C) {t u : TransId}
    (ht : d.getSourceState t ∈ C) (hu : d.getSourceState u ∈ C) (hne : d.getSourceState t ≠ d.getSourceState u)
    (htu : ¬ (d.getSourceState t).Below (d.getSourceState u)) (hut : ¬ (d.getSourceState u).Below (d.getSourceState t)) :
    ((∃ s ∈ d.getExitSet t, s ∈ d.getExitSet u) ↔ d.ConflictIn C t u) ∧
      (u ∈ ((FastMicroStep.tables d).trans t).conflicts ↔ d.ConflictIn C t u) := by
  have hroot : d.getSourceState t ≠ [] := by
    intro h
    rw [h] at hne hut
    exact hut (TreePath.below_nil.mpr hne.symm)
  have hroot' : d.getSourceState u ≠ [] := by
    intro h
    rw [h] at hne htu
    exact htu (TreePath.below_nil.mpr hne)
  have hstatic : (∃ s ∈ d.getExitSet t, s ∈ d.getExitSet u) ↔ d.ConflictIn C t u := by
    constructor
    · exact exitSets_share_active hn hC ht hu hroot hroot'
    · rintro ⟨s, -, hst, hsu⟩
      exact ⟨s, hst, hsu⟩
  refine ⟨hstatic, ?_⟩
  rw [← hstatic]
  show u ∈ ((FastMicroStep.postFixTransitions d).filter fun t' => d.conflicts t t').toFinset ↔ _
  rw [List.mem_toFinset, List.mem_filter, conflicts_iff]
  simp only [hne, htu, hut, false_or]
  refine ⟨fun h => h.2, fun h => ⟨?_, h⟩⟩
  obtain ⟨s, -, hsu⟩ := h
  exact mem_postFixTransitions_of_exit hsu

/-- Both transitions exit the active `a`, and the matrix says that they conflict. -/
theorem static_conflicts_exact_leavingRegion :
    leavingRegion.Legal {[], [0], [0, 0], [0, 0, 0], [0, 1], [0, 1, 0]} ∧
      (([0, 1, 0], 0) ∈ ((FastMicroStep.tables leavingRegion).trans ([0, 0, 0], 0)).conflicts ↔
        leavingRegion.ConflictIn {[], [0], [0, 0], [0, 0, 0], [0, 1], [0, 1, 0]} ([0, 0, 0], 0) ([0, 1, 0], 0)) ∧
      leavingRegion.ConflictIn {[], [0], [0, 0], [0, 0, 0], [0, 1], [0, 1, 0]} ([0, 0, 0], 0) ([0, 1, 0], 0) := by
  refine ⟨by decide +kernel, ?_, [0, 0, 0], by decide +kernel, by decide +kernel, by decide +kernel⟩
  exact (static_conflicts_exact leavingRegion_nesting (by decide +kernel) (by decide +kernel) (by decide +kernel)
    (by decide +kernel) (by decide +kernel) (by decide +kernel)).2

end Document

end Uscxml
