import Uscxml.EntrySet
import Uscxml.FastMicroStep.Effects
import Uscxml.FastMicroStep.Selection
import Mathlib.Data.List.Sort

/-!
# The configurations of the microstepper are legal

For the charts without histories whose targets can be active together, every microstep leads from a legal
configuration to a legal one. The domains of the selected transitions are incomparable, since two transitions
of which one has its domain at or above that of the other exit a common state and conflict; the states below
the domains are the region of the microstep. The walk over the entry set meets every member behind the one
that put it there, so that one pass settles them all.
-/

namespace Uscxml

variable {β : Type}

/-- An element with an `<initial>` child has one as its first child. -/
def Document.InitialsFirst (d : Document β) : Prop :=
  ∀ p k, d.tag? (p ++ [k]) = some .initial → d.tag? (p ++ [0]) = some .initial

theorem initialsFirst_resortStates (d : Document β) : (resortStates d).InitialsFirst :=
  fun _ _ h => resortStates_initial_first d h

namespace FastMicroStep

open Document

variable {d : Document β}

/-! ### The tables of a legal chart -/

section Tables

variable (hg : d.Grammar) (hh : ∀ p, d.tag? p ≠ some .history)

include hg hh

theorem pseudo_iff {p : TreePath} (hp : p ∈ d.states) :
    (stateType d p).pseudo = false ↔ d.tag? p ≠ some .initial := by
  cases ht : d.tag? p with
  | none =>
    rw [Document.mem_states] at hp
    rw [tag?, Option.map_eq_none_iff] at ht
    simp [ht] at hp
  | some t =>
    cases t with
    | scxml =>
      rw [stateType_of_state hg.finalAttr (Or.inl ht)]
      split <;> simp [StateType.pseudo]
    | state =>
      rw [stateType_of_state hg.finalAttr (Or.inr ht)]
      split <;> simp [StateType.pseudo]
    | parallel => simp [stateType_of_parallel hg.finalAttr ht, StateType.pseudo]
    | final => simp [stateType_of_final hg.finalAttr ht, StateType.pseudo]
    | initial => simp [stateType_of_initial ht, StateType.pseudo]
    | history => exact absurd ht (hh p)

omit hg in
theorem getCompletion_of_not_parallel {p : TreePath} (h : d.tag? p ≠ some .parallel) :
    getCompletion d p = initialCompletion d p := by
  rw [getCompletion, if_neg (by simpa [isHistory] using hh p),
    if_neg (by simpa [isParallel] using h)]

theorem mem_completion_parallel {p c : TreePath} (h : d.tag? p = some .parallel) :
    c ∈ (stateInfo d p).completion ↔ d.ProperChild p c := by
  have hlist : getCompletion d p = (d.getChildStates p true).map some := by
    rw [getCompletion, if_neg (by simpa [isHistory] using hh p), if_pos (isParallel_iff.mpr h)]
  have hsub : (d.getChildStates p true).Sublist d.states := List.filter_sublist.trans List.filter_sublist
  rw [stateInfo, hlist, matchInOrder_of_sublist hsub, List.mem_toFinset, hg.mem_getChildStates_true]

omit hg hh in
theorem head_initial (hi : d.InitialsFirst) {p init : TreePath} {rest : List TreePath}
    (h : (d.children p).filter (fun c => d.tag? c = some .initial) = init :: rest) :
    d.tag? init = some .initial ∧ init = p ++ [0] := by
  have hmem : init ∈ (d.children p).filter (fun c => d.tag? c = some .initial) := h ▸ List.mem_cons_self
  rw [List.mem_filter, mem_children, decide_eq_true_iff] at hmem
  obtain ⟨⟨-, hne, hpar⟩, htag⟩ := hmem
  refine ⟨htag, ?_⟩
  obtain ⟨k, hk⟩ := TreePath.eq_parent_concat hne
  rw [hpar] at hk
  have hzero : d.tag? (p ++ [0]) = some .initial := hi p k (hk ▸ htag)
  have hmem₀ : p ++ [0] ∈ (d.children p).filter (fun c => d.tag? c = some .initial) := by
    rw [List.mem_filter, mem_children, decide_eq_true_iff]
    exact ⟨⟨mem_states_of_tag hzero, by simp, TreePath.parent_concat p 0⟩, hzero⟩
  rw [h] at hmem₀
  rcases List.mem_cons.mp hmem₀ with heq | hrest
  · exact heq.symm
  · -- The list is in document order, and nothing below `p` comes before its first child.
    have hsorted : (init :: rest).Pairwise (· < ·) :=
      h ▸ (d.tree.preorder_pairwise.filter _).filter _
    have hlt : init < p ++ [0] := (List.pairwise_cons.mp hsorted).1 _ hrest
    by_cases hpre : p ++ [0] <+: init
    · rcases TreePath.below_or_eq_of_prefix hpre with heq | hb
      · exact heq
      · exact absurd hlt (not_lt.mpr hb.lt.le)
    · have hbelow : init.Below p := TreePath.below_of_parent_eq hne hpar
      exact absurd hlt (not_lt.mpr (TreePath.first_child_lt hbelow hpre).le)

end Tables

section Completions

variable (hd : d.LegalChart)

include hd

theorem completion_compound (hi : d.InitialsFirst) {p : TreePath} (hp : d.isCompound p = true) (hroot : p ≠ []) :
    ∃ c, (stateInfo d p).completion = {c} ∧ c ≠ [] ∧ c.parent = p ∧
      (d.ProperState c ∨ d.tag? c = some .initial ∧ c = p ++ [0]) := by
  have hg := hd.toGrammar
  obtain ⟨htag, child, hchild⟩ := hg.isCompound_iff.mp hp
  have hnp : d.tag? p ≠ some .parallel := by rcases htag with h | h <;> simp [h]
  suffices h : ∃ c, getCompletion d p = [some c] ∧ c ∈ d.states ∧ c ≠ [] ∧ c.parent = p ∧
      (d.ProperState c ∨ d.tag? c = some .initial ∧ c = p ++ [0]) by
    obtain ⟨c, hc, hmem, hrest⟩ := h
    refine ⟨c, ?_, hrest⟩
    have := matchInOrder_of_sublist (List.singleton_sublist.mpr hmem)
    rw [List.map_singleton] at this
    rw [stateInfo, hc, this]
    rfl
  rw [getCompletion_of_not_parallel hd.noHistory hnp, initialCompletion]
  cases hattr : (d.elem? p).bind (·.initial) with
  | some ids =>
    obtain ⟨i, c, rfl, hget, hc⟩ := hd.initialAttr p (mem_states_of_above hchild.below.1 hchild.mem_states) hroot ids hattr
    exact ⟨c, by simp [getStates, hget], hc.mem_states, hc.1, hc.2.1, Or.inl hc.2.2⟩
  | none =>
    simp only
    cases hinit : (d.children p).filter fun c => d.tag? c = some .initial with
    | cons init rest =>
      obtain ⟨htag, heq⟩ := head_initial hi hinit
      refine ⟨init, rfl, mem_states_of_tag htag, ?_, ?_, Or.inr ⟨htag, heq⟩⟩
      · rw [heq]
        simp
      · rw [heq, TreePath.parent_concat]
    | nil =>
      obtain ⟨c, rest, hkids, hc⟩ := hg.exists_first_child hchild
      rw [hkids]
      exact ⟨c, rfl, hc.mem_states, hc.1, hc.2.1, Or.inl hc.2.2⟩

theorem completion_root (hi : d.InitialsFirst) :
    ∃ l : List TreePath, (stateInfo d []).completion = l.toFinset ∧ l ≠ [] ∧
      (d.Compatible l ∨ ∃ c, l = [c] ∧ (d.ProperState c ∨ d.tag? c = some .initial ∧ c = [0])) := by
  have hg := hd.toGrammar
  have hnp : d.tag? [] ≠ some .parallel := by simp [(hg.root []).mpr rfl]
  suffices h : ∃ l : List TreePath, getCompletion d [] = l.map some ∧ l.Sublist d.states ∧ l ≠ [] ∧
      (d.Compatible l ∨ ∃ c, l = [c] ∧ (d.ProperState c ∨ d.tag? c = some .initial ∧ c = [0])) by
    obtain ⟨l, hl, hsub, hrest⟩ := h
    exact ⟨l, by rw [stateInfo, hl, matchInOrder_of_sublist hsub], hrest⟩
  rw [getCompletion_of_not_parallel hd.noHistory hnp, initialCompletion]
  cases hattr : (d.elem? []).bind (·.initial) with
  | some ids =>
    obtain ⟨l, hl, hne, hsorted, hcomp⟩ := hd.rootAttr ids (by simpa [Document.elem?] using hattr)
    refine ⟨l, hl, ?_, hne, Or.inl hcomp⟩
    have hnodup : l.Nodup := hsorted.imp fun h => ne_of_lt h
    have hsub : l.Subperm d.states := hnodup.subperm fun p hp => (hcomp.1 p hp).mem_states
    exact List.sublist_of_subperm_of_pairwise hsub hsorted d.tree.preorder_pairwise
  | none =>
    simp only
    cases hinit : (d.children []).filter fun c => d.tag? c = some .initial with
    | cons init rest =>
      obtain ⟨htag, heq⟩ := head_initial hi hinit
      exact ⟨[init], rfl, List.singleton_sublist.mpr (mem_states_of_tag htag), by simp,
        Or.inr ⟨init, rfl, Or.inr ⟨htag, by simpa using heq⟩⟩⟩
    | nil =>
      obtain ⟨child, hchild⟩ := hg.nonempty
      have hmem := hg.mem_getChildStates_true.mpr hchild
      cases hkids : d.getChildStates [] true with
      | nil => simp [hkids] at hmem
      | cons c rest =>
        have hc : d.ProperChild [] c := hg.mem_getChildStates_true.mp (hkids ▸ List.mem_cons_self)
        exact ⟨[c], rfl, List.singleton_sublist.mpr hc.mem_states, by simp, Or.inr ⟨c, rfl, Or.inl hc.2.2⟩⟩

end Completions

/-! ### The region of a microstep -/

def regionOf (d : Document β) (transSet : Finset TransId) (x : TreePath) : Prop :=
  ∃ t ∈ transSet, ∃ domain, d.getTransitionDomain t = some domain ∧ x.Below domain

section Region

variable {ω : Type} {C : Finset TreePath} {sel : Selection ω} (hd : d.LegalChart) (hsel : Selected (tables d) C sel)

include hsel

theorem not_conflicts {t t' : TransId} (ht : t ∈ sel.transSet) (ht' : t' ∈ sel.transSet) (hne : t ≠ t') :
    d.conflicts t t' = false := by
  have hmem : ∀ {u u' : TransId}, u' ∈ sel.transSet → u' ∉ (transitionInfo d u).conflicts → d.conflicts u u' = false := by
    intro u u' hu' h
    have hin := (hsel.active u' hu').1
    change u' ∈ postFixTransitions d at hin
    simpa [transitionInfo, hin] using h
  rcases hsel.free t ht t' ht' hne with h | h
  · exact hmem ht' h
  · exact conflicts_comm t' t ▸ hmem ht h

include hd

theorem source_tag {t : TransId} (ht : t ∈ sel.transSet) :
    d.tag? t.1 = some .state ∨ d.tag? t.1 = some .parallel := by
  have hin := (hsel.active t ht).1
  change t ∈ postFixTransitions d at hin
  rw [mem_postFixTransitions] at hin
  have hinit : d.tag? t.1 ≠ some .initial := by
    have := (hsel.proper t ht).2
    simpa [tables, transitionInfo] using this
  rcases hd.sources t.1 (List.ne_nil_of_length_pos (Nat.zero_lt_of_lt hin)) with h | h | h
  · exact Or.inl h
  · exact Or.inr h
  · exact absurd h hinit

/-- Of two selected transitions none has its domain at or above that of the other. -/
theorem domain_incomparable {t t' : TransId} (ht : t ∈ sel.transSet) (ht' : t' ∈ sel.transSet) {D D' : TreePath}
    (hD : d.getTransitionDomain t = some D) (hD' : d.getTransitionDomain t' = some D') (hle : D' <+: D) : t = t' := by
  by_contra hne
  obtain ⟨D₁, hD₁, hcomp, -, -⟩ := hd.domain_spec (source_tag hd hsel ht) (targets_ne_nil_of_domain hD)
  rw [hD] at hD₁
  cases hD₁
  obtain ⟨-, c, hc⟩ := hd.toGrammar.isCompound_iff.mp hcomp
  have hmem : c ∈ d.getExitSet t := mem_getExitSet.mpr ⟨D, hD, hc.2.2, hc.below⟩
  have hmem' : c ∈ d.getExitSet t' := mem_getExitSet.mpr ⟨D', hD', hc.2.2, hc.below.trans_above hle⟩
  have hconf : d.conflicts t t' = true := conflicts_iff.mpr (Or.inr (Or.inr (Or.inr ⟨c, hmem, hmem'⟩)))
  rw [not_conflicts hsel ht ht' hne] at hconf
  cases hconf

/-- The transition whose domain lies above a state is unique. -/
theorem domain_unique {t t' : TransId} (ht : t ∈ sel.transSet) (ht' : t' ∈ sel.transSet) {D D' x : TreePath}
    (hD : d.getTransitionDomain t = some D) (hD' : d.getTransitionDomain t' = some D') (hx : D <+: x)
    (hx' : D' <+: x) : t = t' := by
  rcases TreePath.comparable hx hx' with rfl | h | h
  · exact domain_incomparable hd hsel ht ht' hD hD' (List.prefix_refl D)
  · exact domain_incomparable hd hsel ht ht' hD hD' h.1
  · exact (domain_incomparable hd hsel ht' ht hD' hD h.1).symm

theorem region_of_selected (hC : d.Legal C) :
    d.Region C (sel.exitSet ∩ C) sel.targetSet (regionOf d sel.transSet) := by
  have hg := hd.toGrammar
  have hspec : ∀ {t : TransId} {D : TreePath}, t ∈ sel.transSet → d.getTransitionDomain t = some D →
      d.isCompound D = true ∧ D <+: t.1 ∧ ∀ s ∈ d.getTargetStates t, s.Below D := by
    intro t D ht hD
    obtain ⟨D₁, hD₁, hrest⟩ := hd.domain_spec (source_tag hd hsel ht) (targets_ne_nil_of_domain hD)
    rw [hD] at hD₁
    cases hD₁
    exact hrest
  have htarget : ∀ {s : TreePath}, s ∈ sel.targetSet → ∃ t ∈ sel.transSet, s ∈ d.getTargetStates t ∧
      ∃ D, d.getTransitionDomain t = some D ∧ s.Below D := by
    intro s hs
    obtain ⟨t, ht, hst⟩ := (hsel.target s).mp hs
    have hst' : s ∈ d.getTargetStates t := (mem_target hd.uniqueIds).mp hst
    obtain ⟨D, hD, -, -, hbelow⟩ := hd.domain_spec (source_tag hd hsel ht) (List.ne_nil_of_mem hst')
    exact ⟨t, ht, hst', D, hD, hbelow s hst'⟩
  refine ⟨fun _ => hC, ?_, ?_, ?_, ?_, ?_, ?_⟩
  · intro x
    rw [Finset.mem_inter, hsel.exit, and_comm]
    refine and_congr_right fun hx => ?_
    constructor
    · rintro ⟨t, ht, hxt⟩
      obtain ⟨D, hD, -, hb⟩ := mem_getExitSet.mp (mem_exitSet.mp hxt)
      exact ⟨t, ht, D, hD, hb⟩
    · rintro ⟨t, ht, D, hD, hb⟩
      have hne : x ≠ [] := by
        rintro rfl
        exact TreePath.not_nil_below D hb
      exact ⟨t, ht, mem_exitSet.mpr (mem_getExitSet.mpr ⟨D, hD, hC.proper x hx hne, hb⟩)⟩
  · rintro x y ⟨t, ht, D, hD, hb⟩ hyx
    exact ⟨t, ht, D, hD, hyx.trans hb⟩
  · refine Or.inl ⟨hC.root, ?_⟩
    rintro ⟨t, -, D, -, hb⟩
    exact TreePath.not_nil_below D hb
  · rintro x ⟨t, ht, D, hD, hb⟩ hne hpar
    obtain ⟨hcomp, hsource, hbelow⟩ := hspec ht hD
    -- The parent lies at the domain but not below it.
    have heq : x.parent = D := by
      rcases TreePath.below_or_eq_of_prefix (TreePath.prefix_parent_of_below hb) with h | h
      · exact h
      · exact absurd ⟨t, ht, D, hD, h⟩ hpar
    have hDC : D ∈ C := by
      have hsrc : t.1 ∈ C := (hsel.active t ht).2
      rcases TreePath.below_or_eq_of_prefix hsource with h | h
      · exact h ▸ hsrc
      · exact hC.ancestor _ hsrc _ h
    rw [heq]
    refine ⟨hDC, ?_, ?_, ?_⟩
    · rcases (hg.isCompound_iff.mp hcomp).1 with h | h <;> simp [h]
    · obtain ⟨s, hs⟩ := List.exists_mem_of_ne_nil _ (targets_ne_nil_of_domain hD)
      exact ⟨s, (hsel.target s).mpr ⟨t, ht, (mem_target hd.uniqueIds).mpr hs⟩, hbelow s hs⟩
    · intro y hy hyD
      exact ⟨t, ht, D, hD, TreePath.below_of_parent_eq hy hyD⟩
  · intro s hs
    obtain ⟨t, ht, hst, D, hD, hb⟩ := htarget hs
    exact ⟨⟨t, ht, D, hD, hb⟩, Or.inl ((hd.compatible hst).1 s hst)⟩
  · rintro s hs s' hs' c c' hc hc' hne hne' hpar hnp ⟨u, hu, Du, hDu, hcu⟩ ⟨u', hu', Du', hDu', hcu'⟩
    obtain ⟨t, ht, hst, D, hD, hb⟩ := htarget hs
    obtain ⟨t', ht', hst', D', hD', hb'⟩ := htarget hs'
    -- Both targets belong to one transition: its domain lies above the common parent.
    have htu : t = u := domain_unique hd hsel ht hu hD hDu hb.1 (hcu.1.trans hc)
    have htu' : t' = u' := domain_unique hd hsel ht' hu' hD' hDu' hb'.1 (hcu'.1.trans hc')
    have huu : u = u' := domain_unique hd hsel hu hu' hDu hDu' (TreePath.prefix_parent_of_below hcu)
      (hpar ▸ TreePath.prefix_parent_of_below hcu')
    have htt : t = t' := htu.trans (huu.trans htu'.symm)
    subst htt
    exact (hd.compatible hst).child_unique hg hst hst' hc hc' hne hne' hpar hnp

end Region

/-- At the start of a run everything may be entered. -/
theorem region_start (hd : d.LegalChart) (hi : d.InitialsFirst) :
    d.Region ∅ ∅ (stateInfo d []).completion (fun _ => True) := by
  obtain ⟨l, hl, hne, hcase⟩ := completion_root hd hi
  refine ⟨by simp, by simp, fun _ _ _ _ => trivial, Or.inr ?_, fun _ _ _ h => absurd trivial h, ?_, ?_⟩
  · obtain ⟨t, ht⟩ := List.exists_mem_of_ne_nil l hne
    exact ⟨t, hl ▸ List.mem_toFinset.mpr ht⟩
  · intro t ht
    rw [hl, List.mem_toFinset] at ht
    refine ⟨trivial, ?_⟩
    rcases hcase with h | ⟨c, rfl, h⟩
    · exact Or.inl (h.1 t ht)
    · rw [List.mem_singleton] at ht
      subst ht
      exact h.imp id fun h => ⟨h.1, h.2, trivial⟩
  · intro t ht t' ht' c c' hc hc' hne₁ hne₂ hpar hnp _ _
    rw [hl, List.mem_toFinset] at ht ht'
    rcases hcase with h | ⟨u, rfl, -⟩
    · exact h.child_unique hd.toGrammar ht ht' hc hc' hne₁ hne₂ hpar hnp
    · rw [List.mem_singleton] at ht ht'
      subst ht
      subst ht'
      exact TreePath.eq_of_prefix_of_parent_eq hc hc' hne₁ hne₂ hpar

/-! ### The pass over the entry set -/

theorem mem_addAncestors {S : Finset TreePath} (hS : ∀ t ∈ S, t ∈ d.states) {e : TreePath} :
    e ∈ addAncestors (tables d) S ↔ ∃ t ∈ S, e <+: t := by
  have hkeep : ∀ x : TreePath, ∀ es : Finset TreePath, ∀ i ∈ d.states,
      x ∈ es → x ∈ (if i ∈ es then es ∪ ((tables d).state i).ancestors else es) := by
    intro x es i _ hx
    split
    · exact Finset.mem_union_left _ hx
    · exact hx
  constructor
  · intro he
    have hinv : ∀ x ∈ addAncestors (tables d) S, ∃ t ∈ S, x <+: t := by
      refine List.foldl_invariant (fun es : Finset TreePath => ∀ x ∈ es, ∃ t ∈ S, x <+: t) ?_
        fun x hx => ⟨x, hx, List.prefix_refl x⟩
      intro es i _ hes x hx
      split at hx
      · rename_i hi
        rcases Finset.mem_union.mp hx with hx | hx
        · exact hes x hx
        · obtain ⟨t, ht, hit⟩ := hes i hi
          exact ⟨t, ht, (mem_stateInfo_ancestors.mp hx).1.trans hit⟩
      · exact hes x hx
    exact hinv e he
  · rintro ⟨t, ht, het⟩
    rcases TreePath.below_or_eq_of_prefix het with rfl | hb
    · exact List.foldl_invariant (fun es : Finset TreePath => t ∈ es) (hkeep t) ht
    · refine List.foldl_establish (fun es : Finset TreePath => t ∈ es) (fun es => e ∈ es) (hkeep t)
        (hkeep e) (hS t ht) ?_ ht
      intro es htes
      simp only [if_pos htes]
      exact Finset.mem_union_right _ (mem_stateInfo_ancestors.mpr hb)

theorem initial_transitions (hg : d.Grammar) {i : TreePath} (htag : d.tag? i = some .initial) :
    ((tables d).transitions.filter fun j => ((tables d).trans j).source = i) = [(i, 0)] := by
  have hlen := (hg.initial i htag).1
  have hfilter := filter_postFixTransitions (d := d) i
  rw [transIds, hlen] at hfilter
  exact hfilter

/-- An `<initial>` that is the first child makes way for the targets of its transition and their ancestors. -/
theorem mem_enterInitial (hg : d.Grammar) (hu : d.UniqueIds) {e : Entry} {i : TreePath} (htag : d.tag? i = some .initial)
    (hfirst : i = i.parent ++ [0]) (hproper : ∀ s ∈ d.getTargetStates (i, 0), d.ProperState s)
    (hbelow : ∀ s ∈ d.getTargetStates (i, 0), s.Below i.parent) {x : TreePath} :
    x ∈ (enterInitial (tables d) i e).entrySet ↔
      x ∈ e.entrySet ∧ x ≠ i ∨ ∃ s ∈ d.getTargetStates (i, 0), x <+: s := by
  have hahead : ∀ s ∈ d.getTargetStates (i, 0), i < s := by
    intro s hs
    rw [hfirst]
    refine TreePath.first_child_lt (hbelow s hs) fun hpre => ?_
    rw [← hfirst] at hpre
    rcases TreePath.below_or_eq_of_prefix hpre with rfl | hb
    · exact (hproper _ hs).tag_ne_initial htag
    · rcases hg.tag_of_below (hproper s hs).mem_states hb with h | h | h <;> simp [h] at htag
  have hfold : ∀ (l : List TreePath) (es : Finset TreePath) (x : TreePath),
      x ∈ l.foldl (fun es k => es ∪ ((tables d).state k).ancestors) es ↔ x ∈ es ∨ ∃ k ∈ l, k.Below x := by
    intro l
    induction l with
    | nil => simp
    | cons k l ih =>
      intro es x
      rw [List.foldl_cons, ih, Finset.mem_union]
      have : x ∈ ((tables d).state k).ancestors ↔ k.Below x := mem_stateInfo_ancestors
      rw [this]
      simp [or_assoc]
  have htrans : ∀ s, s ∈ ((tables d).trans (i, 0)).target ↔ s ∈ d.getTargetStates (i, 0) :=
    fun s => mem_target hu
  rw [enterInitial, initial_transitions hg htag]
  simp only [List.foldl_cons, List.foldl_nil, hfold, mem_behind, Finset.mem_union, Finset.mem_erase, htrans]
  constructor
  · rintro ((h | h) | ⟨k, ⟨-, -, hk⟩, hb⟩)
    · exact Or.inl ⟨h.2, h.1⟩
    · exact Or.inr ⟨x, h, List.prefix_refl x⟩
    · exact Or.inr ⟨k, hk, hb.1⟩
  · rintro (h | ⟨s, hs, hxs⟩)
    · exact Or.inl (Or.inl ⟨h.2, h.1⟩)
    · rcases TreePath.below_or_eq_of_prefix hxs with rfl | hb
      · exact Or.inl (Or.inr hs)
      · exact Or.inr ⟨s, ⟨(hproper s hs).mem_states, hahead s hs, hs⟩, hb⟩

/-- What a round of the walk does to a member of the entry set, by its kind. -/
theorem descend_cases (hg : d.Grammar) (hh : ∀ p, d.tag? p ≠ some .history) {C X H : Finset TreePath} {e : Entry} {i : TreePath}
    (hi : i ∈ e.entrySet) (hstate : i ∈ d.states) :
    (d.tag? i = some .parallel ∧
        (descend (tables d) C X H e i).entrySet = e.entrySet ∪ (stateInfo d i).completion) ∨
      (d.isCompound i = true ∧
        (descend (tables d) C X H e i).entrySet = enterCompound (tables d) C X i e.entrySet) ∨
      (d.tag? i = some .initial ∧ descend (tables d) C X H e i = enterInitial (tables d) i e) ∨
      (d.tag? i ≠ some .parallel ∧ d.isCompound i = false ∧ d.tag? i ≠ some .initial ∧
        descend (tables d) C X H e i = e) := by
  simp only [descend, if_pos hi]
  have htype : ((tables d).state i).type = stateType d i := rfl
  cases ht : d.tag? i with
  | none =>
    rw [Document.mem_states] at hstate
    rw [tag?, Option.map_eq_none_iff] at ht
    simp [ht] at hstate
  | some t =>
    have hplain : t = .scxml ∨ t = .state → d.tag? i = some .scxml ∨ d.tag? i = some .state := by
      rintro (rfl | rfl)
      · exact Or.inl ht
      · exact Or.inr ht
    have hcompound : t ≠ .scxml → t ≠ .state → d.isCompound i = false := by
      intro h₁ h₂
      rw [← Bool.not_eq_true, hg.isCompound_iff]
      rintro ⟨h | h, -⟩
      · rw [ht] at h
        exact h₁ (Option.some.inj h)
      · rw [ht] at h
        exact h₂ (Option.some.inj h)
    have hround : t = .scxml ∨ t = .state → d.isCompound i = true ∧ stateType d i = .compound ∨
        d.isCompound i = false ∧ stateType d i = .atomic := by
      intro h
      have := stateType_of_state hg.finalAttr (hplain h)
      cases hc : d.isCompound i with
      | true => exact Or.inl ⟨rfl, by rw [this, hc]; rfl⟩
      | false => exact Or.inr ⟨rfl, by rw [this, hc]; rfl⟩
    cases t with
    | scxml =>
      rcases hround (Or.inl rfl) with ⟨hc, h⟩ | ⟨hc, h⟩
      · simp [htype, h, hc]
      · simp [htype, h, hc]
    | state =>
      rcases hround (Or.inr rfl) with ⟨hc, h⟩ | ⟨hc, h⟩
      · simp [htype, h, hc]
      · simp [htype, h, hc]
    | parallel =>
      refine Or.inl ⟨rfl, ?_⟩
      simp only [htype, stateType_of_parallel hg.finalAttr ht]
      rfl
    | final =>
      simp [htype, stateType_of_final hg.finalAttr ht, hcompound]
    | initial =>
      simp [htype, stateType_of_initial ht]
    | history => exact absurd ht (hh i)

section Pass

variable {C X targets H : Finset TreePath} {N : TreePath → Prop}

theorem disjoint_children {E : Finset TreePath} {i : TreePath} (hE : ∀ e ∈ E, e ∈ d.states) :
    Disjoint E (stateInfo d i).children ↔ ¬ HasBelow E i := by
  rw [Finset.disjoint_left]
  constructor
  · rintro h ⟨e, he, hb⟩
    exact h he (mem_stateInfo_children.mpr ⟨hE e he, hb⟩)
  · intro h e he hc
    exact h ⟨e, he, (mem_stateInfo_children.mp hc).2⟩

variable (hd : d.LegalChart) (hi : d.InitialsFirst) (hr : d.Region C X targets N)

include hr

theorem Region_mem_states : ∀ c ∈ C, c ∈ d.states := by
  intro c hc
  by_cases hne : c = []
  · exact hne ▸ d.root_mem_states
  · exact ((hr.legal ⟨c, hc⟩).proper c hc hne).mem_states

include hd hi

omit hd hi in
/-- A compound state is completed exactly when it lies in the region and has nothing below it yet. -/
theorem completes_iff {E : Finset TreePath} (hE : d.Entering C targets N E) {i : TreePath} (hiE : i ∈ E)
    (hcomp : d.isCompound i = true) : (Disjoint E (stateInfo d i).children ∧
      (Disjoint C (stateInfo d i).children ∨ ¬ Disjoint X (stateInfo d i).children)) ↔ N i ∧ ¬ HasBelow E i := by
  have hX : ∀ x ∈ X, x ∈ d.states := fun x hx => Region_mem_states hr x ((hr.exit x).mp hx).1
  rw [disjoint_children hE.mem_states, disjoint_children (Region_mem_states hr), disjoint_children hX, not_not]
  constructor
  · rintro ⟨hnone, hrest⟩
    refine ⟨?_, hnone⟩
    -- An active compound state outside the region keeps its child, or a target lies below it.
    by_contra hN
    have hiC : i ∈ C := (hE.region i hiE).resolve_left hN
    rcases hrest with hC | ⟨x, hx, hb⟩
    · obtain ⟨c, ⟨hc, hchild⟩, -⟩ := (hr.legal ⟨i, hiC⟩).compound i hiC (Or.inr hcomp)
      exact hC ⟨c, hc, hchild.below⟩
    · exact hnone (hE.reach i (hr.target_below ((hr.exit x).mp hx).2 hb hN))
  · rintro ⟨hN, hnone⟩
    refine ⟨hnone, ?_⟩
    by_cases hC : HasBelow C i
    · obtain ⟨c, hc, hb⟩ := hC
      exact Or.inr ⟨c, (hr.exit c).mpr ⟨hc, hr.below i c hN hb⟩, hb⟩
    · exact Or.inl hC

omit hi in
/-- The root is never completed, for when it is entered the targets lie below it. -/
theorem ne_nil_of_completes {E : Finset TreePath} (hE : d.Entering C targets N E) {i : TreePath}
    (h : N i ∧ ¬ HasBelow E i) : i ≠ [] := by
  rintro rfl
  rcases hr.root with hroot | ⟨t, ht⟩
  · exact hroot.2 h.1
  · refine h.2 (hE.reach [] ⟨t, ht, TreePath.below_nil.mpr ?_⟩)
    rcases (hr.target t ht).2 with htag | htag
    · exact hd.toGrammar.properState_ne_nil htag
    · rw [htag.2.1]
      simp

theorem enterCompound_spec {E : Finset TreePath} (hE : d.Entering C targets N E) {i : TreePath} (hiE : i ∈ E)
    (hcomp : d.isCompound i = true) :
    d.Treats C targets N i E (enterCompound (tables d) C X i E) := by
  have hg := hd.toGrammar
  have htag := (hg.isCompound_iff.mp hcomp).1
  have hnp : d.tag? i ≠ some .parallel := by rcases htag with h | h <;> simp [h]
  have hproper : d.tag? i ≠ some .initial := by rcases htag with h | h <;> simp [h]
  have hsettled : ∀ {E' : Finset TreePath}, HasBelow E' i → d.Settled E' i := fun h =>
    ⟨fun _ => h, fun hp => absurd (isParallel_iff.mp hp) hnp, hproper⟩
  have hcond := completes_iff hr hE hiE hcomp
  by_cases hgo : N i ∧ ¬ HasBelow E i
  · have hroot := ne_nil_of_completes hd hr hE hgo
    obtain ⟨c, hc, hne, hpar, hkind⟩ := completion_compound hd hi hcomp hroot
    have hbelow : c.Below i := TreePath.below_of_parent_eq hne hpar
    have hmem : c ∈ d.states := by
      rcases hkind with h | h
      · exact h.mem_states
      · exact mem_states_of_tag h.1
    have heq : enterCompound (tables d) C X i E = insert c E := by
      have hchild : ¬ Disjoint ({c} : Finset TreePath) (stateInfo d i).children := by
        rw [Finset.disjoint_singleton_left, not_not]
        exact mem_stateInfo_children.mpr ⟨hmem, hbelow⟩
      simp only [enterCompound, tables, hc]
      rw [if_pos (hcond.mpr hgo), if_neg hchild, Finset.union_comm]
      rfl
    rw [heq]
    refine ⟨hE.complete hr hiE hgo.1 hnp hgo.2 hne hpar hkind, ?_,
      fun _ _ => hsettled ⟨c, Finset.mem_insert_self c E, hbelow⟩⟩
    refine Advances.of_subset (Finset.subset_insert c E) ?_
    intro e he hnot
    rcases Finset.mem_insert.mp he with rfl | he
    · exact hbelow.lt
    · exact absurd he hnot
  · have heq : enterCompound (tables d) C X i E = E := if_neg fun h => hgo (hcond.mp h)
    rw [heq]
    refine ⟨hE, Advances.refl i E, fun _ hN => hsettled ?_⟩
    by_contra hnone
    exact hgo ⟨hN, hnone⟩

omit hi in
theorem enterInitial_spec {e : Entry} (hE : d.Entering C targets N e.entrySet) {i : TreePath} (hiE : i ∈ e.entrySet)
    (htag : d.tag? i = some .initial) :
    d.Treats C targets N i e.entrySet (enterInitial (tables d) i e).entrySet := by
  have hg := hd.toGrammar
  obtain ⟨-, -, hfirst⟩ := hE.initial i hiE htag
  obtain ⟨s₀, hs₀⟩ := List.exists_mem_of_ne_nil _ (hd.initial i htag).2
  have hcomp := hd.compatible hs₀
  have hbelow := hd.initialTargets i (mem_states_of_tag htag) htag
  refine hE.expand hg hr hiE htag hcomp (hd.initial i htag).2 hbelow ?_
  exact fun x => mem_enterInitial hg hd.uniqueIds htag hfirst hcomp.1 hbelow

theorem descend_spec {e : Entry} (hE : d.Entering C targets N e.entrySet) (i : TreePath) :
    d.Treats C targets N i e.entrySet (descend (tables d) C X H e i).entrySet := by
  have hg := hd.toGrammar
  by_cases hiE : i ∈ e.entrySet
  case neg =>
    have heq : descend (tables d) C X H e i = e := if_neg hiE
    rw [heq]
    exact ⟨hE, Advances.refl i _, fun h => absurd h hiE⟩
  rcases descend_cases hg hd.noHistory (C := C) (X := X) (H := H) hiE (hE.mem_states i hiE) with
    ⟨htag, heq⟩ | ⟨hcomp, heq⟩ | ⟨htag, heq⟩ | ⟨hp, hc, htag, heq⟩
  · rw [heq]
    have hF := fun c => mem_completion_parallel hd.toGrammar hd.noHistory (c := c) htag
    refine ⟨hE.parallel hr hiE (isParallel_iff.mpr htag) hF, Advances.of_subset Finset.subset_union_left ?_,
      fun _ _ => ⟨?_, fun _ c hc => Finset.mem_union_right _ ((hF c).mpr hc), by simp [htag]⟩⟩
    · intro x hx hnot
      rcases Finset.mem_union.mp hx with hx | hx
      · exact absurd hx hnot
      · exact ((hF x).mp hx).below.lt
    · intro hcomp
      rcases (hg.isCompound_iff.mp hcomp).1 with h | h <;> simp [h] at htag
  · rw [heq]
    exact enterCompound_spec hd hi hr hE hiE hcomp
  · rw [heq]
    exact enterInitial_spec hd hr hE hiE htag
  · rw [heq]
    refine ⟨hE, Advances.refl i _, fun _ _ => ⟨fun hcomp => ?_, fun hpar => ?_, htag⟩⟩
    · rw [hc] at hcomp
      cases hcomp
    · exact absurd (isParallel_iff.mp hpar) hp

theorem establishEntrySet_spec (transSet : Finset TransId) :
    d.Entering C targets N (establishEntrySet (tables d) C X H targets transSet).entrySet ∧
      ∀ i ∈ (establishEntrySet (tables d) C X H targets transSet).entrySet, N i →
        d.Settled (establishEntrySet (tables d) C X H targets transSet).entrySet i := by
  have hstart : d.Entering C targets N (addAncestors (tables d) targets) := by
    refine hr.entering_start hd.toGrammar fun e => mem_addAncestors ?_
    intro t ht
    rcases (hr.target t ht).2 with h | h
    · exact h.mem_states
    · exact mem_states_of_tag h.1
  obtain ⟨hE, hall⟩ := List.foldl_pass d.tree.preorder_pairwise (f := descend (tables d) C X H)
    (fun e => d.Entering C targets N e.entrySet) (fun e j => j ∈ e.entrySet)
    (fun e j => N j → d.Settled e.entrySet j)
    (fun e i _ h => (descend_spec hd hi hr h i).entering)
    (fun e i _ h hmem => (descend_spec hd hi hr h i).settled hmem)
    (fun e i _ j hj h hmem => by
      have hadv := (descend_spec (H := H) hd hi hr h i).advances
      refine ⟨?_, fun hdone hN => (hdone hN).advance hadv⟩
      by_contra hnot
      exact absurd (hadv.ahead j hmem hnot) (not_lt.mpr hj.le))
    (s := { entrySet := addAncestors (tables d) targets, transSet }) hstart
  exact ⟨hE, fun i hmem => hall i (hE.mem_states i hmem) hmem⟩

/-- The configuration after a microstep is legal. -/
theorem nextConfiguration_legal (transSet : Finset TransId) :
    d.Legal (nextConfiguration (tables d) targets X transSet C H) := by
  obtain ⟨hE, hsettled⟩ := establishEntrySet_spec (H := H) hd hi hr transSet
  refine hr.legal_next hd.toGrammar hE hsettled fun p => ?_
  rw [mem_nextConfiguration]
  have hstates := Region_mem_states hr
  constructor
  · rintro (⟨hp, hX⟩ | ⟨hp, hstate, hpseudo⟩)
    · exact Or.inl ⟨hp, fun h => hX ⟨h, hstates p hp⟩⟩
    · exact Or.inr ⟨hp, (pseudo_iff hd.toGrammar hd.noHistory hstate).mp hpseudo⟩
  · rintro (⟨hp, hX⟩ | ⟨hp, htag⟩)
    · exact Or.inl ⟨hp, fun h => hX h.1⟩
    · have hstate := hE.mem_states p hp
      exact Or.inr ⟨hp, hstate, (pseudo_iff hd.toGrammar hd.noHistory hstate).mpr htag⟩

end Pass

/-! ### Runs -/

/-- The configurations of a run: none before the first step, and legal ones afterwards. -/
def LegalRun {ω : Type} (d : Document β) (s : St ω) : Prop :=
  s.flags = {} ∧ s.configuration = ∅ ∨ s.flags.initialized = true ∧ d.Legal s.configuration

theorem legalRun_of_moves {ω : Type} {cb : Callbacks ω} (hd : d.LegalChart) (hi : d.InitialsFirst) {s s' : St ω}
    (h : LegalRun d s) (hm : Moves (tables d) cb s s') : LegalRun d s' := by
  have hrunning : s.flags.pristine = false → s.flags.initialized = true ∧ d.Legal s.configuration := by
    intro hp
    rcases h with h | h
    · simp [h.1, Flags.pristine] at hp
    · exact h
  cases hm with
  | stays _ hpristine hconf hhist hflag =>
    obtain ⟨hinit, hlegal⟩ := hrunning hpristine
    exact Or.inr ⟨hflag.trans hinit, hconf ▸ hlegal⟩
  | starts m _ hpristine hm hconf hhist hflag =>
    have hempty : s.configuration = ∅ := by
      rcases h with h | h
      · exact h.2
      · have hflags : s.flags = {} := of_decide_eq_true hpristine
        simp [hflags] at h
    refine Or.inr ⟨hflag, ?_⟩
    rw [hconf, hm, Microstep.next, hempty]
    exact nextConfiguration_legal hd hi (region_start hd hi) ∅
  | takes m _ hpristine event w sel hsel hm hfound hconf hhist hflag =>
    obtain ⟨hinit, hlegal⟩ := hrunning hpristine
    refine Or.inr ⟨hflag.trans hinit, ?_⟩
    have hselected : Selected (tables d) s.configuration sel := hsel ▸ selectTransitions_selected _ _ _ _ _
    rw [hconf, hm]
    exact nextConfiguration_legal hd hi (region_of_selected hd hselected hlegal) sel.transSet

theorem legalRun_of_reachable {ω : Type} {cb : Callbacks ω} (hd : d.LegalChart) (hi : d.InitialsFirst) {s : St ω}
    (hs : Reachable (tables d) cb s) : LegalRun d s := by
  induction hs with
  | init w => exact Or.inl ⟨rfl, rfl⟩
  | step _ ih => exact legalRun_of_moves hd hi ih (step_moves (tables d) cb _)
  | environment w _ ih => exact ih
  | cancel _ ih => exact ih

/-- In every run of the microstepper on a legal chart, the configuration is legal as soon as the first
microstep was taken. -/
theorem configuration_legal {d : Document β} (hd : (resortStates d).LegalChart) {ω : Type} (cb : Callbacks ω)
    {s : St ω} (hs : Reachable (init d) cb s) (hstarted : s.flags.pristine = false) :
    (resortStates d).Legal s.configuration := by
  rcases legalRun_of_reachable hd (initialsFirst_resortStates d) hs with h | h
  · simp [h.1, Flags.pristine] at hstarted
  · exact h.2

/-- A chart with two regions, one completed by its `<initial>` and the other by its attribute. -/
def twoRegions : Document Unit where
  tree :=
    { root := { tag := .scxml, initial := some ["p"] }
      kids := .cons { tag := .parallel, id := some "p" }
        (.cons { tag := .state, id := some "r" }
          (.cons { tag := .state, id := some "a" } .nil
            (.cons { tag := .state, id := some "b", transitions := [{ target := some ["a"], event := some "e" }] } .nil
              (.cons { tag := .initial, transitions := [{ target := some ["b"] }] } .nil .nil)))
          (.cons { tag := .state, id := some "s", initial := some ["c"] }
            (.cons { tag := .state, id := some "c", transitions := [{ target := some ["q"], event := some "f" }] } .nil
              .nil) .nil))
        (.cons { tag := .final, id := some "q" } .nil .nil) }

theorem twoRegions_legalChart : (resortStates twoRegions).LegalChart where
  rootTag := by decide +kernel
  nested := by decide +kernel
  finalAttr := by decide +kernel
  child := by decide +kernel
  initialTransition := by decide +kernel
  histories := by decide +kernel
  uniqueIds := by unfold UniqueIds; decide +kernel
  transitionSources := by decide +kernel
  transitionTargets := by
    have h : ∀ p ∈ (resortStates twoRegions).states, ∀ t ∈ (resortStates twoRegions).transIds p,
        (∀ s ∈ (resortStates twoRegions).getTargetStates t, (resortStates twoRegions).ProperState s) ∧
          ∃ C ∈ [{[], [1]}, {[], [0], [0, 0], [0, 0, 1], [0, 1], [0, 1, 0]}, {[], [0], [0, 0], [0, 0, 2], [0, 1], [0, 1, 0]}],
            (resortStates twoRegions).Legal C ∧ ∀ s ∈ (resortStates twoRegions).getTargetStates t, s ∈ C := by
      decide +kernel
    intro p hp t ht
    obtain ⟨hproper, C, -, hC⟩ := h p hp t ht
    exact ⟨hproper, C, hC⟩
  initialTargets := by decide +kernel
  initialAttr := by
    intro p hp hne ids hids
    have h : ∀ p ∈ (resortStates twoRegions).states, p ≠ [] →
        ((resortStates twoRegions).elem? p).bind (·.initial) = none ∨ p = [0, 1] := by decide +kernel
    rcases h p hp hne with h | rfl
    · rw [h] at hids
      cases hids
    · have hc : ((resortStates twoRegions).elem? [0, 1]).bind (·.initial) = some ["c"] := by decide +kernel
      rw [hc] at hids
      cases hids
      exact ⟨"c", [0, 1, 0], rfl, by decide +kernel, by decide +kernel⟩
  rootAttr := by
    intro ids hids
    cases hids
    exact ⟨[[0]], by decide +kernel, by simp, by simp, by decide +kernel,
      {[], [0], [0, 0], [0, 0, 1], [0, 1], [0, 1, 0]}, by decide +kernel, by decide +kernel⟩

/-- The run in which the chart moves inside one region and then leaves both. -/
theorem configuration_legal_twoRegions :
    (resortStates twoRegions).Legal
        (steps (init twoRegions) externalEvents 5 { env := [{ name := "e" }, { name := "f" }] }).configuration ∧
      (steps (init twoRegions) externalEvents 5 { env := [{ name := "e" }, { name := "f" }] }).configuration =
        {[], [0], [0, 0], [0, 0, 1], [0, 1], [0, 1, 0]} :=
  ⟨configuration_legal twoRegions_legalChart externalEvents ((Reachable.init _).steps _ _ 5) (by decide +kernel),
    by decide +kernel⟩

end FastMicroStep

end Uscxml
