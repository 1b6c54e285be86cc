import Uscxml.Predicates
import Mathlib.Data.List.TakeWhile

/-!
# Legal configurations

What the interpreter's configurations are meant to be, and the charts for which they are: the rules of the
recommendation about where elements stand, and target sets that some legal configuration contains.
-/

namespace Uscxml

variable {β : Type}

namespace Document

/-- `c` is a proper state and a child of `p`. -/
def ProperChild (d : Document β) (p c : TreePath) : Prop := c ≠ [] ∧ c.parent = p ∧ d.ProperState c

instance (d : Document β) (p c : TreePath) : Decidable (d.ProperChild p c) := inferInstanceAs (Decidable (_ ∧ _ ∧ _))

structure Legal (d : Document β) (C : Finset TreePath) : Prop where
  root : [] ∈ C
  proper : ∀ p ∈ C, p ≠ [] → d.ProperState p
  ancestor : ∀ p ∈ C, ∀ a, p.Below a → a ∈ C
  compound : ∀ p ∈ C, p = [] ∨ d.isCompound p = true → ∃! c, c ∈ C ∧ d.ProperChild p c
  parallel : ∀ p ∈ C, d.isParallel p = true → ∀ c, d.ProperChild p c → c ∈ C

/-- States that can be active together. -/
def Compatible (d : Document β) (l : List TreePath) : Prop :=
  (∀ p ∈ l, d.ProperState p) ∧ ∃ C, d.Legal C ∧ ∀ p ∈ l, p ∈ C

/-- Where elements may stand. -/
structure Nesting (d : Document β) : Prop where
  rootTag : ∀ p ∈ d.states, d.tag? p = some .scxml ↔ p = []
  nested : ∀ p ∈ d.states, p ≠ [] →
    d.tag? p.parent = some .scxml ∨ d.tag? p.parent = some .state ∨ d.tag? p.parent = some .parallel
  child : ∃ c ∈ d.states, d.ProperChild [] c

/-- Where elements may stand, and what an `<initial>` holds. -/
structure Grammar (d : Document β) : Prop extends Nesting d where
  finalAttr : ∀ p ∈ d.states, (d.elem? p).any (·.finalAttr) = false
  initialTransition : ∀ p ∈ d.states, d.tag? p = some .initial →
    (d.transitionsAt p).length = 1 ∧ d.getTargetStates (p, 0) ≠ []

/-- The charts without histories whose targets can be active together. -/
structure LegalChart (d : Document β) : Prop extends Grammar d where
  histories : ∀ p ∈ d.states, d.tag? p ≠ some .history
  uniqueIds : d.UniqueIds
  transitionSources : ∀ p ∈ d.states, d.transitionsAt p ≠ [] →
    d.tag? p = some .state ∨ d.tag? p = some .parallel ∨ d.tag? p = some .initial
  transitionTargets : ∀ p ∈ d.states, ∀ t ∈ d.transIds p, d.Compatible (d.getTargetStates t)
  initialTargets : ∀ p ∈ d.states, d.tag? p = some .initial → ∀ s ∈ d.getTargetStates (p, 0), s.Below p.parent
  initialAttr : ∀ p ∈ d.states, p ≠ [] → ∀ ids, (d.elem? p).bind (·.initial) = some ids →
    ∃ i c, ids = [i] ∧ d.getState i = some c ∧ d.ProperChild p c
  rootAttr : ∀ ids, d.tree.root.initial = some ids →
    ∃ l, d.getStates ids = l.map some ∧ l ≠ [] ∧ l.Pairwise (· < ·) ∧ d.Compatible l

/-! ### Facts about the grammar -/

variable {d : Document β}

theorem ProperChild.below {p c : TreePath} (h : d.ProperChild p c) : c.Below p := TreePath.below_of_parent_eq h.1 h.2.1

theorem ProperChild.mem_states {p c : TreePath} (h : d.ProperChild p c) : c ∈ d.states := h.2.2.mem_states

theorem Legal.mem_states {C : Finset TreePath} (h : d.Legal C) {p : TreePath} (hp : p ∈ C) : p ∈ d.states := by
  by_cases hnil : p = []
  · exact hnil ▸ d.root_mem_states
  · exact (h.proper p hp hnil).mem_states

theorem Legal.above {C : Finset TreePath} (h : d.Legal C) {p a : TreePath} (hp : p ∈ C) (ha : a <+: p) : a ∈ C := by
  rcases TreePath.below_or_eq_of_prefix ha with rfl | hb
  · exact hp
  · exact h.ancestor p hp a hb

theorem legal_iff {C : Finset TreePath} :
    d.Legal C ↔ [] ∈ C ∧ (∀ p ∈ C, p ≠ [] → d.ProperState p) ∧ (∀ p ∈ C, ∀ a ∈ parentNodes p, a ∈ C) ∧
      (∀ p ∈ C, p = [] ∨ d.isCompound p = true → (C.filter (d.ProperChild p)).card = 1) ∧
      ∀ p ∈ C, d.isParallel p = true → ∀ c ∈ d.states, d.ProperChild p c → c ∈ C := by
  have hone : ∀ p, (C.filter (d.ProperChild p)).card = 1 ↔ ∃! c, c ∈ C ∧ d.ProperChild p c := by
    intro p
    rw [Finset.card_eq_one]
    constructor
    · rintro ⟨c, hc⟩
      have hmem := fun x => Finset.ext_iff.mp hc x
      simp only [Finset.mem_filter, Finset.mem_singleton] at hmem
      exact ⟨c, (hmem c).mpr rfl, fun x hx => (hmem x).mp hx⟩
    · rintro ⟨c, hc, huniq⟩
      refine ⟨c, ?_⟩
      ext x
      rw [Finset.mem_filter, Finset.mem_singleton]
      exact ⟨huniq x, fun h => h ▸ hc⟩
  constructor
  · intro h
    refine ⟨h.root, h.proper, ?_, ?_, ?_⟩
    · exact fun p hp a ha => h.ancestor p hp a (mem_parentNodes.mp ha)
    · exact fun p hp hc => (hone p).mpr (h.compound p hp hc)
    · exact fun p hp hpar c _ hc => h.parallel p hp hpar c hc
  · rintro ⟨hroot, hproper, hanc, hcomp, hpar⟩
    refine ⟨hroot, hproper, ?_, ?_, ?_⟩
    · exact fun p hp a ha => hanc p hp a (mem_parentNodes.mpr ha)
    · exact fun p hp hc => (hone p).mp (hcomp p hp hc)
    · exact fun p hp hp' c hc => hpar p hp hp' c hc.2.2.mem_states hc

instance (C : Finset TreePath) : Decidable (d.Legal C) := decidable_of_iff _ legal_iff.symm

theorem isParallel_iff {p : TreePath} : d.isParallel p = true ↔ d.tag? p = some .parallel := by
  simp [isParallel]

namespace Nesting

variable (hg : d.Nesting)

include hg

theorem root (p : TreePath) : d.tag? p = some .scxml ↔ p = [] := by
  constructor
  · exact fun h => (hg.rootTag p (mem_states_of_tag h)).mp h
  · rintro rfl
    exact (hg.rootTag [] d.root_mem_states).mpr rfl

theorem nonempty : ∃ c, d.ProperChild [] c := by
  obtain ⟨c, -, hc⟩ := hg.child
  exact ⟨c, hc⟩

theorem properState_ne_nil {p : TreePath} (h : d.ProperState p) : p ≠ [] := by
  rintro rfl
  have hroot := (hg.root []).mpr rfl
  rcases properState_iff.mp h with h | h | h <;> simp [hroot] at h

/-- An element with elements below it is the root, a state or a parallel. -/
theorem tag_of_below {x a : TreePath} (hx : x ∈ d.states) (h : x.Below a) :
    d.tag? a = some .scxml ∨ d.tag? a = some .state ∨ d.tag? a = some .parallel := by
  obtain ⟨k, hk⟩ := TreePath.exists_child_of_below h
  have := hg.nested (a ++ [k]) (mem_states_of_above hk hx) (by simp)
  rwa [TreePath.parent_concat] at this

theorem proper_of_below {x a : TreePath} (hx : x ∈ d.states) (h : x.Below a) : a = [] ∨ d.ProperState a := by
  rcases hg.tag_of_below hx h with h | h | h
  · exact Or.inl ((hg.root a).mp h)
  · exact Or.inr (properState_iff.mpr (Or.inr (Or.inl h)))
  · exact Or.inr (properState_iff.mpr (Or.inl h))

theorem mem_getChildStates_true {p q : TreePath} : q ∈ d.getChildStates p true ↔ d.ProperChild p q := by
  rw [getChildStates, List.mem_filter, mem_children, isState_true_iff, hg.root]
  constructor
  · rintro ⟨⟨-, hne, hp⟩, h | h⟩
    · exact absurd h hne
    · exact ⟨hne, hp, h⟩
  · rintro ⟨hne, hp, h⟩
    exact ⟨⟨h.mem_states, hne, hp⟩, Or.inr h⟩

theorem exists_first_child {p q : TreePath} (h : d.ProperChild p q) :
    ∃ c rest, d.getChildStates p true = c :: rest ∧ d.ProperChild p c := by
  obtain ⟨c, rest, hkids⟩ := List.exists_cons_of_ne_nil (List.ne_nil_of_mem (hg.mem_getChildStates_true.mpr h))
  exact ⟨c, rest, hkids, hg.mem_getChildStates_true.mp (hkids ▸ List.mem_cons_self)⟩

/-- A compound state is the root or a `<state>`, and has a proper child. -/
theorem isCompound_iff {p : TreePath} :
    d.isCompound p = true ↔ (d.tag? p = some .scxml ∨ d.tag? p = some .state) ∧ ∃ c, d.ProperChild p c := by
  have hkids : (!(d.getChildStates p true).isEmpty) = true ↔ ∃ c, d.ProperChild p c := by
    rw [Bool.not_eq_true', List.isEmpty_eq_false_iff_exists_mem]
    simp only [hg.mem_getChildStates_true]
  rw [isCompound, Bool.and_eq_true, Bool.and_eq_true, hkids, isState_true_iff, properState_iff,
    Bool.not_eq_true', ← Bool.not_eq_true, isParallel_iff]
  constructor
  · rintro ⟨⟨htag, hnot⟩, c, hc⟩
    refine ⟨?_, c, hc⟩
    rcases hg.tag_of_below hc.mem_states hc.below with h | h | h
    · exact Or.inl h
    · exact Or.inr h
    · exact absurd h hnot
  · rintro ⟨htag | htag, hc⟩
    · exact ⟨⟨Or.inl htag, by simp [htag]⟩, hc⟩
    · exact ⟨⟨Or.inr (Or.inr (Or.inl htag)), by simp [htag]⟩, hc⟩

theorem isCompound_root : d.isCompound [] = true :=
  hg.isCompound_iff.mpr ⟨Or.inl ((hg.root []).mpr rfl), hg.nonempty⟩

theorem isCompound_of_child {p c : TreePath} (hc : d.ProperChild p c) (hp : d.tag? p ≠ some .parallel) :
    d.isCompound p = true := by
  refine hg.isCompound_iff.mpr ⟨?_, c, hc⟩
  rcases hg.tag_of_below hc.mem_states hc.below with h | h | h
  · exact Or.inl h
  · exact Or.inr h
  · exact absurd h hp

theorem getProperAncestors_eq {p : TreePath} (hp : p ∈ d.states) : d.getProperAncestors p = parentNodes p := by
  rw [getProperAncestors, if_pos (isState_false_iff.mpr hp), List.takeWhile_eq_self_iff]
  intro a ha
  rcases hg.tag_of_below hp (mem_parentNodes.mp ha) with h | h | h <;> simp [h]

/-- The least common compound ancestor of states below the root: it is there, since the root is compound. -/
theorem findLCCA_spec (front : TreePath) (states : List TreePath) (h : ∀ s ∈ front :: states, s ∈ d.states ∧ s ≠ []) :
    ∃ a, d.findLCCA (front :: states) = some a ∧ d.isCompound a = true ∧ ∀ s ∈ front :: states, s.Below a := by
  have hfront := h front List.mem_cons_self
  rw [findLCCA, hg.getProperAncestors_eq hfront.1]
  have hsome : ((parentNodes front).find? fun a =>
      d.isCompound a && (front :: states).all (isDescendant · a)).isSome := by
    rw [List.find?_isSome]
    refine ⟨[], mem_parentNodes.mpr (TreePath.below_nil.mpr hfront.2), ?_⟩
    rw [hg.isCompound_root, Bool.true_and, List.all_eq_true]
    intro s hs
    exact isDescendant_iff.mpr (TreePath.below_nil.mpr (h s hs).2)
  obtain ⟨a, ha⟩ := Option.isSome_iff_exists.mp hsome
  have hspec := List.find?_some ha
  rw [Bool.and_eq_true, List.all_eq_true] at hspec
  simp only [ha]
  exact ⟨a, rfl, hspec.1, fun s hs => isDescendant_iff.mp (hspec.2 s hs)⟩

end Nesting

theorem Grammar.initial (hg : d.Grammar) (p : TreePath) (h : d.tag? p = some .initial) :
    (d.transitionsAt p).length = 1 ∧ d.getTargetStates (p, 0) ≠ [] := hg.initialTransition p (mem_states_of_tag h) h

namespace Compatible

/-- Of the children of a state that is not parallel only one leads to states that can be active together. -/
theorem child_unique (hg : d.Grammar) {l : List TreePath} (h : d.Compatible l) {s s' c c' : TreePath} (hs : s ∈ l)
    (hs' : s' ∈ l) (hc : c <+: s) (hc' : c' <+: s') (hne : c ≠ []) (hne' : c' ≠ [])
    (hparent : c.parent = c'.parent) (hp : d.tag? c.parent ≠ some .parallel) : c = c' := by
  obtain ⟨hproper, C, hC, hmem⟩ := h
  have hin : ∀ {x y : TreePath}, y ∈ l → x <+: y → x ∈ C := by
    intro x y hy hxy
    rcases TreePath.below_or_eq_of_prefix hxy with rfl | hb
    · exact hmem _ hy
    · exact hC.ancestor _ (hmem _ hy) _ hb
  have hcC := hin hs hc
  have hcC' := hin hs' hc'
  have hchild : d.ProperChild c.parent c := ⟨hne, rfl, hC.proper c hcC hne⟩
  have hchild' : d.ProperChild c.parent c' := ⟨hne', hparent.symm, hC.proper c' hcC' hne'⟩
  obtain ⟨u, -, hu⟩ := hC.compound c.parent (hC.ancestor c hcC _ hchild.below)
    (Or.inr (hg.isCompound_of_child hchild hp))
  rw [hu c ⟨hcC, hchild⟩, hu c' ⟨hcC', hchild'⟩]

end Compatible

theorem targets_ne_nil_of_domain {t : TransId} {domain : TreePath} (h : d.getTransitionDomain t = some domain) :
    d.getTargetStates t ≠ [] := by
  intro hnil
  simp [getTransitionDomain, hnil] at h

namespace LegalChart

variable (hd : d.LegalChart)

include hd

theorem noHistory (p : TreePath) : d.tag? p ≠ some .history := fun h => hd.histories p (mem_states_of_tag h) h

theorem sources (p : TreePath) (h : d.transitionsAt p ≠ []) :
    d.tag? p = some .state ∨ d.tag? p = some .parallel ∨ d.tag? p = some .initial := by
  refine hd.transitionSources p ?_ h
  rw [Document.mem_states]
  cases he : d.elem? p with
  | none => simp [transitionsAt, he] at h
  | some e => rfl

theorem compatible {t : TransId} {s : TreePath} (hs : s ∈ d.getTargetStates t) :
    d.Compatible (d.getTargetStates t) := by
  have htrans : (d.trans? t).isSome := by
    cases h : d.trans? t with
    | none => simp [getTargetStates, h] at hs
    | some e => rfl
  have hlt : t.2 < (d.transitionsAt t.1).length := by
    rw [trans?] at htrans
    by_contra hge
    rw [List.getElem?_eq_none (Nat.not_lt.mp hge)] at htrans
    cases htrans
  refine hd.transitionTargets t.1 ?_ t (List.mem_map.mpr ⟨t.2, List.mem_range.mpr hlt, rfl⟩)
  rw [Document.mem_states]
  cases he : d.elem? t.1 with
  | none => simp [transitionsAt, he] at hlt
  | some e => rfl

/-- The domain of a transition out of a state: a compound state above its targets, at or above its source. -/
theorem domain_spec {t : TransId} (hsource : d.tag? t.1 = some .state ∨ d.tag? t.1 = some .parallel)
    (h : d.getTargetStates t ≠ []) :
    ∃ domain, d.getTransitionDomain t = some domain ∧ d.isCompound domain = true ∧ domain <+: t.1 ∧
      ∀ s ∈ d.getTargetStates t, s.Below domain := by
  have hg := hd.toGrammar
  have hsrc : d.getSourceState t = t.1 := by
    rw [getSourceState, if_neg]
    rcases hsource with h | h <;> simp [h]
  have hproper : d.ProperState t.1 := by
    rcases hsource with h | h
    · exact properState_iff.mpr (Or.inr (Or.inl h))
    · exact properState_iff.mpr (Or.inl h)
  simp only [getTransitionDomain, hsrc]
  rw [if_neg (by simpa using h)]
  split
  · rename_i hinternal
    rw [Bool.and_eq_true, Bool.and_eq_true, List.all_eq_true] at hinternal
    exact ⟨t.1, rfl, hinternal.1.2, List.prefix_refl _, fun s hs => isDescendant_iff.mp (hinternal.2 s hs)⟩
  · obtain ⟨a, ha, hcomp, hbelow⟩ := hg.findLCCA_spec t.1 (d.getTargetStates t) (by
      intro s hs
      rcases List.mem_cons.mp hs with rfl | hs
      · exact ⟨hproper.mem_states, hg.properState_ne_nil hproper⟩
      · have := (hd.compatible hs).1 s hs
        exact ⟨this.mem_states, hg.properState_ne_nil this⟩)
    exact ⟨a, ha, hcomp, (hbelow _ List.mem_cons_self).1, fun s hs => hbelow s (List.mem_cons_of_mem _ hs)⟩

end LegalChart

end Document

end Uscxml
