import Uscxml.Legal
import Uscxml.Messages
import Uscxml.Lib.Kernel

/-!
# Selecting transitions in the SCXML recommendation

`selectTransitions`, `selectEventlessTransitions` and `removeConflictingTransitions` of the algorithm in the
appendix of the recommendation, over a configuration, the values of the histories and the answers of the data
model. From every active atomic state the first enabled transition on the way to the root is taken; of two
transitions with a common state to exit the one that leaves a descendant wins, and otherwise the one whose
atomic state comes first.
-/

namespace Uscxml

variable {β : Type}

namespace Document

/-- The default transitions of histories lead below the parent of the history. -/
def HistoryDefaults (d : Document β) : Prop :=
  ∀ p ∈ d.states, d.tag? p = some .history → ∀ s ∈ d.getTargetStates (p, 0), s.Below p.parent

end Document

/-- `historyValue`: what was active below the parent of a history when the parent was last exited. -/
structure HistoryValue (d : Document β) where
  value : TreePath → Option (List TreePath)
  below : ∀ h l, value h = some l → ∀ s ∈ l, s.Below h.parent

/-- The histories before anything was exited. -/
def HistoryValue.none (d : Document β) : HistoryValue d := ⟨fun _ => Option.none, by simp⟩

/-- The answers to the questions about a transition: does the event match its descriptor, and is its condition
true. -/
structure Answers where
  matched : Event → String → Bool
  truth : String → Bool

namespace Recommendation

variable (d : Document β) (hist : HistoryValue d) (C : Finset TreePath) (ask : Answers) (event : Event)

def isAtomicState (p : TreePath) : Bool :=
  d.tag? p = some .final || (d.tag? p = some .state && (d.getChildStates p true).isEmpty)

def isCompoundState (p : TreePath) : Bool := d.tag? p = some .state && !(d.getChildStates p true).isEmpty

def isCompoundStateOrScxmlElement (p : TreePath) : Bool := isCompoundState d p || d.tag? p = some .scxml

/-- The targets with every history replaced by its value or by the targets of its default transition. The bound is
on the number of histories in a chain of default transitions. -/
def getEffectiveTargetStates : Nat → List TreePath → List TreePath
  | 0, _ => []
  | n + 1, targets => targets.flatMap fun s =>
    if d.isHistory s then
      match hist.value s with
      | some l => l
      | none => getEffectiveTargetStates n (d.getTargetStates (s, 0))
    else [s]

def findLCCA (head : TreePath) (tail : List TreePath) : Option TreePath :=
  (d.getProperAncestors head).find? fun anc => isCompoundStateOrScxmlElement d anc && tail.all (isDescendant · anc)

def getTransitionDomain (t : TransId) : Option TreePath :=
  let tstates := getEffectiveTargetStates d hist (d.states.length + 1) (d.getTargetStates t)
  if tstates.isEmpty then none
  else if (d.trans? t).any (·.internal) && isCompoundState d t.1 && tstates.all (isDescendant · t.1) then some t.1
  else findLCCA d t.1 tstates

/-- `computeExitSet` of one transition; without a target it has no domain and exits nothing. -/
def computeExitSet (t : TransId) : Finset TreePath :=
  match getTransitionDomain d hist t with
  | none => ∅
  | some domain => C.filter (isDescendant · domain)

/-- The exit sets of the two transitions have a common state. -/
def Intersect (t u : TransId) : Prop := ∃ s ∈ computeExitSet d hist C t, s ∈ computeExitSet d hist C u

instance : DecidableRel (Intersect d hist C) := fun _ _ => inferInstanceAs (Decidable (∃ s ∈ _, _))

/-- Without an event only the transitions that name none are asked for their condition. -/
def isEnabled (t : TransId) : Bool :=
  let name := ((d.trans? t).bind (·.event)).getD ""
  let cond := ((d.trans? t).bind (·.cond)).getD ""
  (if event.toBool then name ≠ "" && ask.matched event name else name = "") && (cond = "" || ask.truth cond)

def firstEnabled (s : TreePath) : Option TransId := (d.transIds s).find? (isEnabled d ask event)

def select (state : TreePath) : Option TransId :=
  (state :: d.getProperAncestors state).findSome? (firstEnabled d ask event)

def atomicStates : List TreePath := d.states.filter fun p => p ∈ C && isAtomicState d p

/-- The enabled transitions, in the order of the states that selected them. -/
def enabledTransitions : List TransId := ((atomicStates d C).filterMap (select d ask event)).foldl List.addNew []

def removeConflictingTransitions (enabled : List TransId) : List TransId :=
  Kernel.ranked (Intersect d hist C) (fun t₁ t₂ => isDescendant t₁.1 t₂.1 = true) enabled

/-- `selectTransitions`, and `selectEventlessTransitions` when there is no event. -/
def selectTransitions : List TransId := removeConflictingTransitions d hist C (enabledTransitions d C ask event)

/-! ### Domains and exit sets -/

variable {d hist C ask event}

theorem effective_below (hdef : d.HistoryDefaults) {a : TreePath} (n : Nat) {targets : List TreePath}
    (h : ∀ s ∈ targets, s.Below a) : ∀ s ∈ getEffectiveTargetStates d hist n targets, s.Below a := by
  induction n generalizing targets with
  | zero => simp [getEffectiveTargetStates]
  | succ n ih =>
    intro s hs
    rw [getEffectiveTargetStates, List.mem_flatMap] at hs
    obtain ⟨x, hx, hs⟩ := hs
    split at hs
    · rename_i hhist
      -- Whatever stands for a history lies below the parent of the history.
      have hpar : a <+: x.parent := TreePath.prefix_parent_of_below (h x hx)
      split at hs
      · rename_i l hl
        exact (hist.below x l hl s hs).trans_above hpar
      · refine ih ?_ s hs
        intro y hy
        have htag : d.tag? x = some .history := by simpa [Document.isHistory] using hhist
        exact (hdef x (Document.mem_states_of_tag htag) htag y hy).trans_above hpar
    · rw [List.mem_singleton] at hs
      exact hs ▸ h x hx

theorem mem_computeExitSet {t : TransId} {s : TreePath} :
    s ∈ computeExitSet d hist C t ↔ s ∈ C ∧ ∃ domain, getTransitionDomain d hist t = some domain ∧ s.Below domain := by
  rw [computeExitSet]
  cases getTransitionDomain d hist t with
  | none => simp
  | some domain => simp

section Domains

variable (hn : d.Nesting)

include hn

theorem isCompoundState_iff {p : TreePath} :
    isCompoundState d p = true ↔ d.tag? p = some .state ∧ d.isCompound p = true := by
  rw [hn.isCompound_iff, isCompoundState, Bool.and_eq_true, decide_eq_true_iff, Bool.not_eq_true',
    List.isEmpty_eq_false_iff_exists_mem]
  simp only [hn.mem_getChildStates_true]
  exact ⟨fun h => ⟨h.1, Or.inr h.1, h.2⟩, fun h => ⟨h.1, h.2.2⟩⟩

theorem isCompoundStateOrScxmlElement_iff {p : TreePath} :
    isCompoundStateOrScxmlElement d p = true ↔ d.isCompound p = true := by
  rw [isCompoundStateOrScxmlElement, Bool.or_eq_true, isCompoundState_iff hn, decide_eq_true_iff]
  constructor
  · rintro (h | h)
    · exact h.2
    · rw [(hn.root p).mp h]
      exact hn.isCompound_root
  · intro h
    rcases (hn.isCompound_iff.mp h).1 with htag | htag
    · exact Or.inr htag
    · exact Or.inl ⟨htag, h⟩

theorem findLCCA_eq_some {head a : TreePath} {tail : List TreePath} (hh : head ∈ d.states)
    (h : findLCCA d head tail = some a) :
    head.Below a ∧ d.isCompound a = true ∧ (∀ s ∈ tail, s.Below a) ∧
      ∀ c, head.Below c → d.isCompound c = true → (∀ s ∈ tail, s.Below c) → c <+: a := by
  rw [findLCCA, hn.getProperAncestors_eq hh] at h
  have hspec := List.find?_some h
  rw [Bool.and_eq_true, isCompoundStateOrScxmlElement_iff hn, List.all_eq_true] at hspec
  refine ⟨Document.mem_parentNodes.mp (List.mem_of_find?_eq_some h), hspec.1, ?_, ?_⟩
  · exact fun s hs => Document.isDescendant_iff.mp (hspec.2 s hs)
  · intro c hc hcomp hall
    refine Document.prefix_of_find_parentNodes h hc ?_
    rw [Bool.and_eq_true, isCompoundStateOrScxmlElement_iff hn, List.all_eq_true]
    exact ⟨hcomp, fun s hs => Document.isDescendant_iff.mpr (hall s hs)⟩

theorem domain_spec {t : TransId} (ht : t.1 ∈ d.states) {domain : TreePath}
    (h : getTransitionDomain d hist t = some domain) : d.isCompound domain = true ∧ domain <+: t.1 := by
  simp only [getTransitionDomain] at h
  split at h
  · simp at h
  split at h
  · rename_i hint
    cases h
    rw [Bool.and_eq_true, Bool.and_eq_true, isCompoundState_iff hn] at hint
    exact ⟨hint.1.2.2, List.prefix_refl _⟩
  · have := findLCCA_eq_some hn ht h
    exact ⟨this.2.1, this.1.1⟩

/-- The interpreter does not replace the histories among the targets, so its domain can only be further out. -/
theorem domain_above (hdef : d.HistoryDefaults) {t : TransId} (hsource : d.getSourceState t = t.1)
    (ht : t.1 ∈ d.states) {domain : TreePath} (h : getTransitionDomain d hist t = some domain) :
    ∃ outer, d.getTransitionDomain t = some outer ∧ outer <+: domain := by
  have hspec := domain_spec hn ht h
  simp only [getTransitionDomain] at h
  split at h
  · simp at h
  rename_i hne
  have hbelow : ∀ c : TreePath, (∀ s ∈ d.getTargetStates t, s.Below c) →
      ∀ s ∈ getEffectiveTargetStates d hist (d.states.length + 1) (d.getTargetStates t), s.Below c :=
    fun c => effective_below hdef _
  have htargets : d.getTargetStates t ≠ [] := by
    intro hnil
    simp [hnil, getEffectiveTargetStates] at hne
  generalize getEffectiveTargetStates d hist (d.states.length + 1) (d.getTargetStates t) = tstates at h hne hbelow
  have hroot : t.1 ≠ [] := by
    intro hnil
    have htag := (hn.root t.1).mpr hnil
    split at h
    · rename_i hint
      simp [isCompoundState, htag] at hint
    · exact TreePath.not_nil_below domain (hnil ▸ (findLCCA_eq_some hn ht h).1)
  simp only [Document.getTransitionDomain, hsource]
  rw [if_neg (by simpa using htargets)]
  split
  · rename_i hint
    rw [Bool.and_eq_true, Bool.and_eq_true, List.all_eq_true] at hint
    refine ⟨t.1, rfl, ?_⟩
    have hcomp : isCompoundState d t.1 = true := by
      refine (isCompoundState_iff hn).mpr ⟨?_, hint.1.2⟩
      exact (hn.isCompound_iff.mp hint.1.2).1.resolve_left fun h => hroot ((hn.root t.1).mp h)
    have hall : tstates.all (isDescendant · t.1) = true := by
      rw [List.all_eq_true]
      intro s hs
      refine Document.isDescendant_iff.mpr (hbelow t.1 ?_ s hs)
      exact fun s hs => Document.isDescendant_iff.mp (hint.2 s hs)
    rw [if_pos (by simp [hint.1.1, hcomp, hall])] at h
    cases h
    exact List.prefix_refl _
  · rw [Document.findLCCA, hn.getProperAncestors_eq ht]
    split
    · rename_i a ha
      refine ⟨a, rfl, ?_⟩
      have hmem := Document.mem_parentNodes.mp (List.mem_of_find?_eq_some ha)
      have hprop := List.find?_some ha
      rw [Bool.and_eq_true, List.all_eq_true] at hprop
      split at h
      · cases h
        exact hmem.1
      · refine (findLCCA_eq_some hn ht h).2.2.2 a hmem hprop.1 (hbelow a ?_)
        exact fun s hs => Document.isDescendant_iff.mp (hprop.2 s (List.mem_cons_of_mem _ hs))
    · exact ⟨[], Document.parentNodes_getLast hroot, List.nil_prefix⟩

/-- Transitions of active states have a common state to exit when one domain lies at or above the other: the lower
one is active and compound. -/
theorem intersect_iff (hC : d.Legal C) {t u : TransId} (ht : t.1 ∈ C) (hu : u.1 ∈ C) :
    Intersect d hist C t u ↔ ∃ D E, getTransitionDomain d hist t = some D ∧
      getTransitionDomain d hist u = some E ∧ (D <+: E ∨ E <+: D) := by
  constructor
  · rintro ⟨s, hst, hsu⟩
    obtain ⟨-, D, hD, hsD⟩ := mem_computeExitSet.mp hst
    obtain ⟨-, E, hE, hsE⟩ := mem_computeExitSet.mp hsu
    exact ⟨D, E, hD, hE, List.prefix_or_prefix_of_prefix hsD.1 hsE.1⟩
  · rintro ⟨D, E, hD, hE, hDE⟩
    have hchild : ∀ {t : TransId} {F : TreePath}, t.1 ∈ C → getTransitionDomain d hist t = some F →
        ∃ c ∈ C, c.Below F := by
      intro t F ht hF
      obtain ⟨hcomp, habove⟩ := domain_spec hn (hC.mem_states ht) hF
      obtain ⟨c, hc, -⟩ := hC.compound F (hC.above ht habove) (Or.inr hcomp)
      exact ⟨c, hc.1, hc.2.below⟩
    rcases hDE with h | h
    · obtain ⟨c, hc, hcE⟩ := hchild hu hE
      exact ⟨c, mem_computeExitSet.mpr ⟨hc, D, hD, hcE.trans_above h⟩, mem_computeExitSet.mpr ⟨hc, E, hE, hcE⟩⟩
    · obtain ⟨c, hc, hcD⟩ := hchild ht hD
      exact ⟨c, mem_computeExitSet.mpr ⟨hc, D, hD, hcD⟩, mem_computeExitSet.mpr ⟨hc, E, hE, hcD.trans_above h⟩⟩

end Domains

/-! ### What the atomic states select -/

theorem firstEnabled_spec {p : TreePath} {t : TransId} (h : firstEnabled d ask event p = some t) :
    t ∈ d.transIds p ∧ isEnabled d ask event t = true := ⟨List.mem_of_find?_eq_some h, List.find?_some h⟩

theorem mem_enabledTransitions {t : TransId} :
    t ∈ enabledTransitions d C ask event ↔ ∃ a ∈ atomicStates d C, select d ask event a = some t := by
  rw [enabledTransitions, List.mem_foldl_addNew, List.mem_filterMap]
  simp

theorem mem_states_of_atomic {a : TreePath} (ha : a ∈ atomicStates d C) : a ∈ d.states ∧ a ∈ C := by
  rw [atomicStates, List.mem_filter, Bool.and_eq_true, decide_eq_true_iff] at ha
  exact ⟨ha.1, ha.2.1⟩

section Select

variable (hn : d.Nesting)

include hn

theorem select_eq_some {a : TreePath} (ha : a ∈ d.states) {t : TransId} (h : select d ask event a = some t) :
    t.1 <+: a ∧ firstEnabled d ask event t.1 = some t ∧
      ∀ s : TreePath, s <+: a → s.Below t.1 → firstEnabled d ask event s = none := by
  rw [select, hn.getProperAncestors_eq ha, List.findSome?_eq_some_iff] at h
  obtain ⟨l, s, l', hl, hs, hnone⟩ := h
  have hst : t.1 = s := by
    have := List.mem_of_find?_eq_some hs
    rw [Document.transIds, List.mem_map] at this
    obtain ⟨k, -, rfl⟩ := this
    rfl
  subst hst
  have hmem : ∀ x, x ∈ a :: Document.parentNodes a ↔ x <+: a := by
    intro x
    rw [List.mem_cons, Document.mem_parentNodes]
    constructor
    · rintro (rfl | h)
      · exact List.prefix_refl x
      · exact h.1
    · intro h
      rcases TreePath.below_or_eq_of_prefix h with h | h
      · exact Or.inl h.symm
      · exact Or.inr h
  refine ⟨(hmem t.1).mp (by simp [hl]), hs, ?_⟩
  intro x hx hbelow
  have hxl := (hmem x).mpr hx
  have hsorted := Document.parentNodes_pairwise a
  rw [hl] at hxl hsorted
  rcases List.mem_append.mp hxl with hxl | hxl
  · exact hnone x hxl
  rcases List.mem_cons.mp hxl with rfl | hxl
  · exact absurd hbelow (TreePath.not_below_self _)
  · have := (List.pairwise_cons.mp (List.pairwise_append.mp hsorted).2.1).1 x hxl
    exact absurd this hbelow.asymm

theorem eq_of_source_eq {t u : TransId} (ht : t ∈ enabledTransitions d C ask event)
    (hu : u ∈ enabledTransitions d C ask event) (h : t.1 = u.1) : t = u := by
  obtain ⟨a, ha, hat⟩ := mem_enabledTransitions.mp ht
  obtain ⟨b, hb, hbu⟩ := mem_enabledTransitions.mp hu
  have h₁ := (select_eq_some hn (mem_states_of_atomic ha).1 hat).2.1
  have h₂ := (select_eq_some hn (mem_states_of_atomic hb).1 hbu).2.1
  rw [← h, h₁] at h₂
  exact Option.some.inj h₂

/-- A state between two others in document order of which the first selects a transition and the second selects one
that leaves a descendant of the first's source: what it selects leaves such a descendant as well. -/
theorem source_below_of_between {a b c : TreePath} {s t u : TransId} (ha : a ∈ d.states) (hb : b ∈ d.states)
    (hc : c ∈ d.states) (hs : select d ask event a = some s) (ht : select d ask event b = some t)
    (hu : select d ask event c = some u) (hab : a < b) (hbc : b < c) (hus : u.1.Below s.1) (hne : s ≠ t) :
    t.1.Below s.1 := by
  obtain ⟨hsa, hfirst, -⟩ := select_eq_some hn ha hs
  obtain ⟨htb, hfirst', hinner⟩ := select_eq_some hn hb ht
  obtain ⟨huc, -, -⟩ := select_eq_some hn hc hu
  have hsb : s.1 <+: b := TreePath.prefix_of_between hsa (hus.1.trans huc) hab hbc
  rcases TreePath.comparable htb hsb with h | h | h
  · rw [h, hfirst] at hfirst'
    exact absurd (Option.some.inj hfirst') hne
  · exact h
  · -- The search from `b` would have stopped at the source of `s`.
    have := hinner s.1 hsb h
    rw [hfirst] at this
    cases this

end Select

theorem selectTransitions_subset {t : TransId} (h : t ∈ selectTransitions d hist C ask event) :
    t ∈ enabledTransitions d C ask event := Kernel.ranked_subset _ t h

/-- What is removed has a common state to exit with a transition that stays and comes before it in postfix order. -/
theorem dominated (hn : d.Nesting) (hC : d.Legal C) {t : TransId} (ht : t ∈ enabledTransitions d C ask event)
    (hnot : t ∉ selectTransitions d hist C ask event) :
    ∃ s ∈ selectTransitions d hist C ask event, Intersect d hist C s t ∧ TreePath.PostLt s.1 t.1 := by
  have hsorted : (atomicStates d C).Pairwise (· < ·) := d.tree.preorder_pairwise.filter _
  obtain ⟨a, ha, hord⟩ := List.exists_first (f := select d ask event) hsorted
  change ∀ t ∈ enabledTransitions d C ask event, _ at ha
  change (enabledTransitions d C ask event).Pairwise _ at hord
  have hstate : ∀ t ∈ enabledTransitions d C ask event, a t ∈ d.states ∧ a t ∈ C :=
    fun t ht => mem_states_of_atomic (ha t ht).1
  have habove : ∀ t ∈ enabledTransitions d C ask event, t.1 <+: a t :=
    fun t ht => (select_eq_some hn (hstate t ht).1 (ha t ht).2).1
  have hactive : ∀ t ∈ enabledTransitions d C ask event, t.1 ∈ C :=
    fun t ht => hC.above (hstate t ht).2 (habove t ht)
  obtain ⟨s, hs, hst, hrank⟩ := Kernel.ranked_dominates (Intersect d hist C)
    (fun t₁ t₂ => isDescendant t₁.1 t₂.1 = true) hord (fun _ _ ⟨x, hs, ht⟩ => ⟨x, ht, hs⟩)
    (by
      intro s t u hst htu
      rw [Document.isDescendant_iff] at hst htu ⊢
      exact hst.trans htu)
    (by
      intro s hs t ht u hu hst htu hus
      rw [Document.isDescendant_iff] at hus ⊢
      refine source_below_of_between hn (hstate s hs).1 (hstate t ht).1 (hstate u hu).1 (ha s hs).2 (ha t ht).2
        (ha u hu).2 hst htu hus ?_
      rintro rfl
      exact lt_irrefl _ hst)
    (by
      intro s hs t ht u hu hst htu hcst hctu
      rw [Document.isDescendant_iff] at hst htu
      obtain ⟨D, -, hD, -, -⟩ := (intersect_iff hn hC (hactive s hs) (hactive t ht)).mp hcst
      obtain ⟨-, E, -, hE, -⟩ := (intersect_iff hn hC (hactive t ht) (hactive u hu)).mp hctu
      refine (intersect_iff hn hC (hactive s hs) (hactive u hu)).mpr ⟨D, E, hD, hE, ?_⟩
      have hDs := (domain_spec hn (hC.mem_states (hactive s hs)) hD).2
      have hEu := (domain_spec hn (hC.mem_states (hactive u hu)) hE).2
      exact List.prefix_or_prefix_of_prefix hDs (hEu.trans (hst.trans htu).1))
    t ht hnot
  refine ⟨s, hs, hst, ?_⟩
  have hse := selectTransitions_subset hs
  rcases hrank with h | ⟨hlt, h⟩
  · exact Or.inl (Document.isDescendant_iff.mp h)
  · rw [Document.isDescendant_iff] at h
    have hne : s.1 ≠ t.1 := fun he => hnot (eq_of_source_eq hn hse ht he ▸ hs)
    by_cases hbelow : s.1.Below t.1
    · exact Or.inl hbelow
    · have hst : ¬ s.1 <+: t.1 := fun hp => h ⟨hp, hne⟩
      have hts : ¬ t.1 <+: s.1 := fun hp => hbelow ⟨hp, hne.symm⟩
      exact Or.inr ⟨hts, hst, TreePath.lt_of_prefixes_lt (habove s hse) (habove t ht) hst hts hlt⟩

end Recommendation

end Uscxml
