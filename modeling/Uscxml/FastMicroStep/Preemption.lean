import Uscxml.FastMicroStep.Selection
import Uscxml.Recommendation

/-!
# The selected transitions and the recommendation

The selection loop is a greedy choice in postfix order, where a transition excludes another one also when it
leaves an ancestor or a descendant of the other's source. The recommendation lets every atomic state find one
transition and then looks at exit sets only. What the two select is the same set when no two transitions that the
recommendation keeps exclude each other in the interpreter, and the enabled transitions that no atomic state
finds are excluded by those it keeps.
-/

namespace Uscxml

variable {β ω : Type}

/-- What the callbacks answer to the questions about transitions in the configuration `C`, whatever the environment. -/
structure Answers.Given (ask : Answers) (cb : Callbacks ω) (C : Finset TreePath) : Prop where
  matched : ∀ event name w, (cb.isMatched event name w).1 = ask.matched event name
  truth : ∀ cond w, (cb.isTrue C cond w).1 = ask.truth cond

namespace FastMicroStep

open Recommendation (isEnabled enabledTransitions)

variable (d : Document β) (hist : HistoryValue d) (C : Finset TreePath) (ask : Answers) (event : Event)

/-- An enabled transition of an active state. -/
def Candidate (t : TransId) : Prop :=
  t ∈ postFixTransitions d ∧ t.1 ∈ C ∧ isEnabled d ask event t = true

instance : DecidablePred (Candidate d C ask event) := fun _ => inferInstanceAs (Decidable (_ ∧ _ ∧ _))

/-- The selections in which the two agree. -/
structure Agreeable : Prop where
  /-- No two transitions the recommendation keeps exclude each other. -/
  kept : ∀ t ∈ Recommendation.selectTransitions d hist C ask event,
    ∀ u ∈ Recommendation.selectTransitions d hist C ask event, t ≠ u → d.conflicts t u = false
  /-- An enabled transition that no atomic state finds is excluded by one that is kept and comes before it. -/
  overlooked : ∀ t, Candidate d C ask event t → t ∉ enabledTransitions d C ask event →
    ∃ u ∈ Recommendation.selectTransitions d hist C ask event, Before u t ∧ d.conflicts u t = true

/-! ### The loop is a greedy choice -/

variable {d hist C ask event} {cb : Callbacks ω}

theorem enabled_fst (hask : ask.Given cb C) (t : TransitionInfo) (w : ω) :
    (kindMatches event t && (enabled cb C event t w).1) =
      ((if event.toBool then t.event ≠ "" && ask.matched event t.event else t.event = "") &&
        (t.cond = "" || ask.truth t.cond)) := by
  have hcond : ∀ w, (if t.cond = "" then (true, w) else cb.isTrue C t.cond w).1 =
      (decide (t.cond = "") || ask.truth t.cond) := by
    intro w
    split
    · rename_i h
      simp [h]
    · rename_i h
      simp [h, hask.truth]
  simp only [kindMatches, enabled]
  cases hev : event.toBool with
  | false => simp [hcond]
  | true =>
    have hm := hask.matched event t.event w
    rcases hq : cb.isMatched event t.event w with ⟨b, w'⟩
    rw [hq] at hm
    subst hm
    by_cases hname : t.event = ""
    · simp [hname]
    · cases hb : ask.matched event t.event with
      | false => simp
      | true => simp [hname, hcond]

theorem isEnabled_eq (hask : ask.Given cb C) (t : TransId) (w : ω) :
    isEnabled d ask event t =
      (kindMatches event (transitionInfo d t) && (enabled cb C event (transitionInfo d t) w).1) :=
  (enabled_fst hask (transitionInfo d t) w).symm

theorem not_pseudo_of_active (hn : d.Nesting) (hC : d.Legal C) {i : TransId} (hi : i.1 ∈ C) :
    ((transitionInfo d i).history || (transitionInfo d i).initial) = false := by
  have htag : d.tag? i.1 ≠ some .history ∧ d.tag? i.1 ≠ some .initial := by
    by_cases hnil : i.1 = []
    · rw [(hn.root i.1).mpr hnil]
      decide
    · rcases Document.properState_iff.mp (hC.proper i.1 hi hnil) with h | h | h <;>
        · rw [h]
          decide
  simp [transitionInfo, htag.1, htag.2]

theorem selectTransition_transSet (hn : d.Nesting) (hC : d.Legal C) (hask : ask.Given cb C) {s : Selection ω} {i : TransId}
    (hi : i ∈ postFixTransitions d) (h : Selected (tables d) C s) :
    (selectTransition (tables d) cb C event s i).transSet =
      Kernel.take (Candidate d C ask event) (fun t u => d.conflicts t u = true) s.transSet i := by
  have hfree : i ∉ s.conflicts ↔ ∀ t ∈ s.transSet, ¬ d.conflicts t i = true := by
    rw [h.conflicts i]
    simp [tables, transitionInfo, hi]
  have htaken : (Candidate d C ask event i ∧ ∀ t ∈ s.transSet, ¬ d.conflicts t i = true) ↔
      ((transitionInfo d i).source ∈ C ∧ i ∉ s.conflicts ∧ kindMatches event (transitionInfo d i) = true) ∧
        (enabled cb C event (transitionInfo d i) s.env).1 = true := by
    rw [← hfree, Candidate, isEnabled_eq hask i s.env, Bool.and_eq_true]
    constructor
    · rintro ⟨⟨-, hact, hkind, hen⟩, hf⟩
      exact ⟨⟨hact, hf, hkind⟩, hen⟩
    · rintro ⟨⟨hact, hf, hkind⟩, hen⟩
      exact ⟨⟨hi, hact, hkind, hen⟩, hf⟩
  have hinfo : (tables d).trans i = transitionInfo d i := rfl
  rw [Kernel.take, if_congr htaken rfl rfl, ite_and]
  simp only [selectTransition, hinfo]
  by_cases hcond : (transitionInfo d i).source ∈ C ∧ i ∉ s.conflicts ∧ kindMatches event (transitionInfo d i) = true
  · rw [if_neg (by simpa using not_pseudo_of_active hn hC hcond.1), if_pos hcond, if_pos hcond]
    split
    · rfl
    · rfl
  · rw [if_neg hcond, if_neg hcond, ite_self]

theorem selectTransitions_transSet (hn : d.Nesting) (hC : d.Legal C) (hask : ask.Given cb C) (w : ω) :
    (selectTransitions (tables d) cb C event w).transSet =
      Kernel.greedy (Candidate d C ask event) (fun t u => d.conflicts t u = true) (postFixTransitions d) := by
  suffices h : ∀ l : List TransId, (∀ i ∈ l, i ∈ postFixTransitions d) → ∀ s : Selection ω, Selected (tables d) C s →
      (l.foldl (selectTransition (tables d) cb C event) s).transSet =
        l.foldl (Kernel.take (Candidate d C ask event) fun t u => d.conflicts t u = true) s.transSet by
    exact h _ (fun _ hi => hi) _ (Selected.start _ C w)
  intro l
  induction l with
  | nil => exact fun _ _ _ => rfl
  | cons i l ih =>
    intro hl s hs
    have hi := hl i List.mem_cons_self
    rw [List.foldl_cons, List.foldl_cons, ← selectTransition_transSet hn hC hask hi hs]
    exact ih (fun j hj => hl j (List.mem_cons_of_mem i hj)) _ (selectTransition_selected (tables d) cb hi hs)

/-! ### Agreement -/

theorem candidate_of_enabled (hn : d.Nesting) (hC : d.Legal C) {t : TransId}
    (ht : t ∈ enabledTransitions d C ask event) : Candidate d C ask event t := by
  obtain ⟨a, ha, hat⟩ := Recommendation.mem_enabledTransitions.mp ht
  obtain ⟨hstates, haC⟩ := Recommendation.mem_states_of_atomic ha
  obtain ⟨habove, hfirst, -⟩ := Recommendation.select_eq_some hn hstates hat
  obtain ⟨hmem, hen⟩ := Recommendation.firstEnabled_spec hfirst
  refine ⟨mem_postFixTransitions.mpr ?_, hC.above haC habove, hen⟩
  rw [Document.transIds, List.mem_map] at hmem
  obtain ⟨k, hk, hkt⟩ := hmem
  rw [← hkt]
  exact List.mem_range.mp hk

theorem getSourceState_of_active (hn : d.Nesting) (hC : d.Legal C) {t : TransId} (ht : t.1 ∈ C) :
    d.getSourceState t = t.1 := by
  have hpseudo := not_pseudo_of_active hn hC ht
  rw [Document.getSourceState, if_neg]
  intro h
  simp [transitionInfo, h] at hpseudo

/-- A common state to exit in the recommendation is one in the interpreter. -/
theorem conflicts_of_intersect (hn : d.Nesting) (hdef : d.HistoryDefaults) (hC : d.Legal C) {t u : TransId}
    (ht : t.1 ∈ C) (hu : u.1 ∈ C) (h : Recommendation.Intersect d hist C t u) : d.conflicts t u = true := by
  obtain ⟨s, hst, hsu⟩ := h
  obtain ⟨hsC, D, hD, hsD⟩ := Recommendation.mem_computeExitSet.mp hst
  obtain ⟨-, E, hE, hsE⟩ := Recommendation.mem_computeExitSet.mp hsu
  have hexit : ∀ {t : TransId} {D : TreePath}, t.1 ∈ C → Recommendation.getTransitionDomain d hist t = some D →
      s.Below D → s ∈ d.getExitSet t := by
    intro t D ht hD hsD
    obtain ⟨outer, houter, habove⟩ :=
      Recommendation.domain_above hn hdef (getSourceState_of_active hn hC ht) (hC.mem_states ht) hD
    have hne : s ≠ [] := fun h => TreePath.not_nil_below D (h ▸ hsD)
    exact Document.mem_getExitSet.mpr ⟨outer, houter, hC.proper s hsC hne, hsD.trans_above habove⟩
  exact Document.conflicts_iff.mpr (Or.inr (Or.inr (Or.inr ⟨s, hexit ht hD hsD, hexit hu hE hsE⟩)))

theorem before_or_before {t u : TransId} (ht : t ∈ postFixTransitions d) (hu : u ∈ postFixTransitions d)
    (hne : t ≠ u) : Before t u ∨ Before u t := by
  have hl : (postFixTransitions d).Pairwise fun t u => Before t u ∨ Before u t :=
    postFixTransitions_pairwise.imp Or.inl
  have : Std.Symm fun t u : TransId => Before t u ∨ Before u t := ⟨fun _ _ h => h.symm⟩
  exact hl.forall ht hu hne

theorem transSet_eq_iff (hn : d.Nesting) (hdef : d.HistoryDefaults) (hist : HistoryValue d)
    (hC : d.Legal C) (hask : ask.Given cb C) (event : Event) (w : ω) :
    (selectTransitions (tables d) cb C event w).transSet =
        (Recommendation.selectTransitions d hist C ask event).toFinset ↔
      Agreeable d hist C ask event := by
  rw [selectTransitions_transSet hn hC hask w,
    Kernel.greedy_eq_iff (fun _ _ h => h.asymm) postFixTransitions_pairwise]
  have hcand : ∀ t ∈ Recommendation.selectTransitions d hist C ask event, Candidate d C ask event t :=
    fun t ht => candidate_of_enabled hn hC (Recommendation.selectTransitions_subset ht)
  constructor
  · intro hk
    have hfree : ∀ t ∈ Recommendation.selectTransitions d hist C ask event,
        ∀ u ∈ Recommendation.selectTransitions d hist C ask event, Before t u → d.conflicts t u = false := by
      intro t ht u hu htu
      have := ((hk u).mp (List.mem_toFinset.mpr hu)).2.2 t (List.mem_toFinset.mpr ht) htu
      rwa [Bool.not_eq_true] at this
    refine ⟨?_, ?_⟩
    · intro t ht u hu hne
      rcases before_or_before (hcand t ht).1 (hcand u hu).1 hne with h | h
      · exact hfree t ht u hu h
      · rw [Document.conflicts_comm]
        exact hfree u hu t ht h
    · intro t ht hnot
      by_contra hnone
      refine hnot (Recommendation.selectTransitions_subset (List.mem_toFinset.mp ((hk t).mpr ⟨ht.1, ht, ?_⟩)))
      intro s hs hst hc
      exact hnone ⟨s, List.mem_toFinset.mp hs, hst, hc⟩
  · intro h t
    constructor
    · intro ht
      have ht' := List.mem_toFinset.mp ht
      refine ⟨(hcand t ht').1, hcand t ht', ?_⟩
      intro s hs hst
      have hne : s ≠ t := by
        rintro rfl
        exact hst.asymm hst
      show ¬ d.conflicts s t = true
      rw [h.kept s (List.mem_toFinset.mp hs) t ht' hne]
      exact Bool.false_ne_true
    · rintro ⟨-, ht, hfree⟩
      have hfree' : ∀ s ∈ Recommendation.selectTransitions d hist C ask event, Before s t → ¬ d.conflicts s t = true :=
        fun s hs => hfree s (List.mem_toFinset.mpr hs)
      rw [List.mem_toFinset]
      by_contra hnot
      by_cases hen : t ∈ enabledTransitions d C ask event
      · -- The recommendation has removed it in favour of one that also excludes it here.
        obtain ⟨s, hs, hint, hpost⟩ := Recommendation.dominated hn hC hen hnot
        exact hfree' s hs (Or.inl hpost) (conflicts_of_intersect hn hdef hC (hcand s hs).2.1 ht.2.1 hint)
      · obtain ⟨u, hu, hbefore, hc⟩ := h.overlooked t ht hen
        exact hfree' u hu hbefore hc

/-- The microstepper selects the transitions that the recommendation selects exactly when no two of these exclude
each other and the enabled transitions no atomic state finds are excluded by them. -/
theorem selectTransitions_eq_iff {d : Document β} (hn : (resortStates d).Nesting) (hdef : (resortStates d).HistoryDefaults)
    (hist : HistoryValue (resortStates d)) (hC : (resortStates d).Legal C) (hask : ask.Given cb C) (event : Event) (w : ω) :
    (selectTransitions (init d) cb C event w).transSet =
        (Recommendation.selectTransitions (resortStates d) hist C ask event).toFinset ↔
      Agreeable (resortStates d) hist C ask event :=
  transSet_eq_iff hn hdef hist hC hask event w

/-- A transition without a target around a state whose own transition loses against the other region. -/
def crossRegions : Document Unit where
  tree :=
    { root := { tag := .scxml }
      kids := .cons { tag := .parallel, id := some "p" }
        (.cons { tag := .state, id := some "r", transitions := [{ target := some ["x"], event := some "e" }] } .nil
          (.cons { tag := .state, id := some "s", transitions := [{ event := some "e" }, { event := some "f" }] }
            (.cons { tag := .state, id := some "a", transitions := [{ target := some ["x"], event := some "e" }] } .nil
              .nil) .nil))
        (.cons { tag := .state, id := some "x" } .nil .nil) }

def byName : Answers := ⟨fun event name => event.name = name, fun _ => true⟩

theorem byName_given (C : Finset TreePath) : byName.Given externalEvents C := ⟨fun _ _ _ => rfl, fun _ _ => rfl⟩

theorem crossRegions_nesting : (resortStates crossRegions).Nesting := ⟨by decide +kernel, by decide +kernel, by decide +kernel⟩

theorem crossRegions_historyDefaults : (resortStates crossRegions).HistoryDefaults := by
  unfold Document.HistoryDefaults
  decide +kernel

/-- The transition of the inner state is preempted, and the one without a target around it is taken although no
atomic state selects it. -/
theorem outer_transition_taken :
    (resortStates crossRegions).Nesting ∧ (resortStates crossRegions).HistoryDefaults ∧ byName.Given externalEvents {[], [0], [0, 0], [0, 1], [0, 1, 0]} ∧
      (resortStates crossRegions).Legal {[], [0], [0, 0], [0, 1], [0, 1, 0]} ∧
      (selectTransitions (init crossRegions) externalEvents {[], [0], [0, 0], [0, 1], [0, 1, 0]} { name := "e" } []).transSet =
        {([0, 0], 0), ([0, 1], 0)} ∧
      (Recommendation.selectTransitions (resortStates crossRegions) (HistoryValue.none _) {[], [0], [0, 0], [0, 1], [0, 1, 0]}
        byName { name := "e" }).toFinset = {([0, 0], 0)} ∧
      (selectTransitions (init crossRegions) externalEvents {[], [0], [0, 0], [0, 1], [0, 1, 0]} { name := "e" } []).transSet ≠
        (Recommendation.selectTransitions (resortStates crossRegions) (HistoryValue.none _)
          {[], [0], [0, 0], [0, 1], [0, 1, 0]} byName { name := "e" }).toFinset :=
  ⟨crossRegions_nesting, crossRegions_historyDefaults, byName_given _, by decide +kernel, by decide +kernel, by decide +kernel,
    by decide +kernel⟩

/-- Where the inner state has no transition of its own, the outer one is selected by both. -/
theorem selectTransitions_eq_iff_crossRegions :
    (selectTransitions (init crossRegions) externalEvents {[], [0], [0, 0], [0, 1], [0, 1, 0]} { name := "f" } []).transSet =
        (Recommendation.selectTransitions (resortStates crossRegions) (HistoryValue.none _)
          {[], [0], [0, 0], [0, 1], [0, 1, 0]} byName { name := "f" }).toFinset ∧
      (Recommendation.selectTransitions (resortStates crossRegions) (HistoryValue.none _)
        {[], [0], [0, 0], [0, 1], [0, 1, 0]} byName { name := "f" }).toFinset = {([0, 1], 1)} := by
  refine ⟨(selectTransitions_eq_iff crossRegions_nesting crossRegions_historyDefaults _ (by decide +kernel)
    (byName_given _) _ _).mpr ⟨by decide +kernel, ?_⟩, by decide +kernel⟩
  intro t ht hnot
  have hall : ∀ t ∈ postFixTransitions (resortStates crossRegions),
      Candidate (resortStates crossRegions) {[], [0], [0, 0], [0, 1], [0, 1, 0]} byName { name := "f" } t →
      t ∈ enabledTransitions (resortStates crossRegions) {[], [0], [0, 0], [0, 1], [0, 1, 0]} byName { name := "f" } := by
    decide +kernel
  exact absurd (hall t ht.1 ht) hnot

end FastMicroStep

end Uscxml
