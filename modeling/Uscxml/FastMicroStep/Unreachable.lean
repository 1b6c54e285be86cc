import Uscxml.Reachability
import Uscxml.FastMicroStep.History
import Uscxml.FastMicroStep.Selection

/-!
# Unreachable states are never entered

Every closed set of states, and so the one `getReachableStates` ends with, holds all states the microstepper ever enters:
what the entry algorithm adds to the entry set are targets, completions and defaults of states of the set, remembered
states, and the states above these.
-/

namespace Uscxml

namespace FastMicroStep

open Document

variable {β : Type} {d : Document β} {R : List TreePath}

/-- What can be in the entry set: members of the set, and `<initial>`s whose transitions lead to members. What lies above
belongs to the set. -/
structure Good (d : Document β) (R : List TreePath) (e : TreePath) : Prop where
  mem : d.tag? e ≠ some .initial → e ∈ R
  initial : d.tag? e = some .initial → ∀ t ∈ d.transIds e, ∀ s ∈ d.getTargetStates t, s ∈ R
  above : ∀ a, e.Below a → a ∈ R

theorem mem_of_mem_matchInOrder {states : List TreePath} {l : List (Option TreePath)} {c : TreePath}
    (h : c ∈ matchInOrder states l) : some c ∈ l := by
  induction states generalizing l with
  | nil => simp [matchInOrder] at h
  | cons s states ih =>
    cases l with
    | nil => simp [matchInOrder] at h
    | cons o l =>
      rw [matchInOrder] at h
      split at h
      · rename_i ho
        rcases List.mem_cons.mp h with rfl | h
        · exact ho ▸ List.mem_cons_self
        · exact List.mem_cons_of_mem o (ih h)
      · exact ih h

theorem not_parallel_of_compound {x : TreePath} (h : d.isCompound x = true) : ¬d.isParallel x = true := by
  simp only [isCompound, Bool.and_eq_true, Bool.not_eq_true'] at h
  simp [h.1.2]

theorem not_history_of_compound {x : TreePath} (h : d.isCompound x = true) : d.isHistory x = false := by
  simp only [isCompound, Bool.and_eq_true] at h
  rcases isState_true_iff.mp h.1.1 with htag | hproper
  · simp [isHistory, htag]
  · rcases properState_iff.mp hproper with htag | htag | htag <;> simp [isHistory, htag]

theorem not_atomic_of_compound (hn : d.Nesting) {x : TreePath} (h : d.isCompound x = true) : ¬d.isAtomic x = true := by
  obtain ⟨htag, c, hc⟩ := hn.isCompound_iff.mp h
  have hkids : (d.getChildStates x true).isEmpty = false :=
    List.isEmpty_eq_false_iff_exists_mem.mpr ⟨c, hn.mem_getChildStates_true.mpr hc⟩
  rcases htag with htag | htag
  · simp [isAtomic, htag, hkids]
  · simp [isAtomic, htag, hkids]

section

variable (hd : d.Searchable) (hR : d.Closed R) (hstates : ∀ x ∈ R, x ∈ d.states)

include hd hR hstates

theorem good_of_mem {e : TreePath} (he : e ∈ R) : Good d R e where
  mem _ := he
  initial _ := hR.target e he
  above _ hb := hd.above hR he (hstates e he) hb

theorem good_ancestors {e a : TreePath} (he : Good d R e) (ha : a ∈ (stateInfo d e).ancestors) : Good d R a :=
  good_of_mem hd hR hstates (he.above a (mem_stateInfo_ancestors.mp ha))

theorem good_target {x : TreePath} (hx : x ∈ R) {t : TransId} (ht : t ∈ postFixTransitions d) (hsource : t.1 = x)
    {s : TreePath} (hs : s ∈ (transitionInfo d t).target) : Good d R s := by
  have hmem : t ∈ d.transIds x := by
    rw [← hsource]
    rw [mem_postFixTransitions] at ht
    exact List.mem_map.mpr ⟨t.2, List.mem_range.mpr ht, rfl⟩
  exact good_of_mem hd hR hstates (hR.target x hx t hmem s ((mem_target hd.uniqueIds).mp hs))

theorem good_initial {x s : TreePath} (hx : x ∈ R) (hs : some s ∈ d.getInitialStates x) : Good d R s :=
  good_of_mem hd hR hstates (hR.initial x hx s hs)

theorem good_initialElem {x init : TreePath} {rest : List TreePath} (hx : x ∈ R) (hcomp : d.isCompound x = true)
    (hattr : (d.elem? x).bind (·.initial) = none)
    (hinit : (d.children x).filter (fun c => d.tag? c = some .initial) = init :: rest) : Good d R init := by
  have hmem : init ∈ (d.children x).filter (fun c => d.tag? c = some .initial) := hinit ▸ List.mem_cons_self
  rw [List.mem_filter, mem_children, decide_eq_true_iff] at hmem
  obtain ⟨⟨hin, hne, hparent⟩, htag⟩ := hmem
  refine ⟨fun h => absurd htag h, fun _ t ht s hs => ?_, fun a hb => ?_⟩
  · -- The only transition of the `<initial>` is the one whose targets are the initial states.
    obtain ⟨k, hk, rfl⟩ := List.mem_map.mp ht
    rw [hd.initialTransition init hin htag, List.mem_range] at hk
    obtain rfl : k = 0 := by omega
    have htarget : (d.trans? (init, 0)).any (·.target.isSome) = true := by
      obtain ⟨i, hi, -⟩ := List.mem_filterMap.mp hs
      cases htrans : d.trans? (init, 0) with
      | none => simp [htrans] at hi
      | some t =>
        cases hids : t.target with
        | none => simp [htrans, hids] at hi
        | some ids => simp [hids]
    refine hR.initial x hx s ?_
    rw [getInitialStates, if_neg (not_atomic_of_compound hd.toNesting hcomp), if_neg (not_parallel_of_compound hcomp), if_pos hcomp, hattr]
    simp only [hinit, htarget, if_true]
    exact List.mem_map.mpr ⟨s, hs, rfl⟩
  · rcases TreePath.below_or_eq_of_prefix (TreePath.prefix_parent_of_below hb) with h | h
    · rw [← h, hparent]
      exact hx
    · rw [hparent] at h
      exact hd.above hR hx (hstates x hx) h

theorem good_completion {x c : TreePath} (hx : x ∈ R) (hkind : d.isCompound x = true ∨ d.isParallel x = true)
    (hc : c ∈ (stateInfo d x).completion) : Good d R c := by
  have hsome : some c ∈ getCompletion d x := mem_of_mem_matchInOrder (List.mem_toFinset.mp hc)
  rcases hkind with hcomp | hpar
  · have hnh : d.isHistory x = false := not_history_of_compound hcomp
    rw [getCompletion, if_neg (by simp [hnh]), if_neg (not_parallel_of_compound hcomp), initialCompletion] at hsome
    cases hattr : (d.elem? x).bind (·.initial) with
    | some ids =>
      refine good_initial hd hR hstates hx ?_
      rw [getInitialStates, if_neg (not_atomic_of_compound hd.toNesting hcomp), if_neg (not_parallel_of_compound hcomp), if_pos hcomp, hattr]
      simpa only [hattr] using hsome
    | none =>
      simp only [hattr] at hsome
      cases hinit : (d.children x).filter fun c => d.tag? c = some .initial with
      | cons init rest =>
        simp only [hinit, List.mem_singleton, Option.some.injEq] at hsome
        rw [hsome]
        exact good_initialElem hd hR hstates hx hcomp hattr hinit
      | nil =>
        refine good_initial hd hR hstates hx ?_
        rw [getInitialStates, if_neg (not_atomic_of_compound hd.toNesting hcomp), if_neg (not_parallel_of_compound hcomp), if_pos hcomp, hattr]
        simpa only [hinit] using hsome
  · have hnh : d.isHistory x = false := by
      simp only [isParallel, decide_eq_true_eq] at hpar
      simp [isHistory, hpar]
    rw [getCompletion, if_neg (by simp [hnh]), if_pos hpar] at hsome
    refine good_initial hd hR hstates hx ?_
    have hna : ¬d.isAtomic x = true := by
      have htag := isParallel_iff.mp hpar
      simp [isAtomic, hpar, htag]
    rw [getInitialStates, if_neg hna, if_pos hpar]
    exact hsome

/-! ### The entry algorithm -/

theorem good_addAncestors {S : Finset TreePath} (hS : ∀ e ∈ S, Good d R e) : ∀ e ∈ addAncestors (tables d) S, Good d R e := by
  rw [addAncestors]
  refine List.foldl_invariant (fun S : Finset TreePath => ∀ e ∈ S, Good d R e) ?_ hS
  intro S i _ hS
  split
  · rename_i hi
    intro e he
    rcases Finset.mem_union.mp he with he | he
    · exact hS e he
    · exact good_ancestors hd hR hstates (hS i hi) he
  · exact hS

theorem good_enterDefault {i : TreePath} (hi : i ∈ R) {e : Entry} (he : ∀ x ∈ e.entrySet, Good d R x) :
    ∀ x ∈ (enterDefault (tables d) i e).entrySet, Good d R x := by
  unfold enterDefault
  split
  · exact he
  · rename_i j hj
    have hsource : j.1 = i := by simpa [tables, transitionInfo] using List.find?_some hj
    have hin : j ∈ postFixTransitions d := List.mem_of_find?_eq_some hj
    have htarget : ∀ s ∈ (transitionInfo d j).target, Good d R s := fun s hs =>
      good_target hd hR hstates hi hin hsource hs
    have hunion : ∀ x ∈ e.entrySet ∪ ((tables d).trans j).target, Good d R x := by
      intro x hx
      rcases Finset.mem_union.mp hx with hx | hx
      · exact he x hx
      · exact htarget x hx
    dsimp only
    split
    · split
      · exact hunion
      · rename_i k _ hk
        intro x hx
        rcases Finset.mem_union.mp hx with hx | hx
        · exact hunion x hx
        · have hkt : k ∈ behind (tables d) i ((tables d).trans j).target := hk ▸ List.mem_cons_self
          exact good_ancestors hd hR hstates (htarget k (mem_behind.mp hkt).2.2) hx
    · exact hunion

theorem good_enterHistory {C H : Finset TreePath} (hH : ∀ x ∈ H, x ∈ R) {i : TreePath} (hi : i ∈ R) {e : Entry}
    (he : ∀ x ∈ e.entrySet, Good d R x) : ∀ x ∈ (enterHistory (tables d) C H i e).entrySet, Good d R x := by
  unfold enterHistory
  split
  · exact good_enterDefault hd hR hstates hi he
  · have hno : ¬((tables d).state i).hasHistory = true := by simp [tables, hasHistory_eq_false]
    intro x hx
    dsimp only at hx
    rw [if_neg (fun h => hno h.1)] at hx
    rcases Finset.mem_union.mp hx with hx | hx
    · exact he x hx
    · exact good_of_mem hd hR hstates (hH x (Finset.mem_inter.mp hx).2)

theorem good_enterInitial {i : TreePath} (hi : Good d R i) (htag : d.tag? i = some .initial) {e : Entry}
    (he : ∀ x ∈ e.entrySet, Good d R x) : ∀ x ∈ (enterInitial (tables d) i e).entrySet, Good d R x := by
  unfold enterInitial
  refine List.foldl_invariant (fun e : Entry => ∀ x ∈ e.entrySet, Good d R x) ?_ he
  intro e j hj he
  obtain ⟨hin, hsource⟩ := List.mem_filter.mp hj
  have hsource' : j.1 = i := by simpa [tables, transitionInfo] using hsource
  have hmem : j ∈ d.transIds i := by
    have hlt : j.2 < (d.transitionsAt j.1).length := mem_postFixTransitions.mp hin
    rw [← hsource']
    exact List.mem_map.mpr ⟨j.2, List.mem_range.mpr hlt, rfl⟩
  have htarget : ∀ s ∈ ((tables d).trans j).target, Good d R s := fun s hs =>
    good_of_mem hd hR hstates (hi.initial htag j hmem s ((mem_target hd.uniqueIds).mp hs))
  refine List.foldl_invariant (fun es : Finset TreePath => ∀ x ∈ es, Good d R x) ?_ ?_
  · intro es k hk hes x hx
    rcases Finset.mem_union.mp hx with hx | hx
    · exact hes x hx
    · exact good_ancestors hd hR hstates (htarget k (mem_behind.mp hk).2.2) hx
  · intro x hx
    rcases Finset.mem_union.mp hx with hx | hx
    · exact he x (Finset.mem_of_mem_erase hx)
    · exact htarget x hx

theorem good_enterCompound {C X : Finset TreePath} {i : TreePath} (hi : i ∈ R) (hcomp : d.isCompound i = true)
    {E : Finset TreePath} (hE : ∀ x ∈ E, Good d R x) : ∀ x ∈ enterCompound (tables d) C X i E, Good d R x := by
  have hcompletion : ∀ c ∈ ((tables d).state i).completion, Good d R c := fun c hc =>
    good_completion hd hR hstates hi (.inl hcomp) hc
  have hunion : ∀ x ∈ E ∪ ((tables d).state i).completion, Good d R x := by
    intro x hx
    rcases Finset.mem_union.mp hx with hx | hx
    · exact hE x hx
    · exact hcompletion x hx
  unfold enterCompound
  dsimp only
  split
  · split
    · split
      · exact hunion
      · rename_i j _ hj
        intro x hx
        rcases Finset.mem_union.mp hx with hx | hx
        · exact hunion x hx
        · have hjc : j ∈ behind (tables d) i ((tables d).state i).completion := hj ▸ List.mem_cons_self
          exact good_ancestors hd hR hstates (hcompletion j (mem_behind.mp hjc).2.2) hx
    · exact hunion
  · exact hE

theorem good_descend {C X H : Finset TreePath} (hH : ∀ x ∈ H, x ∈ R) {i : TreePath} (hi : i ∈ d.states) {e : Entry}
    (he : ∀ x ∈ e.entrySet, Good d R x) : ∀ x ∈ (descend (tables d) C X H e i).entrySet, Good d R x := by
  unfold descend
  split
  · rename_i hie
    have hgood := he i hie
    obtain ⟨hcompound, hparallel, hhistory, hinit⟩ := kind_of_stateType hi
    have htype : ((tables d).state i).type = stateType d i := rfl
    have hrecorded : d.isHistory i = true → i ∈ R := by
      intro hist
      refine hgood.mem fun htag => ?_
      simp [isHistory, htag] at hist
    have hmember : d.isState i true = true → i ∈ R := by
      intro hstate
      refine hgood.mem fun htag => ?_
      simp [isState, htag] at hstate
    split
    · exact he
    · exact he
    · rename_i hpar
      have hp := hparallel (htype ▸ hpar)
      have hiR : i ∈ R := hmember (by simp [isState, isParallel_iff.mp hp])
      intro x hx
      rcases Finset.mem_union.mp hx with hx | hx
      · exact he x hx
      · exact good_completion hd hR hstates hiR (.inr hp) hx
    · rename_i hshallow
      exact good_enterHistory hd hR hstates hH (hrecorded (hhistory (Or.inl (htype ▸ hshallow)))) he
    · rename_i hdeep
      exact good_enterHistory hd hR hstates hH (hrecorded (hhistory (Or.inr (htype ▸ hdeep)))) he
    · rename_i hinitial
      exact good_enterInitial hd hR hstates hgood (hinit (htype ▸ hinitial)) he
    · rename_i hcomp
      have hc := hcompound (htype ▸ hcomp)
      have hiR : i ∈ R := hmember (by
        simp only [isCompound, Bool.and_eq_true] at hc
        exact hc.1.1)
      exact good_enterCompound hd hR hstates hiR hc he
  · exact he

theorem good_establishEntrySet {C X H targetSet : Finset TreePath} (hH : ∀ x ∈ H, x ∈ R)
    (htargets : ∀ t ∈ targetSet, Good d R t) (transSet : Finset TransId) :
    ∀ x ∈ (establishEntrySet (tables d) C X H targetSet transSet).entrySet, Good d R x := by
  refine List.foldl_invariant (fun e : Entry => ∀ x ∈ e.entrySet, Good d R x) ?_ ?_
  · exact fun e i hi he => good_descend hd hR hstates hH hi he
  · exact good_addAncestors hd hR hstates htargets

theorem nextConfiguration_subset {C X H targetSet : Finset TreePath} (hC : ∀ x ∈ C, x ∈ R) (hH : ∀ x ∈ H, x ∈ R)
    (htargets : ∀ t ∈ targetSet, Good d R t) (transSet : Finset TransId) :
    ∀ x ∈ nextConfiguration (tables d) targetSet X transSet C H, x ∈ R := by
  intro x hx
  rcases (mem_nextConfiguration (tables d)).mp hx with ⟨hx, -⟩ | ⟨hx, -, hpseudo⟩
  · exact hC x hx
  · refine (good_establishEntrySet hd hR hstates hH htargets transSet x hx).mem fun htag => ?_
    have htype : ((tables d).state x).type = .initial := stateType_of_initial htag
    rw [htype] at hpseudo
    cases hpseudo

/-! ### Runs -/

/-- A step keeps the configuration and the remembered states inside the set. -/
theorem moves_subset {ω : Type} {cb : Callbacks ω} {s s' : St ω} (hm : Moves (tables d) cb s s')
    (hC : ∀ x ∈ s.configuration, x ∈ R) (hH : ∀ x ∈ s.history, x ∈ R) :
    (∀ x ∈ s'.configuration, x ∈ R) ∧ ∀ x ∈ s'.history, x ∈ R := by
  cases hm with
  | stays _ _ hconf hhist _ => exact ⟨hconf ▸ hC, hhist ▸ hH⟩
  | starts m _ _ hm hconf hhist _ =>
    subst hm
    rw [hconf, hhist]
    refine ⟨nextConfiguration_subset hd hR hstates hC hH ?_ ∅, hH⟩
    exact fun t ht => good_completion hd hR hstates hR.root (.inl hd.toNesting.isCompound_root) ht
  | takes m _ _ event w sel hsel hm _ hconf hhist _ =>
    subst hm
    rw [hconf, hhist]
    have hremembered : ∀ x ∈ rememberHistory (tables d) s.configuration (sel.exitSet ∩ s.configuration) s.history, x ∈ R := by
      refine List.foldl_invariant (fun H : Finset TreePath => ∀ x ∈ H, x ∈ R) ?_ hH
      intro H i _ hH
      split
      · intro x hx
        rcases Finset.mem_union.mp hx with hx | hx
        · exact hH x (Finset.mem_sdiff.mp hx).1
        · exact hC x (Finset.mem_inter.mp hx).2
      · exact hH
    have hselected : Selected (tables d) s.configuration sel := hsel ▸ selectTransitions_selected _ _ _ _ _
    refine ⟨nextConfiguration_subset hd hR hstates hC hremembered ?_ sel.transSet, hremembered⟩
    intro p hp
    obtain ⟨t, ht, hpt⟩ := (hselected.target p).mp hp
    obtain ⟨hin, hsource⟩ := hselected.active t ht
    exact good_target hd hR hstates (hC t.1 hsource) hin rfl hpt

theorem reachable_subset {ω : Type} {cb : Callbacks ω} {s : St ω} (hs : Reachable (tables d) cb s) :
    (∀ x ∈ s.configuration, x ∈ R) ∧ ∀ x ∈ s.history, x ∈ R := by
  induction hs with
  | init w => exact ⟨by simp, by simp⟩
  | step _ ih => exact moves_subset hd hR hstates (step_moves (tables d) cb _) ih.1 ih.2
  | environment w _ ih => exact ih
  | cancel _ ih => exact ih

end

/-- The search for reachable states ends, and it has found every state that is active in any run of the microstepper. -/
theorem active_states_reachable {d : Document β} (hd : d.Searchable) :
    ∃ R, d.getReachableStates = some R ∧
      ∀ {ω : Type} (cb : Callbacks ω) (s : St ω), Reachable (tables d) cb s → ∀ p ∈ s.configuration, p ∈ R := by
  obtain ⟨R, hR, hclosed, hstates⟩ := getReachableStates_closed hd.resolve
  exact ⟨R, hR, fun cb s hs => (reachable_subset hd hclosed hstates hs).1⟩

/-- A chart with a history that has a default transition, and a state no transition leads to. -/
def withDefault : Document Unit where
  tree :=
    { root := { tag := .scxml }
      kids := .cons { tag := .state, id := some "a", transitions := [{ target := some ["h"], event := some "e" }] } .nil
        (.cons { tag := .state, id := some "p" }
          (.cons { tag := .history, id := some "h", transitions := [{ target := some ["b"] }] } .nil
            (.cons { tag := .state, id := some "b" } .nil .nil))
          (.cons { tag := .state, id := some "c" } .nil .nil)) }

theorem withDefault_searchable : withDefault.Searchable where
  rootTag := by decide +kernel
  nested := by decide +kernel
  child := by decide +kernel
  uniqueIds := by unfold UniqueIds; decide +kernel
  resolve := by
    intro p hp ids hids
    have hnone : ∀ p ∈ withDefault.states, (withDefault.elem? p).bind (·.initial) = none := by decide +kernel
    rw [hnone p hp] at hids
    cases hids
  initialTransition := by decide +kernel
  grounded := by
    have hb : withDefault.Grounded [1, 1] := .atomic (by decide +kernel)
    have ha : withDefault.Grounded [0] := .atomic (by decide +kernel)
    have hall : ∀ p ∈ withDefault.states, p ∈ [[], [0], [1], [1, 0], [1, 1], [2]] := by decide +kernel
    intro p hp
    have hp' := hall p hp
    simp only [List.mem_cons, List.not_mem_nil, or_false] at hp'
    rcases hp' with rfl | rfl | rfl | rfl | rfl | rfl
    · exact .completed (s := [0]) (by decide +kernel) (by decide +kernel) ha
    · exact ha
    · exact .completed (s := [1, 1]) (by decide +kernel) (by decide +kernel) hb
    · exact .default (s := [1, 1]) (t := ([1, 0], 0)) (.inl (by decide +kernel)) (by decide +kernel) (by decide +kernel)
        (by decide +kernel) hb
    · exact hb
    · exact .atomic (by decide +kernel)

/-- The state no transition leads to is not found, and so it is never active. -/
theorem active_states_reachable_withDefault :
    ∃ R, withDefault.getReachableStates = some R ∧ [2] ∉ R ∧ [1, 1] ∈ R ∧
      ∀ (s : St (List Event)), Reachable (tables withDefault) externalEvents s → [2] ∉ s.configuration := by
  obtain ⟨R, hR, hruns⟩ := active_states_reachable withDefault_searchable
  have hfound : withDefault.getReachableStates = some [[], [0], [1, 0], [1, 1], [1]] := by decide +kernel
  rw [hfound] at hR
  cases hR
  exact ⟨_, hfound, by decide, by decide, fun s hs hmem => absurd (hruns externalEvents s hs [2] hmem) (by decide)⟩

/-- The same chart without the default transition and the unreachable state. -/
def withoutDefault : Document Unit where
  tree :=
    { root := { tag := .scxml }
      kids := .cons { tag := .state, id := some "a", transitions := [{ target := some ["h"], event := some "e" }] } .nil
        (.cons { tag := .state, id := some "p" }
          (.cons { tag := .history, id := some "h" } .nil (.cons { tag := .state, id := some "b" } .nil .nil)) .nil) }

/-- Its ids resolve and its compound states have proper children. The microstepper enters the parent of the history, which
the search does not find: a history is not atomic. -/
theorem withoutDefault_entered :
    (∀ p ∈ withoutDefault.states, ∀ t ∈ withoutDefault.transitionsAt p, ∀ i ∈ t.target.getD [],
        (withoutDefault.getState i).isSome) ∧ withoutDefault.InitialsResolve ∧ withoutDefault.UniqueIds ∧
      (∀ p ∈ withoutDefault.states, withoutDefault.isParallel p = true ∨ withoutDefault.isCompound p = true →
        ∃ c ∈ withoutDefault.states, withoutDefault.ProperChild p c) ∧
      ¬∃ R, withoutDefault.getReachableStates = some R ∧
        ∀ {ω : Type} (cb : Callbacks ω) (s : St ω), Reachable (tables withoutDefault) cb s →
          ∀ p ∈ s.configuration, withoutDefault.ProperState p → p ∈ R := by
  refine ⟨by decide +kernel, ?_, by unfold UniqueIds; decide +kernel, by decide +kernel, ?_⟩
  · intro p hp ids hids
    have hnone : ∀ p ∈ withoutDefault.states, (withoutDefault.elem? p).bind (·.initial) = none := by decide +kernel
    rw [hnone p hp] at hids
    cases hids
  · rintro ⟨R, hR, hruns⟩
    have hfound : withoutDefault.getReachableStates = some [[], [0], [1, 0]] := by decide +kernel
    rw [hfound] at hR
    cases hR
    have hstart : Reachable (tables withoutDefault) externalEvents { env := [{ name := "e" }] } := .init _
    have hrun := hstart.steps _ _ 4
    have hactive : [1] ∈ (steps (tables withoutDefault) externalEvents 4 { env := [{ name := "e" }] }).configuration := by
      decide +kernel
    exact absurd (hruns externalEvents _ hrun [1] hactive (by decide +kernel)) (by decide)

end FastMicroStep

end Uscxml
