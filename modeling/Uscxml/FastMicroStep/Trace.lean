import Uscxml.FastMicroStep.Invocations
import Uscxml.FastMicroStep.Selection

/-!
# What a monitor sees

The calls to monitors during a microstep: exits from the end of the document to its start, the selected transitions in
postfix order, entries in document order, and after each of them the transitions of the pseudo-states below it.
-/

namespace Uscxml

namespace FastMicroStep

variable {ω β : Type} (T : Tables) (cb : Callbacks ω)

/-- The calls that go to monitors. -/
def isMonitor : Call → Bool
  | .process _ | .initData _ | .invoke _ | .uninvoke _ | .raiseDoneEvent _ | .dequeueExternal => false
  | _ => true

def monitorCalls (l : List Call) : List Call := l.filter isMonitor

def exitPair (i : TreePath) : List Call := [.beforeExitingState i, .afterExitingState i]

def transitionPair (t : TransId) : List Call := [.beforeTakingTransition t, .afterTakingTransition t]

/-- The entry of a state with the transitions of its pseudo-states among `transSet`. -/
def enterPair (transSet : Finset TransId) (i : TreePath) : List Call :=
  .beforeEnteringState i :: .afterEnteringState i :: (pseudoTransitions T transSet i).flatMap transitionPair

theorem monitorCalls_append (l l' : List Call) : monitorCalls (l ++ l') = monitorCalls l ++ monitorCalls l' :=
  List.filter_append ..

theorem monitorCalls_flatMap {γ : Type} (f : γ → List Call) (l : List γ) :
    monitorCalls (l.flatMap f) = l.flatMap fun x => monitorCalls (f x) := List.filter_flatMap ..

theorem monitorCalls_map_process (l : List Ref) : monitorCalls (l.map .process) = [] := by
  simp [monitorCalls, isMonitor]

theorem monitorCalls_exitCalls (i : TreePath) : monitorCalls (exitCalls T i) = exitPair i := by
  have hparts : exitCalls T i = [.beforeExitingState i] ++ (T.state i).onExit.map .process ++ [.afterExitingState i] := by
    simp [exitCalls]
  rw [hparts, monitorCalls_append, monitorCalls_append, monitorCalls_map_process]
  rfl

theorem monitorCalls_transitionCalls (t : TransId) : monitorCalls (transitionCalls T t) = transitionPair t := by
  have hparts : transitionCalls T t =
      [.beforeTakingTransition t] ++ (T.trans t).onTrans.toList.map .process ++ [.afterTakingTransition t] := by
    simp [transitionCalls]
  rw [hparts, monitorCalls_append, monitorCalls_append, monitorCalls_map_process]
  rfl

theorem monitorCalls_enterCalls (transSet : Finset TransId) (fresh : Bool) (C : Finset TreePath) (i : TreePath) :
    monitorCalls (enterCalls T transSet fresh C i) = enterPair T transSet i := by
  have hdata : monitorCalls (if fresh then (T.state i).data.map .initData else []) = [] := by
    split <;> simp [monitorCalls, isMonitor]
  have hdone : monitorCalls (if (T.state i).type = .final then (doneStates T C i).map .raiseDoneEvent else []) = [] := by
    split <;> simp [monitorCalls, isMonitor]
  have hparts : enterCalls T transSet fresh C i = [.beforeEnteringState i] ++
      (if fresh then (T.state i).data.map .initData else []) ++ (T.state i).onEntry.map .process ++
      [.afterEnteringState i] ++ (pseudoTransitions T transSet i).flatMap (transitionCalls T) ++
      if (T.state i).type = .final then (doneStates T C i).map .raiseDoneEvent else [] := by
    simp [enterCalls]
  rw [hparts]
  simp only [monitorCalls_append, hdata, hdone, monitorCalls_map_process, monitorCalls_flatMap,
    monitorCalls_transitionCalls, List.append_nil]
  rfl

theorem monitorCalls_microstep (m : Microstep) (I : Finset TreePath) :
    monitorCalls (m.calls T I) =
      (exitedStates T m.exitSet m.configuration).flatMap exitPair ++
        (takenTransitions T (m.entry T).transSet).flatMap transitionPair ++
        (m.newStates T).flatMap (enterPair T (m.entry T).transSet) ++ [.afterMicroStep (m.next T)] := by
  simp only [Microstep.calls, monitorCalls_append, monitorCalls_flatMap, monitorCalls_exitCalls,
    monitorCalls_transitionCalls, monitorCalls_enterCalls]
  rfl

theorem monitorCalls_opens {m : Micro} {l : List Call} (h : Opens T m l) :
    ∀ c ∈ monitorCalls l, ∃ event, c = .beforeProcessingEvent event := by
  intro c hc
  rw [monitorCalls, List.mem_filter] at hc
  obtain ⟨hc, hmon⟩ := hc
  cases h with
  | nothing => simp at hc
  | internal event => exact ⟨event, List.mem_singleton.mp hc⟩
  | managed rest hrest =>
    rcases List.mem_append.mp hc with hc | hc
    · obtain ⟨i, -, hc⟩ := List.mem_flatMap.mp hc
      rw [manageCalls] at hc
      rcases List.mem_append.mp hc with hc | hc
      · split at hc
        · obtain ⟨_, _, rfl⟩ := List.mem_map.mp hc
          simp [isMonitor] at hmon
        · simp at hc
      · split at hc
        · obtain ⟨_, _, rfl⟩ := List.mem_map.mp hc
          simp [isMonitor] at hmon
        · simp at hc
    · rcases hrest with rfl | rfl | ⟨event, rfl⟩
      · simp at hc
      · obtain rfl := List.mem_singleton.mp hc
        simp [isMonitor] at hmon
      · rcases List.mem_cons.mp hc with rfl | hc
        · simp [isMonitor] at hmon
        · exact ⟨event, List.mem_singleton.mp hc⟩

/-! ### The taken transitions -/

/-- The transitions of pseudo-states are marked as such. -/
def MarksPseudo : Prop :=
  ∀ t ∈ T.transitions, (T.state (T.trans t).source).type.pseudo = true → ((T.trans t).history || (T.trans t).initial) = true

theorem marksPseudo_tables {β : Type} (d : Document β) : MarksPseudo (tables d) := by
  intro t _ h
  change (stateType d t.1).pseudo = true at h
  change (decide (d.tag? t.1 = some .history) || decide (d.tag? t.1 = some .initial)) = true
  rw [stateType] at h
  split at h
  · simp [*]
  split at h
  · simp [StateType.pseudo] at h
  split at h
  · rename_i hist
    simp only [Document.isHistory, decide_eq_true_eq] at hist
    simp [hist]
  split at h
  · simp [StateType.pseudo] at h
  split at h
  · simp [StateType.pseudo] at h
  · simp [StateType.pseudo] at h

variable {T}

theorem enterHistory_transSet (hT : MarksPseudo T) {C H : Finset TreePath} {e : Entry} {i : TreePath} {t : TransId}
    (hi : (T.state i).type.pseudo = true) (ht : t ∈ (enterHistory T C H i e).transSet) :
    t ∈ e.transSet ∨ ((T.trans t).history || (T.trans t).initial) = true := by
  rw [enterHistory] at ht
  split at ht
  · rw [enterDefault] at ht
    split at ht
    · exact Or.inl ht
    · rename_i j hj
      rcases Finset.mem_insert.mp ht with rfl | ht
      · have hsource := List.find?_some hj
        rw [decide_eq_true_eq] at hsource
        exact Or.inr (hT t (List.mem_of_find?_eq_some hj) (by rw [hsource, hi]))
      · exact Or.inl ht
  · exact Or.inl ht

theorem enterInitial_transSet (hT : MarksPseudo T) {e : Entry} {i : TreePath} {t : TransId}
    (hi : (T.state i).type.pseudo = true) (ht : t ∈ (enterInitial T i e).transSet) :
    t ∈ e.transSet ∨ ((T.trans t).history || (T.trans t).initial) = true := by
  revert ht
  rw [enterInitial]
  refine List.foldl_invariant
    (fun e' : Entry => t ∈ e'.transSet → t ∈ e.transSet ∨ ((T.trans t).history || (T.trans t).initial) = true) ?_ Or.inl
  intro e' j hj ih ht
  rcases Finset.mem_insert.mp ht with rfl | ht
  · rw [List.mem_filter, decide_eq_true_eq] at hj
    exact Or.inr (hT t hj.1 (by rw [hj.2, hi]))
  · exact ih ht

theorem descend_transSet (hT : MarksPseudo T) {C X H : Finset TreePath} {e : Entry} {i : TreePath} {t : TransId}
    (ht : t ∈ (descend T C X H e i).transSet) :
    t ∈ e.transSet ∨ ((T.trans t).history || (T.trans t).initial) = true := by
  rw [descend] at ht
  split at ht
  · split at ht
    · exact Or.inl ht
    · exact Or.inl ht
    · exact Or.inl ht
    · rename_i htype
      exact enterHistory_transSet hT (by rw [htype]; rfl) ht
    · rename_i htype
      exact enterHistory_transSet hT (by rw [htype]; rfl) ht
    · rename_i htype
      exact enterInitial_transSet hT (by rw [htype]; rfl) ht
    · exact Or.inl ht
  · exact Or.inl ht

theorem descend_transSet_subset {C X H : Finset TreePath} {e : Entry} {i : TreePath} {t : TransId}
    (ht : t ∈ e.transSet) : t ∈ (descend T C X H e i).transSet := by
  have hhistory : t ∈ (enterHistory T C H i e).transSet := by
    rw [enterHistory]
    split
    · rw [enterDefault]
      split
      · exact ht
      · exact Finset.mem_insert_of_mem ht
    · exact ht
  have hinitial : t ∈ (enterInitial T i e).transSet := by
    rw [enterInitial]
    exact List.foldl_invariant (fun e' : Entry => t ∈ e'.transSet) (fun _ _ _ h => Finset.mem_insert_of_mem h) ht
  rw [descend]
  split
  · split
    · exact ht
    · exact ht
    · exact ht
    · exact hhistory
    · exact hhistory
    · exact hinitial
    · exact ht
  · exact ht

/-- The proper transitions of an entry set are the selected ones. -/
theorem mem_establishEntrySet_transSet (hT : MarksPseudo T) {C X H targetSet : Finset TreePath}
    {transSet : Finset TransId} {t : TransId} (ht : ((T.trans t).history || (T.trans t).initial) = false) :
    t ∈ (establishEntrySet T C X H targetSet transSet).transSet ↔ t ∈ transSet := by
  constructor
  · intro hmem
    have hinv : t ∈ transSet ∨ ((T.trans t).history || (T.trans t).initial) = true := by
      revert hmem
      rw [establishEntrySet]
      refine List.foldl_invariant
        (fun e : Entry => t ∈ e.transSet → t ∈ transSet ∨ ((T.trans t).history || (T.trans t).initial) = true) ?_ Or.inl
      intro e i _ ih hmem
      rcases descend_transSet hT hmem with hmem | hmem
      · exact ih hmem
      · exact Or.inr hmem
    rcases hinv with hmem | hmem
    · exact hmem
    · exact absurd (ht.symm.trans hmem) Bool.false_ne_true
  · intro hmem
    rw [establishEntrySet]
    exact List.foldl_invariant (fun e : Entry => t ∈ e.transSet) (fun _ _ _ h => descend_transSet_subset h) hmem

/-! ### The selected transitions of a microstep -/

structure Microstep.Selects (m : Microstep) (C : Finset TreePath) : Prop where
  active : ∀ t ∈ m.transSet, t ∈ T.transitions
  proper : ∀ t ∈ m.transSet, ((T.trans t).history || (T.trans t).initial) = false
  exit : ∀ i, i ∈ m.exitSet ↔ (∃ t ∈ m.transSet, i ∈ (T.trans t).exitSet) ∧ i ∈ C

theorem microstepOf_selects {s : St ω} {m : Microstep} (hm : microstepOf T cb s = some m) :
    m.Selects (T := T) s.configuration := by
  cases step_moves T cb s with
  | stays hnone => simp [hnone] at hm
  | starts m' hsome _ heq =>
    rw [hsome, Option.some.injEq] at hm
    subst hm
    rw [heq]
    exact ⟨by simp, by simp, by simp⟩
  | takes m' hsome _ event w sel hsel heq =>
    rw [hsome, Option.some.injEq] at hm
    subst hm
    rw [heq]
    have hselected := selectTransitions_selected T cb s.configuration event w
    rw [← hsel] at hselected
    refine ⟨fun t ht => (hselected.active t ht).1, fun t ht => by simp [hselected.proper t ht], fun i => ?_⟩
    rw [Selection.microstep, Finset.mem_inter, hselected.exit]

/-! ### Data -/

def dataCalls (l : List Call) : List Ref :=
  l.filterMap fun c =>
    match c with
    | .initData r => some r
    | _ => none

variable (T)

/-- Every `<data>` is listed once. -/
structure OwnData : Prop where
  nodup : ∀ i, (T.state i).data.Nodup
  owner : ∀ i j, ∀ r ∈ (T.state i).data, r ∈ (T.state j).data → i = j

theorem mem_dataRefs {β : Type} {d : Document β} {p : TreePath} {r : Ref} (h : r ∈ dataRefs d p) : ∃ n, r = .data p n := by
  obtain ⟨n, -, rfl⟩ := List.mem_map.mp h
  exact ⟨n, rfl⟩

theorem dataRefs_nodup {β : Type} (d : Document β) (p : TreePath) : (dataRefs d p).Nodup :=
  List.Nodup.map (fun _ _ h => (Ref.data.inj h).2) List.nodup_range

theorem ownData_tables {β : Type} (d : Document β) : OwnData (tables d) := by
  have hall : (d.states.flatMap (dataRefs d)).Nodup := by
    rw [List.nodup_flatMap]
    refine ⟨fun p _ => dataRefs_nodup d p, d.tree.preorder_nodup.imp ?_⟩
    intro p q hne r hp hq
    obtain ⟨n, rfl⟩ := mem_dataRefs hp
    obtain ⟨n', h⟩ := mem_dataRefs hq
    exact hne (Ref.data.inj h).1
  cases hbinding : d.binding with
  | early =>
    have hdata : ∀ i, ((tables d).state i).data = if i = [] then d.states.flatMap (dataRefs d) else [] := by
      intro i
      simp only [tables, stateInfo, hbinding]
    refine ⟨fun i => ?_, fun i j r hi hj => ?_⟩
    · rw [hdata]
      split
      · exact hall
      · exact List.nodup_nil
    · rw [hdata] at hi hj
      have hi' : i = [] := by
        by_contra hne
        simp [hne] at hi
      have hj' : j = [] := by
        by_contra hne
        simp [hne] at hj
      rw [hi', hj']
  | late =>
    have hdata : ∀ i, ((tables d).state i).data = dataRefs d i := by
      intro i
      simp only [tables, stateInfo, hbinding]
    refine ⟨fun i => hdata i ▸ dataRefs_nodup d i, fun i j r hi hj => ?_⟩
    rw [hdata] at hi hj
    obtain ⟨n, rfl⟩ := mem_dataRefs hi
    obtain ⟨n', h⟩ := mem_dataRefs hj
    exact (Ref.data.inj h).1

theorem dataCalls_append (l l' : List Call) : dataCalls (l ++ l') = dataCalls l ++ dataCalls l' := List.filterMap_append

theorem dataCalls_eq_nil {l : List Call} (h : ∀ r, .initData r ∉ l) : dataCalls l = [] := by
  rw [dataCalls, List.filterMap_eq_nil_iff]
  intro c hc
  split
  · exact absurd hc (h _)
  · rfl

theorem dataCalls_flatMap {γ : Type} (f : γ → List Call) (l : List γ) :
    dataCalls (l.flatMap f) = l.flatMap fun x => dataCalls (f x) := by
  rw [dataCalls, List.filterMap_flatMap]
  rfl

theorem dataCalls_enterCalls (transSet : Finset TransId) (fresh : Bool) (C : Finset TreePath) (i : TreePath) :
    dataCalls (enterCalls T transSet fresh C i) = if fresh then (T.state i).data else [] := by
  have hparts : enterCalls T transSet fresh C i = .beforeEnteringState i ::
      (if fresh then (T.state i).data.map .initData else []) ++ ((T.state i).onEntry.map .process ++
      (.afterEnteringState i :: ((pseudoTransitions T transSet i).flatMap (transitionCalls T) ++
        if (T.state i).type = .final then (doneStates T C i).map .raiseDoneEvent else []))) := by
    simp [enterCalls]
  have hrest : dataCalls ((T.state i).onEntry.map .process ++
      (.afterEnteringState i :: ((pseudoTransitions T transSet i).flatMap (transitionCalls T) ++
        if (T.state i).type = .final then (doneStates T C i).map .raiseDoneEvent else []))) = [] := by
    refine dataCalls_eq_nil fun r hr => ?_
    simp only [transitionCalls, List.mem_append, List.mem_map, List.mem_cons, List.mem_flatMap, reduceCtorEq, and_false,
      exists_false, false_or, List.not_mem_nil, or_false] at hr
    split at hr <;> simp at hr
  rw [hparts, dataCalls_append, hrest, List.append_nil]
  split
  · have hmap : ∀ l : List Ref, dataCalls (l.map .initData) = l := by
      intro l
      induction l with
      | nil => rfl
      | cons r l ih => exact congrArg (r :: ·) ih
    exact hmap _
  · rfl

theorem dataCalls_microstep (m : Microstep) (I : Finset TreePath) :
    dataCalls (m.calls T I) = (m.newStates T).flatMap fun i => if i ∉ I then (T.state i).data else [] := by
  have hexit : ∀ i, dataCalls (exitCalls T i) = [] := fun i => dataCalls_eq_nil (by simp [exitCalls])
  have htrans : ∀ t, dataCalls (transitionCalls T t) = [] := fun t => dataCalls_eq_nil (by simp [transitionCalls])
  have hlast : dataCalls [.afterMicroStep (m.next T)] = [] := rfl
  have hnone : ∀ {γ : Type} (l : List γ), l.flatMap (fun _ => ([] : List Ref)) = [] :=
    fun l => List.flatMap_eq_nil_iff.mpr fun _ _ => rfl
  simp [Microstep.calls, dataCalls_append, dataCalls_flatMap, hexit, htrans, hlast, dataCalls_enterCalls, hnone]

theorem selectAndStep_initializedData {s s₀ : St ω} (h : phase T cb s = .select s₀) :
    (selectAndStep T cb s₀).2.initializedData =
      (microstepOf T cb s).elim s₀.initializedData fun m => s₀.initializedData ∪ (m.newStates T).toFinset := by
  generalize hsel : selectTransitions T cb s₀.configuration s₀.event s₀.env = sel
  rw [microstepOf_select T cb h hsel]
  cases hfound : sel.found with
  | true =>
    rw [selectAndStep_of_found T cb hsel hfound, microstep_toMicro]
    rfl
  | false =>
    rw [selectAndStep_of_not_found T cb hsel hfound]
    rfl

theorem step_initializedData (s : St ω) :
    (step T cb s).2.initializedData =
      (microstepOf T cb s).elim s.initializedData fun m => s.initializedData ∪ (m.newStates T).toFinset := by
  have hdrained : (drained T cb s).initializedData = s.initializedData := by rw [drained_toMicro]
  have harises := phase_arises T cb s
  rw [step_eq_phase]
  generalize hphase : phase T cb s = phase at harises
  cases harises with
  | finished => simp only [microstepOf, hphase, Phase.finish, Option.elim_none]
  | completion => simp only [microstepOf, hphase, Phase.finish, Option.elim_none, complete_toMicro]
  | start =>
    simp only [microstepOf, hphase, Phase.finish, Option.elim_some, microstep_toMicro]
    rfl
  | eventless => exact selectAndStep_initializedData T cb hphase
  | internal => exact selectAndStep_initializedData T cb hphase
  | stable | thrown =>
    simp only [microstepOf, hphase, Option.elim_none]
    exact hdrained
  | external ha event w =>
    have hselect := selectAndStep_initializedData T cb hphase
    have hinit : (processing event (dequeued event w (drained T cb s))).initializedData = s.initializedData := hdrained
    rw [hinit] at hselect
    exact hselect
  | unblocked =>
    simp only [microstepOf, hphase, Option.elim_none, Phase.finish]
    split
    · exact hdrained
    · exact hdrained

/-- What was initialised belongs to states that are marked so. -/
structure DataOnce (s : St ω) : Prop where
  nodup : (dataCalls s.calls).Nodup
  marked : ∀ r ∈ dataCalls s.calls, ∃ i ∈ s.initializedData, r ∈ (T.state i).data

theorem dataCalls_traces {s : St ω} {l : List Call} (h : Traces T cb s l) :
    dataCalls l = (microstepOf T cb s).elim [] fun m =>
      (m.newStates T).flatMap fun i => if i ∉ s.initializedData then (T.state i).data else [] := by
  have hopens : ∀ {l}, Opens T s.toMicro l → dataCalls l = [] := by
    intro l hl
    refine dataCalls_eq_nil fun r hr => ?_
    cases hl with
    | nothing => simp at hr
    | internal => simp at hr
    | managed rest hrest =>
      rcases List.mem_append.mp hr with hr | hr
      · obtain ⟨i, -, hr⟩ := List.mem_flatMap.mp hr
        rw [manageCalls] at hr
        rcases List.mem_append.mp hr with hr | hr
        · split at hr <;> simp at hr
        · split at hr <;> simp at hr
      · rcases hrest with rfl | rfl | ⟨event, rfl⟩ <;> simp at hr
  cases h with
  | finished hnone =>
    rw [hnone]
    rfl
  | completion hnone =>
    rw [hnone]
    refine dataCalls_eq_nil fun r hr => ?_
    simp only [List.mem_cons, List.mem_append, List.mem_flatMap, completeCalls, reduceCtorEq, List.not_mem_nil, or_false,
      false_or] at hr
    obtain ⟨i, -, hr | hr⟩ := hr
    · split at hr <;> simp at hr
    · split at hr <;> simp at hr
  | microstep m hm l issue hl hissue =>
    have hdrop : dataCalls issue = [] := by
      rcases hissue with rfl | rfl <;> rfl
    have hcons : ∀ l', dataCalls (.beforeMicroStep :: l') = dataCalls l' := fun _ => rfl
    rw [hm, dataCalls_append, hopens hl, hcons, dataCalls_append, hdrop, dataCalls_microstep]
    simp
  | stays hnone l rest hl hrest =>
    have hdrop : dataCalls rest = [] := by
      rcases hrest with rfl | rfl <;> rfl
    rw [hnone, dataCalls_append, hopens hl, hdrop]
    rfl

theorem step_dataOnce (hT : OwnData T) (hpair : T.states.Pairwise (· < ·)) {s : St ω} (h : DataOnce T s) :
    DataOnce T (step T cb s).2 := by
  obtain ⟨l, hcalls, htraces⟩ := step_calls T cb hpair s
  have hdata := dataCalls_traces T cb htraces
  have hmarks := step_initializedData T cb s
  cases hm : microstepOf T cb s with
  | none =>
    rw [hm] at hdata hmarks
    have heq : dataCalls (step T cb s).2.calls = dataCalls s.calls := by
      rw [hcalls, dataCalls_append, hdata]
      exact List.append_nil _
    refine ⟨heq ▸ h.nodup, ?_⟩
    rw [heq, hmarks]
    exact h.marked
  | some m =>
    rw [hm, Option.elim_some] at hdata hmarks
    have hnew : (m.newStates T).Nodup := (hpair.imp fun h => ne_of_lt h).filter _
    -- What is new belongs to states that were not marked.
    have hfresh : ∀ r ∈ dataCalls l, ∃ i ∈ m.newStates T, i ∉ s.initializedData ∧ r ∈ (T.state i).data := by
      intro r hr
      rw [hdata] at hr
      obtain ⟨i, hi, hr⟩ := List.mem_flatMap.mp hr
      split at hr
      · exact ⟨i, hi, by assumption, hr⟩
      · simp at hr
    refine ⟨?_, ?_⟩
    · rw [hcalls, dataCalls_append, List.nodup_append']
      refine ⟨h.nodup, ?_, ?_⟩
      · rw [hdata, List.nodup_flatMap]
        refine ⟨fun i _ => ?_, hnew.imp ?_⟩
        · split
          · exact hT.nodup i
          · exact List.nodup_nil
        · intro i j hne r hi hj
          beta_reduce at hi hj
          split at hi
          · split at hj
            · exact hne (hT.owner i j r hi hj)
            · simp at hj
          · simp at hi
      · intro r hr hr'
        obtain ⟨i, hi, hdatum⟩ := h.marked r hr
        obtain ⟨j, -, hj, hdatum'⟩ := hfresh r hr'
        exact hj (hT.owner i j r hdatum hdatum' ▸ hi)
    · intro r hr
      rw [hmarks]
      rw [hcalls, dataCalls_append] at hr
      rcases List.mem_append.mp hr with hr | hr
      · obtain ⟨i, hi, hdatum⟩ := h.marked r hr
        exact ⟨i, Finset.mem_union_left _ hi, hdatum⟩
      · obtain ⟨i, hi, -, hdatum⟩ := hfresh r hr
        exact ⟨i, Finset.mem_union_right _ (List.mem_toFinset.mpr hi), hdatum⟩

theorem Reachable.dataOnce (hT : OwnData T) (hpair : T.states.Pairwise (· < ·)) {s : St ω} (hs : Reachable T cb s) :
    DataOnce T s := by
  induction hs with
  | init w => exact ⟨List.nodup_nil, by simp [dataCalls]⟩
  | step _ ih => exact step_dataOnce T cb hT hpair ih
  | environment w _ ih => exact ⟨ih.nodup, ih.marked⟩
  | cancel _ ih => exact ⟨ih.nodup, ih.marked⟩

/-! ### Order -/

/-- The states of a run that goes on from `s`. -/
inductive Follows (s : St ω) : St ω → Prop where
  | refl : Follows s s
  | step {s' : St ω} : Follows s s' → Follows s (step T cb s').2
  | environment {s' : St ω} (w : ω) : Follows s s' → Follows s { s' with env := w }
  | cancel {s' : St ω} : Follows s s' → Follows s (markAsCancelled s')

/-- What monitors see of the microstep `m` that leads from `C` to `C'` among the calls of a step. -/
def Ordered (m : Microstep) (C C' : Finset TreePath) (calls : List Call) : Prop :=
  ∃ (opening closing : List Call) (exited entered : List TreePath) (taken : List TransId),
    monitorCalls calls = opening ++ .beforeMicroStep :: (exited.flatMap exitPair ++ taken.flatMap transitionPair ++
      entered.flatMap (enterPair T (m.entry T).transSet) ++ .afterMicroStep C' :: closing) ∧
    (∀ c ∈ opening, ∃ event, c = .beforeProcessingEvent event) ∧ (∀ c ∈ closing, c = .reportIssue) ∧
    exited.Pairwise (· > ·) ∧ (∀ i, i ∈ exited ↔ (∃ t ∈ m.transSet, i ∈ (T.trans t).exitSet) ∧ i ∈ C) ∧
    taken.Pairwise Before ∧ (∀ t, t ∈ taken ↔ t ∈ m.transSet) ∧
    entered.Pairwise (· < ·) ∧
    (∀ i, i ∈ entered ↔
      i ∈ T.states ∧ i ∈ (m.entry T).entrySet ∧ (T.state i).type.pseudo = false ∧ i ∉ C \ exited.toFinset) ∧
    C' = C \ exited.toFinset ∪ entered.toFinset

variable {T}

theorem takenTransitions_mem (hT : MarksPseudo T) {m : Microstep} {C : Finset TreePath} (h : m.Selects (T := T) C)
    (t : TransId) : t ∈ takenTransitions T (m.entry T).transSet ↔ t ∈ m.transSet := by
  rw [takenTransitions, List.mem_filter, Bool.and_eq_true, decide_eq_true_eq, Bool.not_eq_true']
  constructor
  · intro ht
    exact (mem_establishEntrySet_transSet hT ht.2.2).mp ht.2.1
  · intro ht
    have hproper := h.proper t ht
    exact ⟨h.active t ht, (mem_establishEntrySet_transSet hT hproper).mpr ht, hproper⟩

theorem exitedStates_mem {m : Microstep} {C : Finset TreePath} (h : m.Selects (T := T) C) (hC : ∀ i ∈ C, i ∈ T.states)
    (i : TreePath) :
    i ∈ exitedStates T m.exitSet C ↔ (∃ t ∈ m.transSet, i ∈ (T.trans t).exitSet) ∧ i ∈ C := by
  rw [exitedStates, List.mem_filter, decide_eq_true_eq, h.exit, List.mem_reverse]
  constructor
  · exact fun hi => ⟨hi.2.1.1, hi.2.2⟩
  · exact fun hi => ⟨hC i hi.2, ⟨hi.1, hi.2⟩, hi.2⟩

/-- Of a legal exit set the states that stay are the active ones that are not left. -/
theorem remaining_eq {m : Microstep} {C : Finset TreePath} (h : m.Selects (T := T) C) (hC : ∀ i ∈ C, i ∈ T.states) :
    remaining T m.exitSet C = C \ (exitedStates T m.exitSet C).toFinset := by
  ext i
  rw [remaining, Finset.mem_sdiff, Finset.mem_sdiff, Finset.mem_inter, List.mem_toFinset, List.mem_toFinset,
    exitedStates_mem h hC, h.exit]
  constructor
  · exact fun hi => ⟨hi.1, fun hx => hi.2 ⟨hx, hC i hi.1⟩⟩
  · exact fun hi => ⟨hi.1, fun hx => hi.2 hx.1⟩

theorem ordered_microstep {d : Document β} {s : St ω} (hs : Reachable (init d) cb s) {m : Microstep}
    (hm : microstepOf (init d) cb s = some m) {l : List Call} (hl : Traces (init d) cb s l) :
    Ordered (init d) m s.configuration (m.next (init d)) l := by
  have hconf := microstepOf_configuration _ cb hm
  have hselects := microstepOf_selects cb hm
  have hstates := hs.configuration_subset _ _
  have hmarks : MarksPseudo (init d) := marksPseudo_tables (resortStates d)
  have hpair : (init d).states.Pairwise (· < ·) := (resortStates d).tree.preorder_pairwise
  cases hl with
  | finished hnone => simp [hnone] at hm
  | completion hnone => simp [hnone] at hm
  | stays hnone => simp [hnone] at hm
  | microstep m' hm' opening issue hopening hissue =>
    obtain rfl : m' = m := by
      rw [hm, Option.some.injEq] at hm'
      exact hm'.symm
    refine ⟨monitorCalls opening, monitorCalls issue, exitedStates (init d) m'.exitSet s.configuration,
      m'.newStates (init d), takenTransitions (init d) (m'.entry (init d)).transSet, ?_, monitorCalls_opens _ hopening, ?_,
      ?_, exitedStates_mem hselects hstates, ?_, takenTransitions_mem hmarks hselects, ?_, ?_, ?_⟩
    · have hcons : ∀ l', monitorCalls (.beforeMicroStep :: l') = .beforeMicroStep :: monitorCalls l' := fun _ => rfl
      rw [monitorCalls_append, hcons, monitorCalls_append, monitorCalls_microstep, hconf]
      simp
    · intro c hc
      rcases hissue with rfl | rfl
      · simp [monitorCalls] at hc
      · exact List.mem_singleton.mp hc
    · exact (List.pairwise_reverse.mpr hpair).filter _
    · exact (postFixTransitions_pairwise (d := resortStates d)).filter _
    · rw [Microstep.newStates, newStates, enteredStates, entered]
      exact hpair.filter _
    · intro i
      rw [← remaining_eq hselects hstates, Microstep.newStates, newStates, enteredStates, mem_entered, hconf]
      constructor
      · exact fun hi => ⟨hi.1, by rw [Microstep.entry, hconf]; exact hi.2.1, hi.2.2.2, hi.2.2.1⟩
      · exact fun hi => ⟨hi.1, by rw [Microstep.entry, hconf] at hi; exact hi.2.1, hi.2.2.2, hi.2.2.1⟩
    · rw [← remaining_eq hselects hstates, Microstep.next, nextConfiguration, Microstep.newStates, hconf]

theorem step_of_finished {s : St ω} (h : s.flags.finished = true) : step T cb s = (.returned .finished, s) := by
  rw [step, if_pos h]

theorem Follows.finished {s s' : St ω} (h : Follows T cb s s') (hf : s.flags.finished = true) :
    s'.flags.finished = true ∧ s'.calls = s.calls := by
  induction h with
  | refl => exact ⟨hf, rfl⟩
  | step _ ih => rwa [step_of_finished cb ih.1]
  | environment w _ ih => exact ih
  | cancel _ ih => exact ih

variable (T)

/-- What monitors see of every step of every run. -/
theorem microsteps_ordered {d : Document β} {s : St ω} (hs : Reachable (init d) cb s) :
    (∀ m ∈ microstepOf (init d) cb s, ∃ l, (step (init d) cb s).2.calls = s.calls ++ l ∧
      Ordered (init d) m s.configuration (step (init d) cb s).2.configuration l) ∧
    (dataCalls (step (init d) cb s).2.calls).Nodup ∧
    ((step (init d) cb s).1 = .returned .finished → ∀ s', Follows (init d) cb (step (init d) cb s).2 s' →
      s'.calls = (step (init d) cb s).2.calls ∧ (step (init d) cb s').1 = .returned .finished) := by
  have hpair : (init d).states.Pairwise (· < ·) := (resortStates d).tree.preorder_pairwise
  refine ⟨?_, (hs.step.dataOnce _ _ (ownData_tables (resortStates d)) hpair).nodup, ?_⟩
  · intro m hm
    obtain ⟨l, hcalls, htraces⟩ := step_calls (init d) cb hpair s
    refine ⟨l, hcalls, ?_⟩
    have hnext : (step (init d) cb s).2.configuration = m.next (init d) := by
      have hmoves := step_moves (init d) cb s
      cases hmoves with
      | stays hnone => simp [hnone] at hm
      | starts m' hsome _ _ hconf =>
        rw [hsome, Option.mem_some_iff] at hm
        rw [hconf, hm]
      | takes m' hsome _ _ _ _ _ _ _ hconf =>
        rw [hsome, Option.mem_some_iff] at hm
        rw [hconf, hm]
    rw [hnext]
    exact ordered_microstep cb hs hm htraces
  · intro hresult s' hfollows
    have hfin : (step (init d) cb s).2.flags.finished = true := by
      rcases step_finished _ _ hresult with ⟨hf, heq⟩ | heq
      · rw [heq, hf]
      · rw [heq, complete_toMicro]
    obtain ⟨hfin', hcalls⟩ := hfollows.finished cb hfin
    exact ⟨hcalls, by rw [step_of_finished cb hfin']⟩

/-- A microstep that leaves a state and enters it again. -/
theorem microsteps_ordered_invokingState :
    (microstepOf (init invokingState) externalEvents (invokingRun ["again"] 3)).isSome = true ∧
      ∀ m ∈ microstepOf (init invokingState) externalEvents (invokingRun ["again"] 3), ∃ l,
        (step (init invokingState) externalEvents (invokingRun ["again"] 3)).2.calls =
          (invokingRun ["again"] 3).calls ++ l ∧
        Ordered (init invokingState) m (invokingRun ["again"] 3).configuration
          (step (init invokingState) externalEvents (invokingRun ["again"] 3)).2.configuration l :=
  ⟨by decide +kernel, (microsteps_ordered externalEvents ((Reachable.init _).steps _ _ 3)).1⟩

end FastMicroStep

end Uscxml
