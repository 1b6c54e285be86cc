import Uscxml.FastMicroStep.Effects

/-!
# The calls of a step

The order of the calls out of the microstepper. What a block calls depends on the tables and on the members of
the microstepper, never on the answers it gets; so the calls of a microstep are a list that can be written down
before it is taken.
-/

namespace Uscxml

namespace FastMicroStep

variable {ω : Type} (T : Tables) (cb : Callbacks ω)

/-! ### The calls of the blocks -/

def exitCalls (i : TreePath) : List Call :=
  .beforeExitingState i :: ((T.state i).onExit.map .process ++ [.afterExitingState i])

def transitionCalls (i : TransId) : List Call :=
  .beforeTakingTransition i :: ((T.trans i).onTrans.toList.map .process ++ [.afterTakingTransition i])

/-- The parallels for which `raiseParallels` raises a done event. -/
def doneParallels (configuration : Finset TreePath) : Nat → TreePath → List TreePath
  | 0, _ => []
  | n + 1, pFinalParent =>
    let nFinalParent := (T.state pFinalParent).parent
    if (T.state nFinalParent).type = .parallel then
      (if leftOver T configuration nFinalParent = ∅ then [nFinalParent] else []) ++
        doneParallels configuration n nFinalParent
    else []

/-- The states for which a done event is raised when the final state `i` is entered. -/
def doneStates (configuration : Finset TreePath) (i : TreePath) : List TreePath :=
  if (T.state i).ancestors.card = 1 ∧ [] ∈ (T.state i).ancestors then []
  else
    (T.state i).parent ::
      doneParallels T configuration (T.state (T.state i).parent).ancestors.card (T.state i).parent

/-- The calls when `i` is entered: `fresh` says that its data was not initialised before, and the configuration
is that with `i` in it. -/
def enterCalls (transSet : Finset TransId) (fresh : Bool) (configuration : Finset TreePath) (i : TreePath) : List Call :=
  .beforeEnteringState i :: ((if fresh then (T.state i).data.map .initData else []) ++
    ((T.state i).onEntry.map .process ++ (.afterEnteringState i ::
      ((pseudoTransitions T transSet i).flatMap (transitionCalls T) ++
        if (T.state i).type = .final then (doneStates T configuration i).map .raiseDoneEvent else []))))

/-! ### The log -/

theorem each_calls {f : Ref → St ω → St ω} {c : Ref → Call} (hf : ∀ r s, (f r s).calls = s.calls ++ [c r]) (l : List Ref)
    (s : St ω) : (each f l s).calls = s.calls ++ l.map c := by
  induction l generalizing s with
  | nil => simp [each]
  | cons r l ih =>
    have hcons : each f (r :: l) s = each f l (f r s) := rfl
    rw [hcons, ih, hf, List.map_cons, List.append_assoc]
    rfl

@[simp] theorem each_process_calls (l : List Ref) (s : St ω) :
    (each (process cb) l s).calls = s.calls ++ l.map .process := each_calls (fun _ _ => rfl) l s

@[simp] theorem each_initData_calls (l : List Ref) (s : St ω) :
    (each (initData cb) l s).calls = s.calls ++ l.map .initData := each_calls (fun _ _ => rfl) l s

@[simp] theorem each_invoke_calls (l : List Ref) (s : St ω) :
    (each (invoke cb) l s).calls = s.calls ++ l.map .invoke := each_calls (fun _ _ => rfl) l s

@[simp] theorem each_uninvoke_calls (l : List Ref) (s : St ω) :
    (each (uninvoke cb) l s).calls = s.calls ++ l.map .uninvoke := each_calls (fun _ _ => rfl) l s

@[simp] theorem takeTransition_calls (i : TransId) (s : St ω) :
    (takeTransition T cb i s).calls = s.calls ++ transitionCalls T i := by
  simp [takeTransition, transitionCalls]

theorem foldl_takeTransition_calls (l : List TransId) (s : St ω) :
    (l.foldl (fun s i => takeTransition T cb i s) s).calls = s.calls ++ l.flatMap (transitionCalls T) := by
  induction l generalizing s with
  | nil => simp
  | cons i l ih => rw [List.foldl_cons, ih, takeTransition_calls, List.flatMap_cons, List.append_assoc]

/-- The selected transitions in the order in which they are taken. -/
def takenTransitions (transSet : Finset TransId) : List TransId :=
  T.transitions.filter fun i => i ∈ transSet && !((T.trans i).history || (T.trans i).initial)

theorem takeTransitions_calls (transSet : Finset TransId) (s : St ω) :
    (takeTransitions T cb transSet s).calls =
      s.calls ++ (takenTransitions T transSet).flatMap (transitionCalls T) :=
  foldl_takeTransition_calls T cb _ s

/-- The states that are left, in the order in which they are left. -/
def exitedStates (X C : Finset TreePath) : List TreePath := T.states.reverse.filter fun i => i ∈ X ∧ i ∈ C

theorem foldl_exitState_calls (X : Finset TreePath) {l : List TreePath} (hl : l.Nodup) (s : St ω) :
    (l.foldl (exitState T cb X) s).calls =
      s.calls ++ (l.filter fun i => i ∈ X ∧ i ∈ s.configuration).flatMap (exitCalls T) := by
  induction l generalizing s with
  | nil => simp
  | cons i l ih =>
    rw [List.nodup_cons] at hl
    have hconf : (exitState T cb X s i).configuration =
        if i ∈ X then s.configuration.erase i else s.configuration := by
      simp [exitState_toMicro]
    -- The rest of the list does not mention the state that was just left.
    have hrest : (l.filter fun j => j ∈ X ∧ j ∈ (exitState T cb X s i).configuration) =
        l.filter fun j => j ∈ X ∧ j ∈ s.configuration := by
      refine List.filter_congr ?_
      intro j hj
      have hne : j ≠ i := fun h => hl.1 (h ▸ hj)
      rw [hconf]
      split
      · simp [hne]
      · rfl
    rw [List.foldl_cons, ih hl.2, hrest, List.filter_cons, exitState]
    by_cases h : i ∈ X ∧ i ∈ s.configuration
    · rw [if_pos h, if_pos (by simpa using h), List.flatMap_cons]
      simp [exitCalls]
    · rw [if_neg h, if_neg (by simpa using h)]

theorem exitStates_calls (hT : T.states.Nodup) (X : Finset TreePath) (s : St ω) :
    (exitStates T cb X s).calls = s.calls ++ (exitedStates T X s.configuration).flatMap (exitCalls T) :=
  foldl_exitState_calls T cb X (List.nodup_reverse.mpr hT) s

theorem raiseParallels_calls (n : Nat) (p : TreePath) (s : St ω) :
    (raiseParallels T cb n p s).calls = s.calls ++ (doneParallels T s.configuration n p).map .raiseDoneEvent := by
  induction n generalizing p s with
  | zero => simp [raiseParallels, doneParallels]
  | succ n ih =>
    simp only [raiseParallels, doneParallels]
    split
    · rw [ih]
      split
      · simp [raiseDoneEvent]
      · simp
    · simp

theorem handleFinal_calls (i : TreePath) (s : St ω) :
    (handleFinal T cb i s).calls = s.calls ++ (doneStates T s.configuration i).map .raiseDoneEvent := by
  rw [handleFinal, doneStates]
  split
  · simp
  · simp [raiseParallels_calls, raiseDoneEvent]

theorem enterState_calls {e : Entry} {s : St ω} {i : TreePath} (h : enters T e.entrySet s.configuration i) :
    (enterState T cb e s i).calls =
      s.calls ++ enterCalls T e.transSet (decide (i ∉ s.initializedData)) (insert i s.configuration) i := by
  have hconf : ∀ (l : List TransId) (s : St ω),
      (l.foldl (fun s j => takeTransition T cb j s) s).toMicro = s.toMicro :=
    fun l s => List.foldl_frame St.toMicro (fun s j _ => takeTransition_toMicro T cb j s) s
  obtain ⟨hE, hC, hproper⟩ := h
  rw [enterState, if_pos ⟨hE, hC, hproper⟩]
  by_cases hinit : i ∈ s.initializedData
  · by_cases hfinal : (T.state i).type = .final
    · simp [hinit, hfinal, handleFinal_calls, foldl_takeTransition_calls, enterCalls, hconf]
    · simp [hinit, hfinal, foldl_takeTransition_calls, enterCalls]
  · by_cases hfinal : (T.state i).type = .final
    · simp [hinit, hfinal, handleFinal_calls, foldl_takeTransition_calls, enterCalls, hconf]
    · simp [hinit, hfinal, foldl_takeTransition_calls, enterCalls]

/-- The configuration in which the entered state `i` finds itself: what stays active and the entered states up to
`i`. -/
def configurationAt (C : Finset TreePath) (l : List TreePath) (i : TreePath) : Finset TreePath :=
  C ∪ (l.filter (· ≤ i)).toFinset

theorem entered_cons {E C : Finset TreePath} {i : TreePath} {l : List TreePath} (hi : i ∉ l) (h : enters T E C i) :
    entered T E C (i :: l) = i :: entered T E (insert i C) l := by
  have hrest : (l.filter fun j => enters T E (insert i C) j) = l.filter fun j => enters T E C j := by
    refine List.filter_congr ?_
    intro j hj
    have hne : j ≠ i := fun h => hi (h ▸ hj)
    rw [decide_eq_decide]
    simp [enters, hne]
  rw [entered, List.filter_cons, if_pos (by simpa using h), entered, hrest]

theorem foldl_enterState_calls (e : Entry) {l : List TreePath} (hl : l.Pairwise (· < ·)) (s : St ω) :
    (l.foldl (enterState T cb e) s).calls =
      s.calls ++ (entered T e.entrySet s.configuration l).flatMap fun i =>
        enterCalls T e.transSet (decide (i ∉ s.initializedData))
          (configurationAt s.configuration (entered T e.entrySet s.configuration l) i) i := by
  induction l generalizing s with
  | nil => simp [entered]
  | cons i l ih =>
    rw [List.pairwise_cons] at hl
    rw [List.foldl_cons, ih hl.2]
    by_cases h : enters T e.entrySet s.configuration i
    · have hi : i ∉ l := fun hm => lt_irrefl i (hl.1 i hm)
      have hmicro := enterState_toMicro_of_enters T cb h
      have hconf : (enterState T cb e s i).configuration = insert i s.configuration := by rw [hmicro]
      have hinit : (enterState T cb e s i).initializedData = insert i s.initializedData := by rw [hmicro]
      rw [enterState_calls T cb h, entered_cons T hi h, hconf, hinit, List.flatMap_cons, List.append_assoc]
      have hsub : ∀ j ∈ entered T e.entrySet (insert i s.configuration) l, i < j :=
        fun j hj => hl.1 j ((mem_entered T).mp hj).1
      generalize entered T e.entrySet (insert i s.configuration) l = l' at hsub
      have hhead : configurationAt s.configuration (i :: l') i = insert i s.configuration := by
        have hnil : l'.filter (· ≤ i) = [] := by
          rw [List.filter_eq_nil_iff]
          intro j hj
          simpa using hsub j hj
        rw [configurationAt, List.filter_cons, if_pos (by simp), hnil]
        ext p
        simp
      have htail : ∀ j ∈ l', configurationAt (insert i s.configuration) l' j =
          configurationAt s.configuration (i :: l') j := by
        intro j hj
        rw [configurationAt, configurationAt, List.filter_cons, if_pos (by simpa using (hsub j hj).le)]
        ext p
        simp
      rw [hhead]
      congr 2
      refine List.flatMap_congr ?_
      intro j hj
      rw [htail j hj]
      congr 1
      have hne : j ≠ i := ne_of_gt (hsub j hj)
      simp [hne]
    · rw [enterState_of_not_enters T cb h, entered_cons_of_not_enters T h]

/-! ### The calls of a microstep -/

def Microstep.newStates (m : Microstep) : List TreePath :=
  FastMicroStep.newStates T m.targetSet m.exitSet m.transSet m.configuration m.history

/-- The configuration when a microstep has just entered `i`. -/
def Microstep.configurationAt (m : Microstep) (i : TreePath) : Finset TreePath :=
  FastMicroStep.configurationAt (remaining T m.exitSet m.configuration) (m.newStates T) i

/-- The calls of a microstep, with the states whose data was initialised before. -/
def Microstep.calls (m : Microstep) (initializedData : Finset TreePath) : List Call :=
  (exitedStates T m.exitSet m.configuration).flatMap (exitCalls T) ++
    (takenTransitions T (m.entry T).transSet).flatMap (transitionCalls T) ++
    (m.newStates T).flatMap (fun i =>
      enterCalls T (m.entry T).transSet (decide (i ∉ initializedData)) (m.configurationAt T i) i) ++
    [.afterMicroStep (m.next T)]

theorem microstep_calls (hT : T.states.Pairwise (· < ·)) (targetSet X : Finset TreePath) (transSet : Finset TransId)
    (s : St ω) :
    (microstep T cb targetSet X transSet s).calls =
      s.calls ++ (Microstep.calls T ⟨s.configuration, s.history, targetSet, X, transSet⟩ s.initializedData ++
        if nextConfiguration T targetSet X transSet s.configuration s.history ∈ s.microstepConfigurations then
          [.reportIssue] else []) := by
  have hnodup : T.states.Nodup := hT.imp fun h => ne_of_lt h
  have hcalls := foldl_enterState_calls T cb (establishEntrySet T s.configuration X s.history targetSet transSet) hT
    (takeTransitions T cb (establishEntrySet T s.configuration X s.history targetSet transSet).transSet
      (exitStates T cb X s))
  rw [takeTransitions_calls, exitStates_calls T cb hnodup] at hcalls
  simp only [takeTransitions_toMicro, exitStates_toMicro] at hcalls
  simp only [microstep, enterStates, emit_toMicro, foldl_enterState_toMicro, takeTransitions_toMicro,
    exitStates_toMicro]
  change (if nextConfiguration T targetSet X transSet s.configuration s.history ∈ s.microstepConfigurations then
    emit .reportIssue _ else _).calls = _
  split
  · rw [emit_calls, emit_calls, hcalls]
    simp [Microstep.calls, Microstep.entry, Microstep.next, Microstep.newStates, Microstep.configurationAt, newStates,
      enteredStates, entrySet, remaining, nextConfiguration]
  · rw [emit_calls, hcalls]
    simp [Microstep.calls, Microstep.entry, Microstep.next, Microstep.newStates, Microstep.configurationAt, newStates,
      enteredStates, entrySet, remaining, nextConfiguration]

/-! ### The calls around a microstep -/

def manageCalls (C I : Finset TreePath) (i : TreePath) : List Call :=
  (if i ∉ C ∧ i ∈ I then (T.state i).invoke.map .uninvoke else []) ++
    if i ∈ C ∧ i ∉ I then (T.state i).invoke.map .invoke else []

theorem manageInvocation_calls (s : St ω) (i : TreePath) :
    (manageInvocation T cb s i).calls = s.calls ++ manageCalls T s.configuration s.invocations i := by
  by_cases hc : i ∈ s.configuration <;> by_cases hi : i ∈ s.invocations
  · simp [manageInvocation, manageCalls, hc, hi]
  · simp [manageInvocation, manageCalls, hc, hi]
  · simp [manageInvocation, manageCalls, hc, hi]
  · simp [manageInvocation, manageCalls, hc, hi]

theorem foldl_manageInvocation_calls {l : List TreePath} (hl : l.Nodup) (s : St ω) :
    (l.foldl (manageInvocation T cb) s).calls =
      s.calls ++ l.flatMap (manageCalls T s.configuration s.invocations) := by
  induction l generalizing s with
  | nil => simp
  | cons i l ih =>
    rw [List.nodup_cons] at hl
    rw [List.foldl_cons, ih hl.2, manageInvocation_calls, List.flatMap_cons, List.append_assoc,
      manageInvocation_toMicro]
    congr 2
    refine List.flatMap_congr ?_
    intro j hj
    have hne : j ≠ i := fun h => hl.1 (h ▸ hj)
    simp only [manageCalls]
    split <;> simp [hne]

theorem manageInvocations_calls (hT : T.states.Nodup) (s : St ω) :
    (manageInvocations T cb s).calls = s.calls ++ T.states.flatMap (manageCalls T s.configuration s.invocations) :=
  foldl_manageInvocation_calls T cb hT s

def completeCalls (C I : Finset TreePath) (i : TreePath) : List Call :=
  (if i ∈ C then (T.state i).onExit.map .process else []) ++ if i ∈ I then (T.state i).invoke.map .uninvoke else []

theorem completeState_calls (s : St ω) (i : TreePath) :
    (completeState T cb s i).calls = s.calls ++ completeCalls T s.configuration s.invocations i := by
  by_cases hc : i ∈ s.configuration <;> by_cases hi : i ∈ s.invocations
  · simp [completeState, completeCalls, hc, hi]
  · simp [completeState, completeCalls, hc, hi]
  · simp [completeState, completeCalls, hc, hi]
  · simp [completeState, completeCalls, hc, hi]

theorem foldl_completeState_calls {l : List TreePath} (hl : l.Nodup) (s : St ω) :
    (l.foldl (completeState T cb) s).calls =
      s.calls ++ l.flatMap (completeCalls T s.configuration s.invocations) := by
  induction l generalizing s with
  | nil => simp
  | cons i l ih =>
    rw [List.nodup_cons] at hl
    rw [List.foldl_cons, ih hl.2, completeState_calls, List.flatMap_cons, List.append_assoc, completeState_toMicro]
    congr 2
    refine List.flatMap_congr ?_
    intro j hj
    have hne : j ≠ i := fun h => hl.1 (h ▸ hj)
    simp [completeCalls, hne]

theorem complete_calls (hT : T.states.Nodup) (s : St ω) :
    (complete T cb s).calls =
      s.calls ++ .beforeCompletion ::
        (T.states.reverse.flatMap (completeCalls T s.configuration s.invocations) ++ [.afterCompletion]) := by
  simp only [complete, emit_calls, foldl_completeState_calls T cb (List.nodup_reverse.mpr hT), emit_toMicro,
    List.append_assoc]
  rfl

/-! ### The calls of a step -/

/-- The calls a step makes before it comes to select transitions, or before it returns. -/
inductive Opens (m : Micro) : List Call → Prop where
  | nothing : Opens m []
  | internal (event : Event) : Opens m [.beforeProcessingEvent event]
  | managed (rest : List Call)
      (hrest : rest = [] ∨ rest = [.dequeueExternal] ∨ ∃ event, rest = [.dequeueExternal, .beforeProcessingEvent event]) :
      Opens m (T.states.flatMap (manageCalls T m.configuration m.invocations) ++ rest)

inductive Traces (s : St ω) : List Call → Prop where
  | finished (hnone : microstepOf T cb s = none) (hfinished : s.flags.finished = true) : Traces s []
  | completion (hnone : microstepOf T cb s = none) (hfinished : s.flags.finished = false)
      (hfinal : s.flags.topLevelFinal = true) :
      Traces s (.beforeCompletion ::
        (T.states.reverse.flatMap (completeCalls T s.configuration s.invocations) ++ [.afterCompletion]))
  | microstep (m : Microstep) (hm : microstepOf T cb s = some m) (l issue : List Call) (hl : Opens T s.toMicro l)
      (hissue : issue = [] ∨ issue = [.reportIssue]) :
      Traces s (l ++ .beforeMicroStep :: (m.calls T s.initializedData ++ issue))
  | stays (hnone : microstepOf T cb s = none) (l rest : List Call) (hl : Opens T s.toMicro l)
      (hrest : rest = [] ∨ rest = [.onStableConfiguration]) : Traces s (l ++ rest)

def Phase.Opened (s : St ω) : Phase ω → Prop
  | .finished | .completion | .start => True
  | .select s₀ | .stable s₀ | .thrown s₀ | .unblocked s₀ => ∃ l, Opens T s.toMicro l ∧ s₀.calls = s.calls ++ l

theorem phase_opened (hT : T.states.Nodup) (s : St ω) : (phase T cb s).Opened T s := by
  rw [phase]
  split
  · trivial
  split
  · trivial
  split
  · trivial
  split
  · exact ⟨[], .nothing, by simp⟩
  rcases cb.dequeueInternal s.env with ⟨event, w⟩
  simp only
  split
  · exact ⟨_, .internal event, rfl⟩
  · have hcalls := manageInvocations_calls T cb hT { s with event := event, env := w }
    generalize manageInvocations T cb { s with event := event, env := w } = s₁ at hcalls
    rw [phaseExternal]
    split
    · exact ⟨_, .managed [] (Or.inl rfl), by simpa using hcalls⟩
    rcases cb.dequeueExternal s₁.configuration s₁.env with ⟨_ | event, w⟩
    · exact ⟨_, .managed _ (Or.inr (Or.inl rfl)), by simp [dequeued, hcalls]⟩
    · simp only
      split
      · exact ⟨_, .managed _ (Or.inr (Or.inr ⟨event, rfl⟩)), by simp [processing, dequeued, hcalls]⟩
      · exact ⟨_, .managed _ (Or.inr (Or.inl rfl)), by simp [dequeued, hcalls]⟩

/-- The calls of a microstep that starts in a state with the given members. -/
theorem microstep_traces (hT : T.states.Pairwise (· < ·)) {s : St ω} (s₀ : St ω) {m : Microstep} {l : List Call}
    (hm : microstepOf T cb s = some m) (hl : Opens T s.toMicro l) (hcalls : s₀.calls = s.calls ++ l ++ [.beforeMicroStep])
    (hinit : s₀.initializedData = s.initializedData)
    (hs : m = ⟨s₀.configuration, s₀.history, m.targetSet, m.exitSet, m.transSet⟩) :
    ∃ l', (microstep T cb m.targetSet m.exitSet m.transSet s₀).calls = s.calls ++ l' ∧ Traces T cb s l' := by
  have hissue : ∀ (p : Prop) [Decidable p], (if p then [Call.reportIssue] else []) = [] ∨
      (if p then [Call.reportIssue] else []) = [.reportIssue] := by
    intro p _
    split
    · exact Or.inr rfl
    · exact Or.inl rfl
  rw [microstep_calls T cb hT, hcalls, hinit, ← hs, List.append_assoc, List.append_assoc]
  exact ⟨_, rfl, .microstep m hm l _ hl (hissue _)⟩

theorem step_calls (hT : T.states.Pairwise (· < ·)) (s : St ω) :
    ∃ l, (step T cb s).2.calls = s.calls ++ l ∧ Traces T cb s l := by
  have hnodup : T.states.Nodup := hT.imp fun h => ne_of_lt h
  have hreached := phase_reached T cb s
  have hopened := phase_opened T cb hnodup s
  rw [step_eq_phase]
  cases h : phase T cb s with
  | finished =>
    rw [h] at hreached
    exact ⟨[], by simp [Phase.finish], .finished (by simp only [microstepOf, h]) hreached⟩
  | completion =>
    rw [h] at hreached
    exact ⟨_, complete_calls T cb hnodup s, .completion (by simp only [microstepOf, h]) hreached.1 hreached.2⟩
  | start =>
    have hm : microstepOf T cb s = some ⟨s.configuration, s.history, (T.state []).completion, ∅, ∅⟩ := by
      simp only [microstepOf, h]
    have hmade := microstep_traces T cb hT (emit .beforeMicroStep
      { s with flags := { s.flags with spontaneous := true, initialized := true } }) hm .nothing (by simp) rfl rfl
    exact hmade
  | select s₀ =>
    rw [h] at hreached hopened
    obtain ⟨l, hl, hcalls⟩ := hopened
    obtain ⟨e, i, hmicro⟩ := hreached.micro
    have hinit : s₀.initializedData = s.initializedData := by rw [hmicro]
    generalize hsel : selectTransitions T cb s₀.configuration s₀.event s₀.env = sel
    have hm := microstepOf_select T cb h hsel
    rw [Phase.finish]
    cases hfound : sel.found with
    | true =>
      rw [selectAndStep_of_found T cb hsel hfound]
      rw [hfound, if_pos rfl] at hm
      have hmade := microstep_traces T cb hT (prepared T sel s₀) hm hl (by simp [prepared, hcalls]) hinit rfl
      exact hmade
    | false =>
      rw [selectAndStep_of_not_found T cb hsel hfound]
      rw [hfound, if_neg Bool.false_ne_true] at hm
      exact ⟨l ++ [], by simpa using hcalls, .stays hm l [] hl (Or.inl rfl)⟩
  | stable s₀ =>
    rw [h] at hopened
    obtain ⟨l, hl, hcalls⟩ := hopened
    exact ⟨_, by simp [Phase.finish, hcalls], .stays (by simp only [microstepOf, h]) l _ hl (Or.inr rfl)⟩
  | thrown s₀ =>
    rw [h] at hopened
    obtain ⟨l, hl, hcalls⟩ := hopened
    exact ⟨l ++ [], by simpa [Phase.finish] using hcalls, .stays (by simp only [microstepOf, h]) l [] hl (Or.inl rfl)⟩
  | unblocked s₀ =>
    rw [h] at hopened
    obtain ⟨l, hl, hcalls⟩ := hopened
    refine ⟨l ++ [], ?_, .stays (by simp only [microstepOf, h]) l [] hl (Or.inl rfl)⟩
    rw [Phase.finish, List.append_nil]
    split
    · exact hcalls
    · exact hcalls

end FastMicroStep

end Uscxml
