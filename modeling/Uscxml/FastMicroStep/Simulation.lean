import Uscxml.FastMicroStep.Effects

/-!
# Two environments side by side

The microstepper sees its environment through the answers of its callbacks only. When two environments are related
in a way that all callbacks keep, and the answers agree, two microsteppers with equal members do the same.
-/

namespace Uscxml

variable {ω ω' : Type}

/-- A pointer to a block that `process` is called with; the `<finalize>` of an `<invoke>` is none. -/
def Ref.isContent : Ref → Bool
  | .onEntry _ _ | .onExit _ _ | .script _ | .transition _ _ => true
  | _ => false

structure Tables.Contents (T : Tables) : Prop where
  onEntry : ∀ i, ∀ r ∈ (T.state i).onEntry, r.isContent = true
  onExit : ∀ i, ∀ r ∈ (T.state i).onExit, r.isContent = true
  onTrans : ∀ i, ∀ r ∈ (T.trans i).onTrans, r.isContent = true

theorem FastMicroStep.tables_contents {β : Type} (d : Document β) : (FastMicroStep.tables d).Contents where
  onEntry i r hr := by
    simp only [FastMicroStep.tables, FastMicroStep.stateInfo, FastMicroStep.refs] at hr
    split at hr <;> obtain ⟨k, -, rfl⟩ := List.mem_map.mp hr <;> rfl
  onExit i r hr := by
    obtain ⟨k, -, rfl⟩ := List.mem_map.mp hr
    rfl
  onTrans i r hr := by
    simp only [FastMicroStep.tables, FastMicroStep.transitionInfo] at hr
    split at hr
    · obtain rfl := Option.mem_some_iff.mp hr
      rfl
    · exact absurd hr (Option.not_mem_none r)

/-- The callbacks that answer or run content keep the relation. -/
structure Callbacks.Agree (cb : Callbacks ω) (cb' : Callbacks ω') (R : ω → ω' → Prop) : Prop where
  isMatched : ∀ event descriptor w w', R w w' →
    (cb.isMatched event descriptor w).1 = (cb'.isMatched event descriptor w').1 ∧
      R (cb.isMatched event descriptor w).2 (cb'.isMatched event descriptor w').2
  isTrue : ∀ C expr w w', R w w' →
    (cb.isTrue C expr w).1 = (cb'.isTrue C expr w').1 ∧ R (cb.isTrue C expr w).2 (cb'.isTrue C expr w').2
  raiseDoneEvent : ∀ C state doneData w w', R w w' →
    R (cb.raiseDoneEvent C state doneData w) (cb'.raiseDoneEvent C state doneData w')
  initData : ∀ C r w w', R w w' → R (cb.initData C r w) (cb'.initData C r w')
  process : ∀ C r w w', r.isContent = true → R w w' → R (cb.process C r w) (cb'.process C r w')

structure Callbacks.Simulates (cb : Callbacks ω) (cb' : Callbacks ω') (R : ω → ω' → Prop) : Prop
    extends cb.Agree cb' R where
  dequeueInternal : ∀ w w', R w w' →
    (cb.dequeueInternal w).1 = (cb'.dequeueInternal w').1 ∧ R (cb.dequeueInternal w).2 (cb'.dequeueInternal w').2
  dequeueExternal : ∀ C w w', R w w' →
    (cb.dequeueExternal C w).1 = (cb'.dequeueExternal C w').1 ∧ R (cb.dequeueExternal C w).2 (cb'.dequeueExternal C w').2
  invoke : ∀ C r w w', R w w' → R (cb.invoke C r w) (cb'.invoke C r w')
  uninvoke : ∀ C r w w', R w w' → R (cb.uninvoke C r w) (cb'.uninvoke C r w')

namespace FastMicroStep

def warn {ω : Type} (s : St ω) : St ω := if s.configuration ∈ s.microstepConfigurations then emit .reportIssue s else s

def concludes {ω : Type} (s : St ω) : St ω :=
  let s := warn (emit (.afterMicroStep s.configuration) s)
  { s with microstepConfigurations := insert s.configuration s.microstepConfigurations }

theorem microstep_eq_concludes {ω : Type} (T : Tables) (cb : Callbacks ω) (targetSet X : Finset TreePath)
    (transSet : Finset TransId) (s : St ω) :
    microstep T cb targetSet X transSet s =
      concludes (enterStates T cb (establishEntrySet T s.configuration X s.history targetSet transSet)
        (takeTransitions T cb (establishEntrySet T s.configuration X s.history targetSet transSet).transSet
          (exitStates T cb X s))) := rfl

/-- Equal members but for `_event`, which a step sets before it reads it, related environments, and the same calls
since `p` and `p'`. -/
structure Related (R : ω → ω' → Prop) (p p' : List Call) (s : St ω) (s' : St ω') : Prop where
  micro : s.toMicro = { s'.toMicro with event := s.event }
  env : R s.env s'.env
  calls : ∃ l, s.calls = p ++ l ∧ s'.calls = p' ++ l

section

variable {T : Tables} {cb : Callbacks ω} {cb' : Callbacks ω'} {R : ω → ω' → Prop} {p p' : List Call}

theorem Related.update {s : St ω} {s' : St ω'} (h : Related R p p' s s') (f : Micro → Micro)
    (hf : ∀ m event, f { m with event := event } = { f m with event := event }) :
    Related R p p' { s with toMicro := f s.toMicro } { s' with toMicro := f s'.toMicro } := by
  refine ⟨?_, h.env, h.calls⟩
  have hmicro : f s.toMicro = { f s'.toMicro with event := s.event } := by
    rw [h.micro]
    exact hf s'.toMicro s.event
  show f s.toMicro = { f s'.toMicro with event := (f s.toMicro).event }
  rw [hmicro]

theorem Related.setEvent {s : St ω} {s' : St ω'} (h : Related R p p' s s') (event : Event) :
    Related R p p' { s with event := event } { s' with event := event } := by
  refine ⟨?_, h.env, h.calls⟩
  show { s.toMicro with event := event } = { s'.toMicro with event := event }
  rw [h.micro]

theorem Related.emit {s : St ω} {s' : St ω'} (h : Related R p p' s s') (c : Call) :
    Related R p p' (emit c s) (emit c s') := by
  obtain ⟨l, hl, hl'⟩ := h.calls
  exact ⟨h.micro, h.env, l ++ [c], by simp [hl], by simp [hl']⟩

theorem Related.withEnv {s : St ω} {s' : St ω'} (h : Related R p p' s s') {w : ω} {w' : ω'} (hw : R w w') :
    Related R p p' { s with env := w } { s' with env := w' } := ⟨h.micro, hw, h.calls⟩

theorem Related.configuration {s : St ω} {s' : St ω'} (h : Related R p p' s s') : s.configuration = s'.configuration := by
  rw [h.micro]

theorem Related.invocations {s : St ω} {s' : St ω'} (h : Related R p p' s s') : s.invocations = s'.invocations := by
  rw [h.micro]

theorem Related.flags {s : St ω} {s' : St ω'} (h : Related R p p' s s') : s.flags = s'.flags := by
  rw [h.micro]

/-! ### Calls -/

theorem Related.process (hcb : cb.Agree cb' R) {s : St ω} {s' : St ω'} (h : Related R p p' s s') (r : Ref)
    (hr : r.isContent = true) : Related R p p' (process cb r s) (process cb' r s') :=
  (h.emit _).withEnv (h.configuration ▸ hcb.process s.configuration r _ _ hr h.env)

theorem Related.initData (hcb : cb.Agree cb' R) {s : St ω} {s' : St ω'} (h : Related R p p' s s') (r : Ref) :
    Related R p p' (initData cb r s) (initData cb' r s') :=
  (h.emit _).withEnv (h.configuration ▸ hcb.initData s.configuration r _ _ h.env)

theorem Related.raiseDoneEvent (hcb : cb.Agree cb' R) {s : St ω} {s' : St ω'} (h : Related R p p' s s') (i : TreePath)
    (doneData : Option Ref) : Related R p p' (raiseDoneEvent cb i doneData s) (raiseDoneEvent cb' i doneData s') :=
  (h.emit _).withEnv (h.configuration ▸ hcb.raiseDoneEvent s.configuration i doneData _ _ h.env)

theorem Related.invoke (hcb : cb.Simulates cb' R) {s : St ω} {s' : St ω'} (h : Related R p p' s s') (r : Ref) :
    Related R p p' (invoke cb r s) (invoke cb' r s') :=
  (h.emit _).withEnv (h.configuration ▸ hcb.invoke s.configuration r _ _ h.env)

theorem Related.uninvoke (hcb : cb.Simulates cb' R) {s : St ω} {s' : St ω'} (h : Related R p p' s s') (r : Ref) :
    Related R p p' (uninvoke cb r s) (uninvoke cb' r s') :=
  (h.emit _).withEnv (h.configuration ▸ hcb.uninvoke s.configuration r _ _ h.env)

theorem Related.each {f : Ref → St ω → St ω} {f' : Ref → St ω' → St ω'}
    {l : List Ref} (hf : ∀ r ∈ l, ∀ s s', Related R p p' s s' → Related R p p' (f r s) (f' r s')) {s : St ω} {s' : St ω'}
    (h : Related R p p' s s') : Related R p p' (each f l s) (each f' l s') :=
  List.foldl_rel h fun r hr s s' h => hf r hr s s' h

/-! ### The microstep -/

theorem Related.takeTransition (hT : T.Contents) (hcb : cb.Agree cb' R) {s : St ω} {s' : St ω'} (h : Related R p p' s s') (i : TransId) :
    Related R p p' (takeTransition T cb i s) (takeTransition T cb' i s') :=
  ((h.emit _).each fun r hr _ _ h => h.process hcb r (hT.onTrans i r (Option.mem_toList.mp hr))).emit _

theorem Related.takeTransitions (hT : T.Contents) (hcb : cb.Agree cb' R) {s : St ω} {s' : St ω'} (h : Related R p p' s s')
    (transSet : Finset TransId) : Related R p p' (takeTransitions T cb transSet s) (takeTransitions T cb' transSet s') :=
  List.foldl_rel h fun i _ _ _ h => h.takeTransition hT hcb i

theorem Related.exitState (hT : T.Contents) (hcb : cb.Agree cb' R) {s : St ω} {s' : St ω'} (h : Related R p p' s s') (X : Finset TreePath)
    (i : TreePath) : Related R p p' (exitState T cb X s i) (exitState T cb' X s' i) := by
  rw [FastMicroStep.exitState, FastMicroStep.exitState, h.configuration]
  split
  · have hcontent := (h.emit (.beforeExitingState i)).each fun r hr _ _ h => h.process hcb r (hT.onExit i r hr)
    exact (hcontent.update (fun m => { m with configuration := m.configuration.erase i }) fun _ _ => rfl).emit _
  · exact h

theorem Related.exitStates (hT : T.Contents) (hcb : cb.Agree cb' R) {s : St ω} {s' : St ω'} (h : Related R p p' s s') (X : Finset TreePath) :
    Related R p p' (exitStates T cb X s) (exitStates T cb' X s') :=
  List.foldl_rel h fun i _ _ _ h => h.exitState hT hcb X i

theorem Related.raiseParallels (hcb : cb.Agree cb' R) (n : Nat) (i : TreePath) {s : St ω} {s' : St ω'}
    (h : Related R p p' s s') : Related R p p' (raiseParallels T cb n i s) (raiseParallels T cb' n i s') := by
  induction n generalizing i s s' with
  | zero => exact h
  | succ n ih =>
    simp only [FastMicroStep.raiseParallels]
    split
    · refine ih _ ?_
      rw [h.configuration]
      split
      · exact h.raiseDoneEvent hcb _ _
      · exact h
    · exact h

theorem Related.handleFinal (hcb : cb.Agree cb' R) (i : TreePath) {s : St ω} {s' : St ω'} (h : Related R p p' s s') :
    Related R p p' (handleFinal T cb i s) (handleFinal T cb' i s') := by
  rw [FastMicroStep.handleFinal, FastMicroStep.handleFinal]
  split
  · exact h.update (fun m => { m with flags := { m.flags with topLevelFinal := true } }) fun _ _ => rfl
  · exact (h.raiseDoneEvent hcb _ _).raiseParallels hcb _ _

theorem Related.enterState (hT : T.Contents) (hcb : cb.Agree cb' R) (e : Entry) {s : St ω} {s' : St ω'} (h : Related R p p' s s')
    (i : TreePath) : Related R p p' (enterState T cb e s i) (enterState T cb' e s' i) := by
  have hinit : ∀ {s : St ω} {s' : St ω'}, Related R p p' s s' → Related R p p'
      (if i ∉ s.initializedData then
        { FastMicroStep.each (FastMicroStep.initData cb) (T.state i).data s with
          initializedData := insert i (FastMicroStep.each (FastMicroStep.initData cb) (T.state i).data s).initializedData }
      else s)
      (if i ∉ s'.initializedData then
        { FastMicroStep.each (FastMicroStep.initData cb') (T.state i).data s' with
          initializedData := insert i (FastMicroStep.each (FastMicroStep.initData cb') (T.state i).data s').initializedData }
      else s') := by
    intro s s' h
    rw [h.micro]
    split
    · exact (h.each fun r _ _ _ h => h.initData hcb r).update
        (fun m => { m with initializedData := insert i m.initializedData }) fun _ _ => rfl
    · exact h
  simp only [FastMicroStep.enterState]
  rw [h.configuration]
  split
  · have hentered := hinit ((h.emit (.beforeEnteringState i)).update
      (fun m => { m with configuration := insert i m.configuration }) fun _ _ => rfl)
    have hcontent := (hentered.each fun r hr _ _ h => h.process hcb r (hT.onEntry i r hr)).emit (.afterEnteringState i)
    have htaken := List.foldl_rel (l := pseudoTransitions T e.transSet i) hcontent fun j _ _ _ h =>
      h.takeTransition hT hcb j
    split
    · exact htaken.handleFinal hcb i
    · exact htaken
  · exact h

theorem Related.enterStates (hT : T.Contents) (hcb : cb.Agree cb' R) (e : Entry) {s : St ω} {s' : St ω'} (h : Related R p p' s s') :
    Related R p p' (enterStates T cb e s) (enterStates T cb' e s') :=
  List.foldl_rel h fun i _ _ _ h => h.enterState hT hcb e i

theorem Related.warn {s : St ω} {s' : St ω'} (h : Related R p p' s s') : Related R p p' (warn s) (warn s') := by
  rw [FastMicroStep.warn, FastMicroStep.warn, h.micro]
  split
  · exact h.emit _
  · exact h

theorem Related.concludes {s : St ω} {s' : St ω'} (h : Related R p p' s s') :
    Related R p p' (concludes s) (concludes s') := by
  have hreport : Related R p p' (FastMicroStep.emit (.afterMicroStep s.configuration) s)
      (FastMicroStep.emit (.afterMicroStep s'.configuration) s') := by
    rw [h.configuration]
    exact h.emit _
  exact hreport.warn.update
    (fun m => { m with microstepConfigurations := insert m.configuration m.microstepConfigurations }) fun _ _ => rfl

theorem Related.microstep (hT : T.Contents) (hcb : cb.Agree cb' R) (targetSet X : Finset TreePath) (transSet : Finset TransId) {s : St ω}
    {s' : St ω'} (h : Related R p p' s s') :
    Related R p p' (microstep T cb targetSet X transSet s) (microstep T cb' targetSet X transSet s') := by
  rw [microstep_eq_concludes, microstep_eq_concludes, h.micro]
  exact (((h.exitStates hT hcb X).takeTransitions hT hcb _).enterStates hT hcb _).concludes

/-! ### The selection -/

structure SelectionRelated (R : ω → ω' → Prop) (sel : Selection ω) (sel' : Selection ω') : Prop where
  conflicts : sel.conflicts = sel'.conflicts
  targetSet : sel.targetSet = sel'.targetSet
  exitSet : sel.exitSet = sel'.exitSet
  transSet : sel.transSet = sel'.transSet
  found : sel.found = sel'.found
  env : R sel.env sel'.env

theorem enabled_related (hcb : cb.Agree cb' R) (C : Finset TreePath) (event : Event) (t : TransitionInfo) {w : ω} {w' : ω'}
    (hw : R w w') : (enabled cb C event t w).1 = (enabled cb' C event t w').1 ∧
      R (enabled cb C event t w).2 (enabled cb' C event t w').2 := by
  simp only [enabled]
  by_cases hevent : event.toBool = true
  · obtain ⟨hanswer, hmatched⟩ := hcb.isMatched event t.event w w' hw
    simp only [hevent, if_true, hanswer]
    split
    · split
      · exact ⟨rfl, hmatched⟩
      · exact hcb.isTrue C t.cond _ _ hmatched
    · exact ⟨rfl, hmatched⟩
  · rw [Bool.not_eq_true] at hevent
    simp only [hevent, Bool.false_eq_true, if_false, if_true]
    split
    · exact ⟨rfl, hw⟩
    · exact hcb.isTrue C t.cond _ _ hw

theorem SelectionRelated.selectTransition (hcb : cb.Agree cb' R) (C : Finset TreePath) (event : Event) {sel : Selection ω}
    {sel' : Selection ω'} (h : SelectionRelated R sel sel') (i : TransId) :
    SelectionRelated R (selectTransition T cb C event sel i) (selectTransition T cb' C event sel' i) := by
  obtain ⟨hanswer, henv⟩ := enabled_related hcb C event (T.trans i) h.env
  simp only [FastMicroStep.selectTransition, h.conflicts, hanswer]
  split
  · exact h
  split
  · split
    · exact ⟨rfl, by rw [h.targetSet], by rw [h.exitSet], by rw [h.transSet], rfl, henv⟩
    · exact ⟨rfl, h.targetSet, h.exitSet, h.transSet, h.found, henv⟩
  · exact h

theorem selectTransitions_related (hcb : cb.Agree cb' R) (C : Finset TreePath) (event : Event) {w : ω} {w' : ω'}
    (hw : R w w') : SelectionRelated R (selectTransitions T cb C event w) (selectTransitions T cb' C event w') :=
  List.foldl_rel (r := SelectionRelated R) ⟨rfl, rfl, rfl, rfl, rfl, hw⟩ fun i _ _ _ h => h.selectTransition hcb C event i

theorem Related.prepared {sel : Selection ω} {sel' : Selection ω'} (hsel : SelectionRelated R sel sel') {s : St ω}
    {s' : St ω'} (h : Related R p p' s s') : Related R p p' (prepared T sel s) (prepared T sel' s') := by
  obtain ⟨l, hl, hl'⟩ := h.calls
  refine ⟨?_, hsel.env, l ++ [.beforeMicroStep], by simp [FastMicroStep.prepared, hl], by simp [FastMicroStep.prepared, hl']⟩
  simp only [FastMicroStep.prepared, emit_toMicro, hsel.exitSet]
  rw [h.micro]

theorem Related.selectAndStep (hT : T.Contents) (hcb : cb.Agree cb' R) {s : St ω} {s' : St ω'} (h : Related R p p' s s')
    (hevent : s.event = s'.event) :
    (selectAndStep T cb s).1 = (selectAndStep T cb' s').1 ∧
      Related R p p' (selectAndStep T cb s).2 (selectAndStep T cb' s').2 := by
  have hsel := selectTransitions_related (T := T) hcb s.configuration s.event h.env
  generalize hs : selectTransitions T cb s.configuration s.event s.env = sel at hsel
  generalize hs' : selectTransitions T cb' s.configuration s.event s'.env = sel' at hsel
  rw [h.configuration, hevent] at hs'
  cases hfound : sel.found with
  | true =>
    have hfound' : sel'.found = true := hsel.found ▸ hfound
    rw [selectAndStep_of_found T cb hs hfound, selectAndStep_of_found T cb' hs' hfound', hsel.targetSet, hsel.exitSet,
      hsel.transSet, h.configuration]
    exact ⟨rfl, (h.prepared hsel).microstep hT hcb _ _ _⟩
  | false =>
    have hfound' : sel'.found = false := hsel.found ▸ hfound
    rw [selectAndStep_of_not_found T cb hs hfound, selectAndStep_of_not_found T cb' hs' hfound']
    exact ⟨rfl, (h.withEnv hsel.env).update
      (fun m => { m with flags := { m.flags with stable := false, spontaneous := false } }) fun _ _ => rfl⟩

/-! ### The step -/

theorem Related.cancels (hcb : cb.Simulates cb' R) {s : St ω} {s' : St ω'} (h : Related R p p' s s') (i : TreePath) :
    Related R p p' { FastMicroStep.each (FastMicroStep.uninvoke cb) (T.state i).invoke s with
        invocations := s.invocations.erase i }
      { FastMicroStep.each (FastMicroStep.uninvoke cb') (T.state i).invoke s' with
        invocations := s'.invocations.erase i } := by
  have hcalled := h.each (l := (T.state i).invoke) fun r _ _ _ h => h.uninvoke hcb r
  rw [h.invocations]
  exact hcalled.update (fun m => { m with invocations := s'.invocations.erase i }) fun _ _ => rfl

theorem Related.starts (hcb : cb.Simulates cb' R) {s : St ω} {s' : St ω'} (h : Related R p p' s s') (i : TreePath) :
    Related R p p' { FastMicroStep.each (FastMicroStep.invoke cb) (T.state i).invoke s with
        invocations := insert i s.invocations }
      { FastMicroStep.each (FastMicroStep.invoke cb') (T.state i).invoke s' with
        invocations := insert i s'.invocations } := by
  have hcalled := h.each (l := (T.state i).invoke) fun r _ _ _ h => h.invoke hcb r
  rw [h.invocations]
  exact hcalled.update (fun m => { m with invocations := insert i s'.invocations }) fun _ _ => rfl

theorem Related.manageInvocation (hcb : cb.Simulates cb' R) {s : St ω} {s' : St ω'} (h : Related R p p' s s')
    (i : TreePath) : Related R p p' (manageInvocation T cb s i) (manageInvocation T cb' s' i) := by
  have hcancelled : Related R p p'
      (if i ∉ s.configuration ∧ i ∈ s.invocations then
        { FastMicroStep.each (FastMicroStep.uninvoke cb) (T.state i).invoke s with invocations := s.invocations.erase i }
      else s)
      (if i ∉ s'.configuration ∧ i ∈ s'.invocations then
        { FastMicroStep.each (FastMicroStep.uninvoke cb') (T.state i).invoke s' with invocations := s'.invocations.erase i }
      else s') := by
    by_cases hcond : i ∉ s'.configuration ∧ i ∈ s'.invocations
    · rw [if_pos hcond, if_pos (h.micro ▸ hcond)]
      exact h.cancels hcb i
    · rw [if_neg hcond, if_neg (h.micro ▸ hcond)]
      exact h
  rw [FastMicroStep.manageInvocation, FastMicroStep.manageInvocation]
  generalize (if i ∉ s.configuration ∧ i ∈ s.invocations then
    { FastMicroStep.each (FastMicroStep.uninvoke cb) (T.state i).invoke s with invocations := s.invocations.erase i }
    else s) = s₁ at hcancelled
  generalize (if i ∉ s'.configuration ∧ i ∈ s'.invocations then
    { FastMicroStep.each (FastMicroStep.uninvoke cb') (T.state i).invoke s' with invocations := s'.invocations.erase i }
    else s') = s₁' at hcancelled
  simp only
  by_cases hcond : i ∈ s₁'.configuration ∧ i ∉ s₁'.invocations
  · rw [if_pos hcond, if_pos (hcancelled.micro ▸ hcond)]
    exact hcancelled.starts hcb i
  · rw [if_neg hcond, if_neg (hcancelled.micro ▸ hcond)]
    exact hcancelled

theorem Related.manageInvocations (hcb : cb.Simulates cb' R) {s : St ω} {s' : St ω'} (h : Related R p p' s s') :
    Related R p p' (manageInvocations T cb s) (manageInvocations T cb' s') :=
  List.foldl_rel h fun i _ _ _ h => h.manageInvocation hcb i

theorem Related.completeState (hT : T.Contents) (hcb : cb.Simulates cb' R) {s : St ω} {s' : St ω'} (h : Related R p p' s s')
    (i : TreePath) : Related R p p' (completeState T cb s i) (completeState T cb' s' i) := by
  have hleft : Related R p p'
      (if i ∈ s.configuration then FastMicroStep.each (FastMicroStep.process cb) (T.state i).onExit s else s)
      (if i ∈ s'.configuration then FastMicroStep.each (FastMicroStep.process cb') (T.state i).onExit s' else s') := by
    rw [h.configuration]
    split
    · exact h.each fun r hr _ _ h => h.process hcb.toAgree r (hT.onExit i r hr)
    · exact h
  rw [FastMicroStep.completeState, FastMicroStep.completeState]
  generalize (if i ∈ s.configuration then
    FastMicroStep.each (FastMicroStep.process cb) (T.state i).onExit s else s) = s₁ at hleft
  generalize (if i ∈ s'.configuration then
    FastMicroStep.each (FastMicroStep.process cb') (T.state i).onExit s' else s') = s₁' at hleft
  simp only
  by_cases hcond : i ∈ s₁'.invocations
  · rw [if_pos hcond, if_pos (hleft.micro ▸ hcond)]
    exact hleft.cancels hcb i
  · rw [if_neg hcond, if_neg (hleft.micro ▸ hcond)]
    exact hleft

theorem Related.complete (hT : T.Contents) (hcb : cb.Simulates cb' R) {s : St ω} {s' : St ω'} (h : Related R p p' s s') :
    Related R p p' (complete T cb s) (complete T cb' s') := by
  have hcompleted := List.foldl_rel (l := T.states.reverse) (h.emit .beforeCompletion) fun i _ _ _ h =>
    h.completeState hT hcb i
  exact (hcompleted.update (fun m => { m with flags := { m.flags with finished := true } }) fun _ _ => rfl).emit
    .afterCompletion

theorem Related.unblocked {s : St ω} {s' : St ω'} (h : Related R p p' s s') (s₀ : St ω) (s₀' : St ω') :
    ((Phase.unblocked s).finish T cb s₀).1 = ((Phase.unblocked s').finish T cb' s₀').1 ∧
      Related R p p' ((Phase.unblocked s).finish T cb s₀).2 ((Phase.unblocked s').finish T cb' s₀').2 := by
  have hcancelled : s.isCancelled = s'.isCancelled := by rw [h.micro]
  rw [Phase.finish, Phase.finish]
  by_cases hc : s'.isCancelled = true
  · rw [if_pos hc, if_pos (hcancelled ▸ hc)]
    exact ⟨rfl, h.update (fun m => { m with flags := { m.flags with topLevelFinal := true } }) fun _ _ => rfl⟩
  · rw [if_neg hc, if_neg (hcancelled ▸ hc)]
    exact ⟨rfl, h⟩

theorem Related.stepExternal (hT : T.Contents) (hcb : cb.Simulates cb' R) {s : St ω} {s' : St ω'} (h : Related R p p' s s') :
    (stepExternal T cb s).1 = (stepExternal T cb' s').1 ∧
      Related R p p' (stepExternal T cb s).2 (stepExternal T cb' s').2 := by
  have hmanaged := h.manageInvocations (T := T) hcb
  rw [stepExternal_eq_phase T cb s s, stepExternal_eq_phase T cb' s' s']
  generalize FastMicroStep.manageInvocations T cb s = s₁ at hmanaged
  generalize FastMicroStep.manageInvocations T cb' s' = s₁' at hmanaged
  obtain ⟨hanswer, henv⟩ := hcb.dequeueExternal s₁.configuration _ _ hmanaged.env
  have hflags : s₁.flags = s₁'.flags := by rw [hmanaged.micro]
  have hasked := (hmanaged.emit .dequeueExternal).withEnv henv
  rw [phaseExternal, phaseExternal, ← hmanaged.configuration, hflags]
  split
  · exact ⟨rfl, (hmanaged.emit .onStableConfiguration).update
      (fun m => { m with microstepConfigurations := ∅, flags := { m.flags with stable := true } }) fun _ _ => rfl⟩
  · rcases hr : cb.dequeueExternal s₁.configuration s₁.env with ⟨u | event, w⟩
    · rcases hr' : cb'.dequeueExternal s₁.configuration s₁'.env with ⟨u' | event', w'⟩
      · rw [hr, hr'] at hasked
        exact ⟨rfl, hasked⟩
      · simp [hr, hr'] at hanswer
    · rcases hr' : cb'.dequeueExternal s₁.configuration s₁'.env with ⟨u' | event', w'⟩
      · simp [hr, hr'] at hanswer
      · rw [hr, hr'] at hasked hanswer
        obtain rfl : event = event' := by simpa using hanswer
        have hevent := hasked.setEvent event
        simp only
        split
        · exact (hevent.emit _).selectAndStep hT hcb.toAgree rfl
        · exact hevent.unblocked s s'

/-- The steps of two microsteppers with related environments. -/
theorem Related.step (hT : T.Contents) (hcb : cb.Simulates cb' R) {s : St ω} {s' : St ω'} (h : Related R p p' s s') :
    (step T cb s).1 = (step T cb' s').1 ∧ Related R p p' (step T cb s).2 (step T cb' s').2 := by
  obtain ⟨⟨flags, C, I, history, data, configurations, isCancelled, event⟩, w, calls⟩ := s
  obtain ⟨⟨flags', C', I', history', data', configurations', isCancelled', event'⟩, w', calls'⟩ := s'
  have hmicro := h.micro
  simp only [Micro.mk.injEq, and_true] at hmicro
  obtain ⟨rfl, rfl, rfl, rfl, rfl, rfl, rfl⟩ := hmicro
  rw [FastMicroStep.step, FastMicroStep.step]
  split
  · exact ⟨rfl, h⟩
  split
  · exact ⟨rfl, h.complete hT hcb⟩
  split
  · have hstart := (h.update (fun m => { m with flags := { m.flags with spontaneous := true, initialized := true } })
      fun _ _ => rfl).emit .beforeMicroStep
    exact ⟨rfl, hstart.microstep hT hcb.toAgree _ _ _⟩
  split
  · exact (h.setEvent {}).selectAndStep hT hcb.toAgree rfl
  obtain ⟨hanswer, henv⟩ := hcb.dequeueInternal w w' h.env
  have hdequeued := (h.withEnv henv).setEvent (cb'.dequeueInternal w').1
  simp only [hanswer]
  split
  · exact (hdequeued.emit _).selectAndStep hT hcb.toAgree rfl
  · exact hdequeued.stepExternal hT hcb

end

end FastMicroStep

end Uscxml
