import Uscxml.FastMicroStep.Invocations
import Uscxml.Interpreter.Session

/-!
# Run to completion

An external event is for a machine that has nothing left to do by itself: the internal queue is empty and no
transition without an event is enabled. Transitions without an event are looked at only while
`USCXML_CTX_SPONTANEOUS` is set, and the flag falls with the first selection that finds nothing. So whatever
changes the data model without a transition being taken (`_event`, a `<finalize>`, the attributes of an
`<invoke>`, a condition with side effects) must not make a condition true that was false.
-/

namespace Uscxml

namespace FastMicroStep

variable {ω : Type} (T : Tables) (cb : Callbacks ω)

/-- A transition that is looked at when there is no event. -/
def eventless (i : TransId) : Bool := !((T.trans i).history || (T.trans i).initial) && (T.trans i).event = ""

/-- No eventless transition of the active states `C` is enabled. -/
def Quiet (C : Finset TreePath) (w : ω) : Prop :=
  ∀ i ∈ T.transitions, eventless T i = true → (T.trans i).source ∈ C →
    (T.trans i).cond ≠ "" ∧ (cb.isTrue C (T.trans i).cond w).1 = false

/-- No condition of an eventless transition of the active states `C` becomes true. -/
def Keeps (C : Finset TreePath) (w w' : ω) : Prop :=
  ∀ i ∈ T.transitions, eventless T i = true → (T.trans i).source ∈ C →
    (cb.isTrue C (T.trans i).cond w).1 = false → (cb.isTrue C (T.trans i).cond w').1 = false

variable {T cb}

theorem Keeps.refl (C : Finset TreePath) (w : ω) : Keeps T cb C w w := fun _ _ _ _ h => h

theorem Keeps.trans {C : Finset TreePath} {w w' w'' : ω} (h : Keeps T cb C w w') (h' : Keeps T cb C w' w'') :
    Keeps T cb C w w'' := fun i hi he hs hw => h' i hi he hs (h i hi he hs hw)

theorem Quiet.keeps {C : Finset TreePath} {w w' : ω} (h : Quiet T cb C w) (hk : Keeps T cb C w w') :
    Quiet T cb C w' := fun i hi he hs => ⟨(h i hi he hs).1, hk i hi he hs (h i hi he hs).2⟩

variable (T cb)

/-! ### A selection that finds nothing -/

/-- No question of the selection loop makes a condition true. -/
def QuestionsKeep (C : Finset TreePath) (event : Event) : List TransId → Selection ω → Prop
  | [], _ => True
  | i :: l, sel =>
    Keeps T cb C sel.env (selectTransition T cb C event sel i).env ∧
      QuestionsKeep C event l (selectTransition T cb C event sel i)

theorem selectTransition_found {C : Finset TreePath} {event : Event} {sel : Selection ω} (i : TransId)
    (h : sel.found = true) : (selectTransition T cb C event sel i).found = true := by
  simp only [selectTransition]
  split
  · exact h
  split
  · split
    · rfl
    · exact h
  · exact h

theorem foldl_selectTransition_found {C : Finset TreePath} {event : Event} (l : List TransId) {sel : Selection ω}
    (h : sel.found = true) : (l.foldl (selectTransition T cb C event) sel).found = true :=
  List.foldl_invariant (fun s : Selection ω => s.found = true) (fun _ i _ h => selectTransition_found T cb i h) h

theorem selectTransition_conflicts {C : Finset TreePath} {event : Event} {sel : Selection ω} {i : TransId}
    (h : (selectTransition T cb C event sel i).found = false) :
    (selectTransition T cb C event sel i).conflicts = sel.conflicts := by
  simp only [selectTransition] at h ⊢
  split
  · rfl
  rename_i hp
  rw [if_neg hp] at h
  split
  · rename_i hc
    rw [if_pos hc] at h
    split
    · rename_i he
      rw [if_pos he] at h
      simp at h
    · rfl
  · rfl

theorem selectTransition_eventless {C : Finset TreePath} {sel : Selection ω} {i : TransId}
    (h : (selectTransition T cb C {} sel i).found = false) (hconf : i ∉ sel.conflicts)
    (he : eventless T i = true) (hs : (T.trans i).source ∈ C) :
    (T.trans i).cond ≠ "" ∧ (cb.isTrue C (T.trans i).cond sel.env).1 = false := by
  simp only [eventless, Bool.and_eq_true, Bool.not_eq_true', decide_eq_true_eq] at he
  have hkind : kindMatches {} (T.trans i) = true := by simp [kindMatches, he.2, Event.toBool]
  have hnot : (enabled cb C {} (T.trans i) sel.env).1 = false := by
    by_contra hne
    rw [Bool.not_eq_false] at hne
    simp [selectTransition, he.1, hs, hconf, hkind, hne] at h
  by_cases hcond : (T.trans i).cond = ""
  · simp [enabled, Event.toBool, hcond] at hnot
  · simp only [enabled, Event.toBool, hcond] at hnot
    exact ⟨hcond, by simpa using hnot⟩

theorem foldl_selectTransition_quiet {C : Finset TreePath} {event : Event} (l : List TransId) (sel : Selection ω)
    (hconf : sel.conflicts = ∅) (h : (l.foldl (selectTransition T cb C event) sel).found = false)
    (hk : QuestionsKeep T cb C event l sel) :
    Keeps T cb C sel.env (l.foldl (selectTransition T cb C event) sel).env ∧
      (event = {} → ∀ i ∈ l, i ∈ T.transitions → eventless T i = true → (T.trans i).source ∈ C →
        (T.trans i).cond ≠ "" ∧
          (cb.isTrue C (T.trans i).cond (l.foldl (selectTransition T cb C event) sel).env).1 = false) := by
  induction l generalizing sel with
  | nil => exact ⟨Keeps.refl C _, by simp⟩
  | cons j l ih =>
    rw [List.foldl_cons] at h ⊢
    have hj : (selectTransition T cb C event sel j).found = false := by
      by_contra hne
      rw [Bool.not_eq_false] at hne
      simp [foldl_selectTransition_found T cb l hne] at h
    obtain ⟨hrest, hasked⟩ := ih _ (by rw [selectTransition_conflicts T cb hj, hconf]) h hk.2
    refine ⟨hk.1.trans hrest, ?_⟩
    intro hevent i hi hT he hs
    rcases List.mem_cons.mp hi with rfl | hi
    · subst hevent
      obtain ⟨hcond, hfalse⟩ := selectTransition_eventless T cb hj (by simp [hconf]) he hs
      exact ⟨hcond, (hk.1.trans hrest) i hT he hs hfalse⟩
    · exact hasked hevent i hi hT he hs

/-- The selection for an event finds no transition. -/
def Unanswered (C : Finset TreePath) (event : Event) (w : ω) : Prop :=
  (selectTransitions T cb C event w).found = false

/-- The questions for an event in a given environment keep conditions false. -/
def Harmless (C : Finset TreePath) (event : Event) (w : ω) : Prop :=
  QuestionsKeep T cb C event T.transitions { env := w }

theorem Harmless.keeps {C : Finset TreePath} {event : Event} {w : ω} (h : Harmless T cb C event w)
    (hu : Unanswered T cb C event w) : Keeps T cb C w (selectTransitions T cb C event w).env :=
  (foldl_selectTransition_quiet T cb T.transitions { env := w } rfl hu h).1

theorem Harmless.quiet {C : Finset TreePath} {w : ω} (h : Harmless T cb C {} w) (hu : Unanswered T cb C {} w) :
    Quiet T cb C (selectTransitions T cb C {} w).env :=
  fun i hi => (foldl_selectTransition_quiet T cb T.transitions { env := w } rfl hu h).2 rfl i hi hi

/-! ### A step that finds nothing to do -/

/-- What dequeued this event makes no condition true, unless it is an event for which a transition is selected. -/
def EventKeeps (C : Finset TreePath) (w w' : ω) (event : Event) : Prop :=
  if event.toBool then Unanswered T cb C event w' → Keeps T cb C w w' ∧ Harmless T cb C event w' else Keeps T cb C w w'

/-- The same for the answer of `dequeueExternal`. -/
def AnswerKeeps (C : Finset TreePath) (w : ω) : Except Unit Event × ω → Prop
  | (.ok event, w') => EventKeeps T cb C w w' event
  | (.error _, w') => Keeps T cb C w w'

/-- What a step that takes no transition changes makes no condition of an eventless transition true: the conditions it
asks for, an event nobody waits for, the invocations it starts and cancels. -/
structure KeepsQuiet (s : St ω) : Prop where
  eventless : Runs s → s.flags.spontaneous = true → Unanswered T cb s.configuration {} s.env →
    Harmless T cb s.configuration {} s.env
  internal : Runs s → s.flags.spontaneous = false → (cb.dequeueInternal s.env).1.toBool = true →
    EventKeeps T cb s.configuration s.env (cb.dequeueInternal s.env).2 (cb.dequeueInternal s.env).1
  invocations : Drains cb s → Keeps T cb s.configuration s.env (drained T cb s).env
  external : AsksExternal cb s →
    AnswerKeeps T cb s.configuration (drained T cb s).env (cb.dequeueExternal s.configuration (drained T cb s).env)

/-- Between steps a machine that looks for an event is quiet. -/
def Settled (s : St ω) : Prop := Runs s → s.flags.spontaneous = false → Quiet T cb s.configuration s.env

instance (C : Finset TreePath) (w : ω) : Decidable (Quiet T cb C w) :=
  inferInstanceAs (Decidable (∀ i ∈ T.transitions, _))

instance (C : Finset TreePath) (w w' : ω) : Decidable (Keeps T cb C w w') :=
  inferInstanceAs (Decidable (∀ i ∈ T.transitions, _))

instance decidableQuestionsKeep (C : Finset TreePath) (event : Event) :
    (l : List TransId) → (sel : Selection ω) → Decidable (QuestionsKeep T cb C event l sel)
  | [], _ => isTrue trivial
  | i :: l, sel =>
    have := decidableQuestionsKeep C event l (selectTransition T cb C event sel i)
    inferInstanceAs (Decidable (_ ∧ _))

instance (C : Finset TreePath) (event : Event) (w : ω) : Decidable (Unanswered T cb C event w) :=
  inferInstanceAs (Decidable (_ = _))

instance (C : Finset TreePath) (event : Event) (w : ω) : Decidable (Harmless T cb C event w) :=
  decidableQuestionsKeep T cb C event T.transitions { env := w }

instance (C : Finset TreePath) (w w' : ω) (event : Event) : Decidable (EventKeeps T cb C w w' event) :=
  inferInstanceAs (Decidable (ite _ _ _))

instance (C : Finset TreePath) (w : ω) : (r : Except Unit Event × ω) → Decidable (AnswerKeeps T cb C w r)
  | (.ok event, w') => inferInstanceAs (Decidable (EventKeeps T cb C w w' event))
  | (.error _, w') => inferInstanceAs (Decidable (Keeps T cb C w w'))

instance (s : St ω) : Decidable (KeepsQuiet T cb s) :=
  decidable_of_iff (_ ∧ _ ∧ _ ∧ _)
    ⟨fun h => ⟨h.1, h.2.1, h.2.2.1, h.2.2.2⟩, fun h => ⟨h.eventless, h.internal, h.invocations, h.external⟩⟩

theorem foldl_manageInvocation_of_managed {l : List TreePath} {s : St ω}
    (h : ∀ i ∈ l, i ∈ s.invocations ↔ i ∈ s.configuration) : l.foldl (manageInvocation T cb) s = s := by
  induction l with
  | nil => rfl
  | cons i l ih =>
    have hi := h i List.mem_cons_self
    have hround : manageInvocation T cb s i = s := by
      by_cases hc : i ∈ s.configuration
      · simp [manageInvocation, hi, hc]
      · simp [manageInvocation, hi, hc]
    rw [List.foldl_cons, hround]
    exact ih fun j hj => h j (List.mem_cons_of_mem i hj)

/-- A step that asks for an external event finds nothing to invoke or to cancel. -/
theorem drained_of_managed {s : St ω} (hs : Managed T s) (h : AsksExternal cb s) :
    drained T cb s = { s with event := (cb.dequeueInternal s.env).1, env := (cb.dequeueInternal s.env).2 } :=
  foldl_manageInvocation_of_managed T cb (hs h.finished h.stable)

/-- After a selection that found nothing the step has settled, if the machine is quiet. -/
theorem selectAndStep_settled {s : St ω}
    (h : Unanswered T cb s.configuration s.event s.env →
      Quiet T cb s.configuration (selectTransitions T cb s.configuration s.event s.env).env) :
    Settled T cb (selectAndStep T cb s).2 := by
  generalize hsel : selectTransitions T cb s.configuration s.event s.env = sel at h
  cases hfound : sel.found with
  | true =>
    rw [selectAndStep_of_found T cb hsel hfound]
    intro _ hspon
    simp [microstep_toMicro, prepared] at hspon
  | false =>
    rw [selectAndStep_of_not_found T cb hsel hfound]
    exact fun _ _ => h (by rw [Unanswered, hsel, hfound])

theorem step_settled {s : St ω} (hs : Settled T cb s) (h : KeepsQuiet T cb s) : Settled T cb (step T cb s).2 := by
  have hconf : (drained T cb s).configuration = s.configuration := by rw [drained_toMicro]
  have hquiet : Drains cb s → Quiet T cb s.configuration (drained T cb s).env :=
    fun hd => (hs hd.toRuns hd.spontaneous).keeps (h.invocations hd)
  have harises := phase_arises T cb s
  rw [step_eq_phase]
  generalize phase T cb s = phase at harises
  cases harises with
  | finished hf => exact hs
  | completion hf ht =>
    intro hruns
    simpa [Phase.finish, complete_toMicro] using hruns.finished
  | start hp =>
    intro _ hspon
    simp [Phase.finish, microstep_toMicro] at hspon
  | eventless hruns hspon =>
    exact selectAndStep_settled T cb fun hu => (h.eventless hruns hspon hu).quiet T cb hu
  | internal hruns hspon he =>
    have hkeeps := h.internal hruns hspon he
    rw [EventKeeps, if_pos he] at hkeeps
    refine selectAndStep_settled T cb fun hu => ?_
    obtain ⟨hevent, hasked⟩ := hkeeps hu
    exact ((hs hruns hspon).keeps hevent).keeps (hasked.keeps T cb hu)
  | stable hd hstable =>
    intro _ _
    exact hconf ▸ hquiet hd
  | thrown ha w u hd =>
    have hkeeps := h.external ha
    rw [hd] at hkeeps
    exact fun _ _ => hconf ▸ (hquiet ha.toDrains).keeps hkeeps
  | external ha event w hd he =>
    have hkeeps := h.external ha
    rw [hd, AnswerKeeps, EventKeeps, if_pos he] at hkeeps
    refine selectAndStep_settled T cb fun hu => ?_
    have hu' : Unanswered T cb s.configuration event w := hconf ▸ hu
    obtain ⟨hevent, hasked⟩ := hkeeps hu'
    exact hconf ▸ ((hquiet ha.toDrains).keeps hevent).keeps (hasked.keeps T cb hu')
  | unblocked ha event w hd he =>
    have hkeeps := h.external ha
    rw [hd, AnswerKeeps, EventKeeps, if_neg (by simp [he])] at hkeeps
    have hquiet' := (hquiet ha.toDrains).keeps hkeeps
    rw [Phase.finish]
    split
    · exact fun _ _ => hconf ▸ hquiet'
    · exact fun _ _ => hconf ▸ hquiet'

end FastMicroStep

namespace Interpreter

open FastMicroStep

variable {δ ι β : Type} (P : Platform δ ι) (d : Document β)

theorem isTrue_congr {C : Finset TreePath} {expr : String} {w w' : Impl δ ι} (h : w.dataModel = w'.dataModel) :
    (isTrue P C expr w).1 = (isTrue P C expr w').1 := by
  cases hr : (P.evalAsBool C expr w'.dataModel).1 with
  | ok b => simp [isTrue, h, hr]
  | error e => simp [isTrue, h, hr]

theorem keeps_of_dataModel (T : Tables) (C : Finset TreePath) {w w' : Impl δ ι} (h : w.dataModel = w'.dataModel) :
    FastMicroStep.Keeps T (sorted P d) C w w' := fun _ _ _ _ hfalse => (isTrue_congr P h).symm.trans hfalse

/-- In a stable configuration no nameless event, which counts as none, stands before others in the internal queue. -/
def NamelessLast (s : St (Impl δ ι)) : Prop :=
  s.flags.stable = true → (dequeue s.env.internalQueue).1.toBool = false → (dequeue s.env.internalQueue).2 = []

/-- The runs in which no step without a transition makes a condition true. Between steps anything but the data model may change: events arrive,
delays pass. -/
inductive UndisturbedRun : St (Impl δ ι) → Prop where
  | init (w : Impl δ ι) : UndisturbedRun { env := w }
  | step {s : St (Impl δ ι)} (hs : UndisturbedRun s) (h : KeepsQuiet (FastMicroStep.init d) (sorted P d) s) :
      UndisturbedRun (FastMicroStep.step (FastMicroStep.init d) (sorted P d) s).2
  | environment {s : St (Impl δ ι)} (w : Impl δ ι) (hs : UndisturbedRun s) (hw : s.env.dataModel = w.dataModel) :
      UndisturbedRun { s with env := w }
  | cancel {s : St (Impl δ ι)} (hs : UndisturbedRun s) : UndisturbedRun (markAsCancelled s)

theorem UndisturbedRun.settled {s : St (Impl δ ι)} (hs : UndisturbedRun P d s) :
    Settled (FastMicroStep.init d) (sorted P d) s := by
  induction hs with
  | init w => exact fun hruns => by simpa [Flags.pristine] using hruns.pristine
  | step _ h ih => exact step_settled _ _ ih h
  | environment w _ hw ih =>
    intro hruns hspon
    exact (ih ⟨hruns.finished, hruns.topLevelFinal, hruns.pristine⟩ hspon).keeps (keeps_of_dataModel P d _ _ hw)
  | cancel _ ih => exact fun hruns => ih ⟨hruns.finished, hruns.topLevelFinal, hruns.pristine⟩

theorem UndisturbedRun.reachable {s : St (Impl δ ι)} (hs : UndisturbedRun P d s) :
    Reachable (FastMicroStep.init d) (sorted P d) s := by
  induction hs with
  | init w => exact .init w
  | step _ _ ih => exact ih.step
  | environment w _ _ ih => exact ih.environment w
  | cancel _ ih => exact ih.cancel

/-- When the step calls `dequeueExternal` nothing is left to do without an external event. -/
def RunsToCompletion (s : St (Impl δ ι)) : Prop :=
  AsksExternal (sorted P d) s →
    (drained (FastMicroStep.init d) (sorted P d) s).env.internalQueue = [] ∧
      Quiet (FastMicroStep.init d) (sorted P d) s.configuration (drained (FastMicroStep.init d) (sorted P d) s).env

theorem dequeueInternal_dataModel {w : Impl δ ι} (h : (dequeueInternal P w).1.toBool = false) :
    (dequeueInternal P w).2.dataModel = w.dataModel := by
  simp only [dequeueInternal] at h ⊢
  rw [h]
  rfl

instance (s : St (Impl δ ι)) : Decidable (NamelessLast s) := inferInstanceAs (Decidable (_ → _ → _))

instance (s : St (Impl δ ι)) : Decidable (RunsToCompletion P d s) := inferInstanceAs (Decidable (_ → _ ∧ _))

theorem UndisturbedRun.steps {s : St (Impl δ ι)} (hs : UndisturbedRun P d s) (n : Nat)
    (h : ∀ k < n, KeepsQuiet (FastMicroStep.init d) (sorted P d) (steps (FastMicroStep.init d) (sorted P d) k s)) :
    UndisturbedRun P d (steps (FastMicroStep.init d) (sorted P d) n s) := by
  induction n generalizing s with
  | zero => exact hs
  | succ n ih => exact ih (hs.step (h 0 n.succ_pos)) fun k hk => h (k + 1) (Nat.succ_lt_succ hk)

theorem runs_to_completion {s : St (Impl δ ι)} (hs : UndisturbedRun P d s) (hnamed : NamelessLast s) :
    RunsToCompletion P d s := by
  intro hasks
  rw [drained_of_managed _ _ (hs.reachable.managed _ _) hasks]
  refine ⟨hnamed hasks.stable hasks.internal, ?_⟩
  have hdata : s.env.dataModel = (dequeueInternal P s.env).2.dataModel :=
    (dequeueInternal_dataModel P hasks.internal).symm
  exact (hs.settled P d hasks.toRuns hasks.spontaneous).keeps (keeps_of_dataModel P d _ _ hdata)

/-- A transition without an event that waits for a value of `_event`. -/
def eventCondition : Document Unit where
  tree :=
    { root := { tag := .scxml }
      kids := .cons { tag := .state, id := some "a", transitions := [{ target := some ["b"], cond := some "x" }] } .nil
        (.cons { tag := .state, id := some "b" } .nil .nil) }

/-- The run of `eventCondition` up to its second look at the external queue. -/
def eventConditionRun (name : String) : St (Impl String Unit) :=
  steps (FastMicroStep.init eventCondition) (sorted lastEvent eventCondition) 5
    { env := { dataModel := "", externalQueue := [{ name := name }] } }

/-- An event that matches no transition makes the condition true, and the next external event is asked for. -/
theorem enabled_transition_not_examined :
    Reachable (FastMicroStep.init eventCondition) (sorted lastEvent eventCondition) (eventConditionRun "x") ∧
      ¬ RunsToCompletion lastEvent eventCondition (eventConditionRun "x") :=
  ⟨(Reachable.init _).steps _ _ 5, by decide +kernel⟩

theorem runs_to_completion_eventCondition :
    AsksExternal (sorted lastEvent eventCondition) (eventConditionRun "y") ∧
      RunsToCompletion lastEvent eventCondition (eventConditionRun "y") :=
  ⟨by decide +kernel, runs_to_completion lastEvent eventCondition
    (UndisturbedRun.steps lastEvent eventCondition (.init _) 5 (by decide +kernel)) (by decide +kernel)⟩

end Interpreter

end Uscxml
