import Uscxml.FastMicroStep.Step
import Uscxml.Lib.Fold

/-!
# What a step changes

The calls out of the microstepper leave its members alone, so each block of a step has a short description:
the members it changes and how. The later modules use these descriptions and do not unfold the blocks.
-/

namespace Uscxml

namespace FastMicroStep

variable {ω : Type} (T : Tables) (cb : Callbacks ω)

/-! ### Calls -/

@[simp] theorem emit_toMicro (c : Call) (s : St ω) : (emit c s).toMicro = s.toMicro := rfl

@[simp] theorem emit_env (c : Call) (s : St ω) : (emit c s).env = s.env := rfl

@[simp] theorem emit_calls (c : Call) (s : St ω) : (emit c s).calls = s.calls ++ [c] := rfl

@[simp] theorem process_toMicro (r : Ref) (s : St ω) : (process cb r s).toMicro = s.toMicro := rfl

@[simp] theorem initData_toMicro (r : Ref) (s : St ω) : (initData cb r s).toMicro = s.toMicro := rfl

@[simp] theorem invoke_toMicro (r : Ref) (s : St ω) : (invoke cb r s).toMicro = s.toMicro := rfl

@[simp] theorem uninvoke_toMicro (r : Ref) (s : St ω) : (uninvoke cb r s).toMicro = s.toMicro := rfl

@[simp] theorem raiseDoneEvent_toMicro (p : TreePath) (r : Option Ref) (s : St ω) :
    (raiseDoneEvent cb p r s).toMicro = s.toMicro := rfl

theorem each_toMicro {f : Ref → St ω → St ω} (hf : ∀ r s, (f r s).toMicro = s.toMicro) (l : List Ref) (s : St ω) :
    (each f l s).toMicro = s.toMicro :=
  List.foldl_frame St.toMicro (fun s r _ => hf r s) s

@[simp] theorem each_process_toMicro (l : List Ref) (s : St ω) :
    (each (process cb) l s).toMicro = s.toMicro := each_toMicro (process_toMicro cb) l s

@[simp] theorem each_initData_toMicro (l : List Ref) (s : St ω) :
    (each (initData cb) l s).toMicro = s.toMicro := each_toMicro (initData_toMicro cb) l s

@[simp] theorem each_invoke_toMicro (l : List Ref) (s : St ω) :
    (each (invoke cb) l s).toMicro = s.toMicro := each_toMicro (invoke_toMicro cb) l s

@[simp] theorem each_uninvoke_toMicro (l : List Ref) (s : St ω) :
    (each (uninvoke cb) l s).toMicro = s.toMicro := each_toMicro (uninvoke_toMicro cb) l s

@[simp] theorem takeTransition_toMicro (i : TransId) (s : St ω) :
    (takeTransition T cb i s).toMicro = s.toMicro := by
  simp [takeTransition]

@[simp] theorem takeTransitions_toMicro (transSet : Finset TransId) (s : St ω) :
    (takeTransitions T cb transSet s).toMicro = s.toMicro :=
  List.foldl_frame St.toMicro (fun s i _ => takeTransition_toMicro T cb i s) s

/-! ### Leaving and entering states -/

theorem exitState_toMicro (X : Finset TreePath) (s : St ω) (i : TreePath) :
    (exitState T cb X s i).toMicro =
      { s.toMicro with configuration := if i ∈ X then s.configuration.erase i else s.configuration } := by
  rw [exitState]
  by_cases h : i ∈ X ∧ i ∈ s.configuration
  · simp [h]
  · rw [if_neg h]
    by_cases hX : i ∈ X
    · simp [hX, Finset.erase_eq_of_notMem fun hi => h ⟨hX, hi⟩]
    · simp [hX]

theorem foldl_exitState_toMicro (X : Finset TreePath) (l : List TreePath) (s : St ω) :
    (l.foldl (exitState T cb X) s).toMicro =
      { s.toMicro with configuration := s.configuration \ (X ∩ l.toFinset) } := by
  induction l generalizing s with
  | nil => simp
  | cons i l ih =>
    rw [List.foldl_cons, ih, exitState_toMicro]
    refine congrArg (fun C => { s.toMicro with configuration := C }) ?_
    ext p
    by_cases hX : i ∈ X <;> by_cases hp : p = i <;> simp [hX, hp]

theorem exitStates_toMicro (X : Finset TreePath) (s : St ω) :
    (exitStates T cb X s).toMicro =
      { s.toMicro with configuration := s.configuration \ (X ∩ T.states.toFinset) } := by
  rw [exitStates, foldl_exitState_toMicro]
  simp

@[simp] theorem raiseParallels_toMicro (n : Nat) (p : TreePath) (s : St ω) :
    (raiseParallels T cb n p s).toMicro = s.toMicro := by
  induction n generalizing p s with
  | zero => rfl
  | succ n ih =>
    simp only [raiseParallels]
    split
    · rw [ih]
      split <;> rfl
    · rfl

/-- A state that ends the run when it is entered. -/
def endsRun (i : TreePath) : Bool :=
  (T.state i).type = .final && (T.state i).ancestors.card = 1 && [] ∈ (T.state i).ancestors

theorem handleFinal_toMicro {i : TreePath} (hi : (T.state i).type = .final) (s : St ω) :
    (handleFinal T cb i s).toMicro =
      { s.toMicro with flags := { s.flags with topLevelFinal := s.flags.topLevelFinal || endsRun T i } } := by
  rw [handleFinal]
  by_cases h : (T.state i).ancestors.card = 1 ∧ [] ∈ (T.state i).ancestors
  · simp [h, endsRun, hi]
  · have : endsRun T i = false := by
      rw [endsRun]
      simpa [hi] using h
    simp [h, this]

/-- Is the state entered: is it a proper state in the entry set that is not active? -/
def enters (E C : Finset TreePath) (i : TreePath) : Prop := i ∈ E ∧ i ∉ C ∧ (T.state i).type.pseudo = false

instance (E C : Finset TreePath) (i : TreePath) : Decidable (enters T E C i) := inferInstanceAs (Decidable (_ ∧ _ ∧ _))

theorem enterState_toMicro_of_enters {e : Entry} {s : St ω} {i : TreePath} (h : enters T e.entrySet s.configuration i) :
    (enterState T cb e s i).toMicro =
      { s.toMicro with
        configuration := insert i s.configuration
        initializedData := insert i s.initializedData
        flags := { s.flags with topLevelFinal := s.flags.topLevelFinal || endsRun T i } } := by
  have hpseudo : ∀ (l : List TransId) (s : St ω),
      (l.foldl (fun s j => takeTransition T cb j s) s).toMicro = s.toMicro :=
    fun l s => List.foldl_frame St.toMicro (fun s j _ => takeTransition_toMicro T cb j s) s
  obtain ⟨hE, hC, hproper⟩ := h
  rw [enterState, if_pos ⟨hE, hC, hproper⟩]
  by_cases hinit : i ∈ s.initializedData
  · by_cases hfinal : (T.state i).type = .final
    · simp [hinit, hfinal, handleFinal_toMicro T cb hfinal, hpseudo]
    · simp [hinit, hfinal, hpseudo, endsRun]
  · by_cases hfinal : (T.state i).type = .final
    · simp [hinit, hfinal, handleFinal_toMicro T cb hfinal, hpseudo]
    · simp [hinit, hfinal, hpseudo, endsRun]

theorem enterState_of_not_enters {e : Entry} {s : St ω} {i : TreePath} (h : ¬ enters T e.entrySet s.configuration i) :
    enterState T cb e s i = s := if_neg h

def entered (E C : Finset TreePath) (l : List TreePath) : List TreePath := l.filter fun i => enters T E C i

@[simp] theorem mem_entered {E C : Finset TreePath} {l : List TreePath} {i : TreePath} :
    i ∈ entered T E C l ↔ i ∈ l ∧ enters T E C i := by
  simp [entered]

theorem entered_cons_of_enters {E C : Finset TreePath} {i : TreePath} {l : List TreePath} (h : enters T E C i) (j : TreePath) :
    j ∈ entered T E C (i :: l) ↔ j = i ∨ j ∈ entered T E (insert i C) l := by
  rw [mem_entered, mem_entered, List.mem_cons]
  by_cases hj : j = i
  · subst hj
    simp [h]
  · simp [hj, enters]

theorem entered_cons_of_not_enters {E C : Finset TreePath} {i : TreePath} {l : List TreePath} (h : ¬ enters T E C i) :
    entered T E C (i :: l) = entered T E C l := by
  simp [entered, h]

theorem foldl_enterState_toMicro (e : Entry) (l : List TreePath) (s : St ω) :
    (l.foldl (enterState T cb e) s).toMicro =
      { s.toMicro with
        configuration := s.configuration ∪ (entered T e.entrySet s.configuration l).toFinset
        initializedData := s.initializedData ∪ (entered T e.entrySet s.configuration l).toFinset
        flags := { s.flags with
          topLevelFinal := s.flags.topLevelFinal || (entered T e.entrySet s.configuration l).any (endsRun T) } } := by
  induction l generalizing s with
  | nil => simp [entered]
  | cons i l ih =>
    rw [List.foldl_cons]
    by_cases h : enters T e.entrySet s.configuration i
    · have hset : ∀ S : Finset TreePath, S ∪ (entered T e.entrySet s.configuration (i :: l)).toFinset =
          insert i S ∪ (entered T e.entrySet (insert i s.configuration) l).toFinset := by
        intro S
        ext j
        rw [Finset.mem_union, Finset.mem_union, List.mem_toFinset, List.mem_toFinset, Finset.mem_insert,
          entered_cons_of_enters T h j]
        constructor
        · rintro (h | h | h)
          · exact Or.inl (Or.inr h)
          · exact Or.inl (Or.inl h)
          · exact Or.inr h
        · rintro ((h | h) | h)
          · exact Or.inr (Or.inl h)
          · exact Or.inl h
          · exact Or.inr (Or.inr h)
      have hany : (entered T e.entrySet s.configuration (i :: l)).any (endsRun T) =
          (endsRun T i || (entered T e.entrySet (insert i s.configuration) l).any (endsRun T)) := by
        rw [Bool.eq_iff_iff, Bool.or_eq_true, List.any_eq_true, List.any_eq_true]
        simp only [entered_cons_of_enters T h]
        constructor
        · rintro ⟨j, rfl | hj, hends⟩
          · exact Or.inl hends
          · exact Or.inr ⟨j, hj, hends⟩
        · rintro (hends | ⟨j, hj, hends⟩)
          · exact ⟨i, Or.inl rfl, hends⟩
          · exact ⟨j, Or.inr hj, hends⟩
      rw [ih, enterState_toMicro_of_enters T cb h, hset, hset, hany]
      simp only [Bool.or_assoc]
    · rw [enterState_of_not_enters T cb h, ih, entered_cons_of_not_enters T h]

def enteredStates (E C : Finset TreePath) : List TreePath := entered T E C T.states

theorem enterStates_toMicro (e : Entry) (s : St ω) :
    (enterStates T cb e s).toMicro =
      { s.toMicro with
        configuration := s.configuration ∪ (enteredStates T e.entrySet s.configuration).toFinset
        initializedData := s.initializedData ∪ (enteredStates T e.entrySet s.configuration).toFinset
        flags := { s.flags with
          topLevelFinal := s.flags.topLevelFinal ||
            (enteredStates T e.entrySet s.configuration).any (endsRun T) } } :=
  foldl_enterState_toMicro T cb e T.states s

/-! ### The microstep -/

def remaining (X C : Finset TreePath) : Finset TreePath := C \ (X ∩ T.states.toFinset)

/-- The entry set of a microstep in the configuration `C` with the recorded history `H`. -/
def entrySet (targetSet X : Finset TreePath) (transSet : Finset TransId) (C H : Finset TreePath) : Finset TreePath :=
  (establishEntrySet T C X H targetSet transSet).entrySet

def newStates (targetSet X : Finset TreePath) (transSet : Finset TransId) (C H : Finset TreePath) : List TreePath :=
  enteredStates T (entrySet T targetSet X transSet C H) (remaining T X C)

def nextConfiguration (targetSet X : Finset TreePath) (transSet : Finset TransId) (C H : Finset TreePath) : Finset TreePath :=
  remaining T X C ∪ (newStates T targetSet X transSet C H).toFinset

theorem microstep_toMicro (targetSet X : Finset TreePath) (transSet : Finset TransId) (s : St ω) :
    (microstep T cb targetSet X transSet s).toMicro =
      { s.toMicro with
        configuration := nextConfiguration T targetSet X transSet s.configuration s.history
        initializedData :=
          s.initializedData ∪ (newStates T targetSet X transSet s.configuration s.history).toFinset
        flags := { s.flags with
          topLevelFinal := s.flags.topLevelFinal ||
            (newStates T targetSet X transSet s.configuration s.history).any (endsRun T) }
        microstepConfigurations := insert (nextConfiguration T targetSet X transSet s.configuration s.history)
          s.microstepConfigurations } := by
  simp only [microstep]
  split
  · simp only [emit_toMicro, enterStates_toMicro, takeTransitions_toMicro, exitStates_toMicro]
    rfl
  · simp only [emit_toMicro, enterStates_toMicro, takeTransitions_toMicro, exitStates_toMicro]
    rfl

theorem mem_nextConfiguration {targetSet X : Finset TreePath} {transSet : Finset TransId} {C H : Finset TreePath}
    {p : TreePath} :
    p ∈ nextConfiguration T targetSet X transSet C H ↔
      (p ∈ C ∧ ¬ (p ∈ X ∧ p ∈ T.states)) ∨
        (p ∈ entrySet T targetSet X transSet C H ∧ p ∈ T.states ∧ (T.state p).type.pseudo = false) := by
  rw [nextConfiguration, Finset.mem_union, List.mem_toFinset, newStates, enteredStates, mem_entered, enters,
    remaining, Finset.mem_sdiff, Finset.mem_inter, List.mem_toFinset]
  by_cases hrem : p ∈ C ∧ ¬ (p ∈ X ∧ p ∈ T.states)
  · simp [hrem]
  · simp only [hrem, false_or, not_false_eq_true, true_and]
    constructor
    · exact fun h => ⟨h.2.1, h.1, h.2.2⟩
    · exact fun h => ⟨h.2.1, h.1, h.2.2⟩

/-! ### The rest of the step -/

theorem manageInvocation_toMicro (s : St ω) (i : TreePath) :
    (manageInvocation T cb s i).toMicro =
      { s.toMicro with
        invocations := if i ∈ s.configuration then insert i s.invocations else s.invocations.erase i } := by
  by_cases hc : i ∈ s.configuration <;> by_cases hi : i ∈ s.invocations
  · simp [manageInvocation, hc, hi]
  · simp [manageInvocation, hc, hi]
  · simp [manageInvocation, hc, hi]
  · simp [manageInvocation, hc, hi]

theorem foldl_manageInvocation_toMicro (l : List TreePath) (s : St ω) :
    (l.foldl (manageInvocation T cb) s).toMicro =
      { s.toMicro with
        invocations := (s.invocations \ l.toFinset) ∪ (s.configuration ∩ l.toFinset) } := by
  induction l generalizing s with
  | nil => simp
  | cons i l ih =>
    rw [List.foldl_cons, ih, manageInvocation_toMicro]
    refine congrArg (fun S => { s.toMicro with invocations := S }) ?_
    ext p
    by_cases hc : i ∈ s.configuration <;> by_cases hp : p = i <;> simp [hc, hp, Classical.em, or_comm]

theorem manageInvocations_toMicro (s : St ω) :
    (manageInvocations T cb s).toMicro =
      { s.toMicro with
        invocations := (s.invocations \ T.states.toFinset) ∪ (s.configuration ∩ T.states.toFinset) } :=
  foldl_manageInvocation_toMicro T cb T.states s

theorem completeState_toMicro (s : St ω) (i : TreePath) :
    (completeState T cb s i).toMicro = { s.toMicro with invocations := s.invocations.erase i } := by
  by_cases hc : i ∈ s.configuration <;> by_cases hi : i ∈ s.invocations
  · simp [completeState, hc, hi]
  · simp [completeState, hc, hi]
  · simp [completeState, hc, hi]
  · simp [completeState, hc, hi]

theorem foldl_completeState_toMicro (l : List TreePath) (s : St ω) :
    (l.foldl (completeState T cb) s).toMicro = { s.toMicro with invocations := s.invocations \ l.toFinset } := by
  induction l generalizing s with
  | nil => simp
  | cons i l ih =>
    rw [List.foldl_cons, ih, completeState_toMicro]
    refine congrArg (fun S => { s.toMicro with invocations := S }) ?_
    ext p
    by_cases hp : p = i <;> simp [hp]

theorem complete_toMicro (s : St ω) :
    (complete T cb s).toMicro =
      { s.toMicro with
        invocations := s.invocations \ T.states.toFinset
        flags := { s.flags with finished := true } } := by
  simp only [complete, emit_toMicro, foldl_completeState_toMicro, List.toFinset_reverse]

/-! ### The phases of a step -/

/-- What a step comes to before it selects transitions, with the state it is then in. -/
inductive Phase (ω : Type) where
  | finished
  | completion
  | start
  | select (s : St ω)
  | stable (s : St ω)
  | thrown (s : St ω)
  | unblocked (s : St ω)

def processing (event : Event) (s : St ω) : St ω := emit (.beforeProcessingEvent event) { s with event := event }

/-- The state a step is in when it has asked for an external event. -/
def dequeued (event : Event) (w : ω) (s : St ω) : St ω := { emit .dequeueExternal s with env := w, event := event }

def phaseExternal (s : St ω) : Phase ω :=
  if s.flags.stable = false then .stable s
  else
    match cb.dequeueExternal s.configuration s.env with
    | (.error _, w) => .thrown (dequeued s.event w s)
    | (.ok event, w) =>
      if event.toBool then .select (processing event (dequeued event w s)) else .unblocked (dequeued event w s)

def phase (s : St ω) : Phase ω :=
  if s.flags.finished then .finished
  else if s.flags.topLevelFinal then .completion
  else if s.flags.pristine then .start
  else if s.flags.spontaneous then .select { s with event := {} }
  else
    match cb.dequeueInternal s.env with
    | (event, w) =>
      if event.toBool then .select (processing event { s with env := w })
      else phaseExternal cb (manageInvocations T cb { s with event := event, env := w })

/-- The end of a step after its first phase. -/
def Phase.finish (s : St ω) : Phase ω → StepResult × St ω
  | .finished => (.returned .finished, s)
  | .completion => (.returned .finished, complete T cb s)
  | .start =>
    (.returned .microstepped, microstep T cb (T.state []).completion ∅ ∅ (emit .beforeMicroStep
      { s with flags := { s.flags with spontaneous := true, initialized := true } }))
  | .select s => selectAndStep T cb s
  | .stable s =>
    (.returned .macrostepped, { emit .onStableConfiguration s with
      microstepConfigurations := ∅, flags := { s.flags with stable := true } })
  | .thrown s => (.thrown, s)
  | .unblocked s =>
    if s.isCancelled then (.returned .cancelled, { s with flags := { s.flags with topLevelFinal := true } })
    else (.returned .idle, s)

theorem stepExternal_eq_phase (s₀ s : St ω) :
    stepExternal T cb s = (phaseExternal cb (manageInvocations T cb s)).finish T cb s₀ := by
  generalize hm : manageInvocations T cb s = s₁
  rw [stepExternal, phaseExternal, hm]
  rcases hdeq : cb.dequeueExternal s₁.configuration s₁.env with ⟨_ | event, w⟩
  · simp only
    split <;> rfl
  · simp only
    split
    · rfl
    split
    · rfl
    · rfl

theorem step_eq_phase (s : St ω) : step T cb s = (phase T cb s).finish T cb s := by
  rw [step, phase]
  split
  · rfl
  split
  · rfl
  split
  · rfl
  split
  · rfl
  rcases hdeq : cb.dequeueInternal s.env with ⟨event, w⟩
  simp only
  split
  · rfl
  · exact stepExternal_eq_phase T cb s _

/-- In the phases with a state in them the run has started, and the state has got at most another event and
other invocations. -/
structure Continues (s s₀ : St ω) : Prop where
  finished : s.flags.finished = false
  topLevelFinal : s.flags.topLevelFinal = false
  pristine : s.flags.pristine = false
  micro : ∃ event invocations, s₀.toMicro = { s.toMicro with event := event, invocations := invocations }

theorem Continues.withEvent {s s₁ s₂ : St ω} (h : Continues s s₁) {event : Event}
    (h₂ : s₂.toMicro = { s₁.toMicro with event := event }) : Continues s s₂ := by
  obtain ⟨e, i, hm⟩ := h.micro
  exact ⟨h.finished, h.topLevelFinal, h.pristine, event, i, by rw [h₂, hm]⟩

def Phase.Reached (s : St ω) : Phase ω → Prop
  | .finished => s.flags.finished = true
  | .completion => s.flags.finished = false ∧ s.flags.topLevelFinal = true
  | .start => s.flags.pristine = true
  | .select s₀ | .stable s₀ | .thrown s₀ | .unblocked s₀ => Continues s s₀

theorem phaseExternal_reached {s s₁ : St ω} (h : Continues s s₁) : (phaseExternal cb s₁).Reached s := by
  rw [phaseExternal]
  split
  · exact h
  rcases cb.dequeueExternal s₁.configuration s₁.env with ⟨_ | event, w⟩
  · exact h.withEvent rfl
  · simp only
    split
    · exact h.withEvent rfl
    · exact h.withEvent rfl

theorem phase_reached (s : St ω) : (phase T cb s).Reached s := by
  rw [phase]
  split
  · assumption
  rename_i hf
  rw [Bool.not_eq_true] at hf
  split
  · exact ⟨hf, by assumption⟩
  rename_i ht
  rw [Bool.not_eq_true] at ht
  split
  · assumption
  rename_i hp
  rw [Bool.not_eq_true] at hp
  split
  · exact ⟨hf, ht, hp, _, _, rfl⟩
  rcases cb.dequeueInternal s.env with ⟨event, w⟩
  simp only
  split
  · exact ⟨hf, ht, hp, _, _, rfl⟩
  · exact phaseExternal_reached cb ⟨hf, ht, hp, _, _, manageInvocations_toMicro T cb _⟩

/-- The step goes on to select transitions or to look for an event. -/
structure Runs (s : St ω) : Prop where
  finished : s.flags.finished = false
  topLevelFinal : s.flags.topLevelFinal = false
  pristine : s.flags.pristine = false

/-- The step finds no event in the internal queue. -/
structure Drains (s : St ω) : Prop extends Runs s where
  spontaneous : s.flags.spontaneous = false
  internal : (cb.dequeueInternal s.env).1.toBool = false

/-- The state such a step is in when it has managed the invocations. -/
def drained (s : St ω) : St ω :=
  manageInvocations T cb { s with event := (cb.dequeueInternal s.env).1, env := (cb.dequeueInternal s.env).2 }

/-- The step calls `dequeueExternal`, in the state `drained`. -/
structure AsksExternal (s : St ω) : Prop extends Drains cb s where
  stable : s.flags.stable = true

instance (s : St ω) : Decidable (Runs s) :=
  decidable_of_iff (s.flags.finished = false ∧ s.flags.topLevelFinal = false ∧ s.flags.pristine = false)
    ⟨fun h => ⟨h.1, h.2.1, h.2.2⟩, fun h => ⟨h.finished, h.topLevelFinal, h.pristine⟩⟩

instance (s : St ω) : Decidable (Drains cb s) :=
  decidable_of_iff (Runs s ∧ s.flags.spontaneous = false ∧ (cb.dequeueInternal s.env).1.toBool = false)
    ⟨fun h => ⟨h.1, h.2.1, h.2.2⟩, fun h => ⟨h.toRuns, h.spontaneous, h.internal⟩⟩

instance (s : St ω) : Decidable (AsksExternal cb s) :=
  decidable_of_iff (Drains cb s ∧ s.flags.stable = true) ⟨fun h => ⟨h.1, h.2⟩, fun h => ⟨h.toDrains, h.stable⟩⟩

/-- How a step comes to a phase. -/
inductive Arises (s : St ω) : Phase ω → Prop where
  | finished (h : s.flags.finished = true) : Arises s .finished
  | completion (h : s.flags.finished = false) (ht : s.flags.topLevelFinal = true) : Arises s .completion
  | start (h : s.flags.pristine = true) : Arises s .start
  | eventless (h : Runs s) (hs : s.flags.spontaneous = true) : Arises s (.select { s with event := {} })
  | internal (h : Runs s) (hs : s.flags.spontaneous = false) (he : (cb.dequeueInternal s.env).1.toBool = true) :
      Arises s (.select (processing (cb.dequeueInternal s.env).1 { s with env := (cb.dequeueInternal s.env).2 }))
  | stable (h : Drains cb s) (hs : s.flags.stable = false) : Arises s (.stable (drained T cb s))
  | thrown (h : AsksExternal cb s) (w : ω) (u : Unit)
      (hd : cb.dequeueExternal s.configuration (drained T cb s).env = (.error u, w)) :
      Arises s (.thrown (dequeued (drained T cb s).event w (drained T cb s)))
  | external (h : AsksExternal cb s) (event : Event) (w : ω)
      (hd : cb.dequeueExternal s.configuration (drained T cb s).env = (.ok event, w)) (he : event.toBool = true) :
      Arises s (.select (processing event (dequeued event w (drained T cb s))))
  | unblocked (h : AsksExternal cb s) (event : Event) (w : ω)
      (hd : cb.dequeueExternal s.configuration (drained T cb s).env = (.ok event, w)) (he : event.toBool = false) :
      Arises s (.unblocked (dequeued event w (drained T cb s)))

theorem drained_toMicro (s : St ω) :
    (drained T cb s).toMicro =
      { s.toMicro with
        event := (cb.dequeueInternal s.env).1
        invocations := (s.invocations \ T.states.toFinset) ∪ (s.configuration ∩ T.states.toFinset) } :=
  manageInvocations_toMicro T cb _

theorem phase_arises (s : St ω) : Arises T cb s (phase T cb s) := by
  have hconf : (drained T cb s).configuration = s.configuration := by rw [drained_toMicro]
  have hflags : (drained T cb s).flags = s.flags := by rw [drained_toMicro]
  rw [phase]
  split
  · exact .finished (by assumption)
  rename_i hf
  rw [Bool.not_eq_true] at hf
  split
  · exact .completion hf (by assumption)
  rename_i ht
  rw [Bool.not_eq_true] at ht
  split
  · exact .start (by assumption)
  rename_i hp
  rw [Bool.not_eq_true] at hp
  split
  · exact .eventless ⟨hf, ht, hp⟩ (by assumption)
  rename_i hs
  rw [Bool.not_eq_true] at hs
  simp only
  split
  · exact .internal ⟨hf, ht, hp⟩ hs (by assumption)
  rename_i he
  rw [Bool.not_eq_true] at he
  change Arises T cb s (phaseExternal cb (drained T cb s))
  rw [phaseExternal, hflags, hconf]
  split
  · exact .stable ⟨⟨hf, ht, hp⟩, hs, he⟩ (by assumption)
  rename_i hstable
  rw [Bool.not_eq_false] at hstable
  have hasks : AsksExternal cb s := ⟨⟨⟨hf, ht, hp⟩, hs, he⟩, hstable⟩
  rcases hd : cb.dequeueExternal s.configuration (drained T cb s).env with ⟨u | event, w⟩
  · exact .thrown hasks w u hd
  · simp only
    split
    · exact .external hasks event w hd (by assumption)
    · exact .unblocked hasks event w hd (by simpa using ‹¬ event.toBool = true›)

/-! ### The microstep of a step -/

/-- A microstep: the configuration it starts from with the recorded history, and what was selected. -/
structure Microstep where
  configuration : Finset TreePath
  history : Finset TreePath
  targetSet : Finset TreePath
  exitSet : Finset TreePath
  transSet : Finset TransId

def Microstep.entry (m : Microstep) : Entry :=
  establishEntrySet T m.configuration m.exitSet m.history m.targetSet m.transSet

def Microstep.next (m : Microstep) : Finset TreePath :=
  nextConfiguration T m.targetSet m.exitSet m.transSet m.configuration m.history

def Selection.microstep (sel : Selection ω) (m : Micro) : Microstep where
  configuration := m.configuration
  history := rememberHistory T m.configuration (sel.exitSet ∩ m.configuration) m.history
  targetSet := sel.targetSet
  exitSet := sel.exitSet ∩ m.configuration
  transSet := sel.transSet

/-- The microstep a step takes, if it takes one. -/
def microstepOf (s : St ω) : Option Microstep :=
  match phase T cb s with
  | .start =>
    some {
      configuration := s.configuration, history := s.history, targetSet := (T.state []).completion
      exitSet := ∅, transSet := ∅ }
  | .select s₀ =>
    let sel := selectTransitions T cb s₀.configuration s₀.event s₀.env
    if sel.found then some (sel.microstep T s₀.toMicro) else none
  | _ => none

/-- What a call of `step` does to the configuration and the recorded history. -/
inductive Moves (s s' : St ω) : Prop where
  /-- No microstep is taken. -/
  | stays (hnone : microstepOf T cb s = none) (hpristine : s.flags.pristine = false)
      (hconf : s'.configuration = s.configuration) (hhist : s'.history = s.history)
      (hflag : s'.flags.initialized = s.flags.initialized)
  /-- The microstep that starts the run. -/
  | starts (m : Microstep) (hsome : microstepOf T cb s = some m) (hpristine : s.flags.pristine = true)
      (hm : m = ⟨s.configuration, s.history, (T.state []).completion, ∅, ∅⟩)
      (hconf : s'.configuration = m.next T) (hhist : s'.history = m.history)
      (hflag : s'.flags.initialized = true)
  /-- A microstep for the transitions selected with some event and environment. -/
  | takes (m : Microstep) (hsome : microstepOf T cb s = some m) (hpristine : s.flags.pristine = false)
      (event : Event) (w : ω) (sel : Selection ω) (hsel : sel = selectTransitions T cb s.configuration event w)
      (hm : m = sel.microstep T s.toMicro) (hfound : sel.found = true)
      (hconf : s'.configuration = m.next T) (hhist : s'.history = m.history)
      (hflag : s'.flags.initialized = s.flags.initialized)

/-- The state in which the microstep for the selected transitions begins. -/
def prepared (sel : Selection ω) (s : St ω) : St ω :=
  { emit .beforeMicroStep { s with
      env := sel.env, flags := { s.flags with stable := false, spontaneous := true } } with
    history := rememberHistory T s.configuration (sel.exitSet ∩ s.configuration) s.history }

theorem selectAndStep_of_found {s : St ω} {sel : Selection ω}
    (hsel : selectTransitions T cb s.configuration s.event s.env = sel) (h : sel.found = true) :
    selectAndStep T cb s = (.returned .microstepped,
      microstep T cb sel.targetSet (sel.exitSet ∩ s.configuration) sel.transSet (prepared T sel s)) := by
  simp only [selectAndStep, hsel, h, if_true]
  rfl

theorem selectAndStep_of_not_found {s : St ω} {sel : Selection ω}
    (hsel : selectTransitions T cb s.configuration s.event s.env = sel) (h : sel.found = false) :
    selectAndStep T cb s = (.returned .microstepped,
      { s with env := sel.env, flags := { s.flags with stable := false, spontaneous := false } }) := by
  simp [selectAndStep, hsel, h]

theorem microstepOf_select {s s₀ : St ω} (h : phase T cb s = .select s₀) {sel : Selection ω}
    (hsel : selectTransitions T cb s₀.configuration s₀.event s₀.env = sel) :
    microstepOf T cb s = if sel.found then some (sel.microstep T s₀.toMicro) else none := by
  simp only [microstepOf, h, hsel]

theorem select_moves {s s₀ : St ω} (h : phase T cb s = .select s₀) (hs : Continues s s₀) :
    Moves T cb s (selectAndStep T cb s₀).2 := by
  obtain ⟨e, i, hmicro⟩ := hs.micro
  have hc : s₀.configuration = s.configuration := by rw [hmicro]
  have hh : s₀.history = s.history := by rw [hmicro]
  have hf : s₀.flags = s.flags := by rw [hmicro]
  generalize hsel : selectTransitions T cb s₀.configuration s₀.event s₀.env = sel
  have hm := microstepOf_select T cb h hsel
  cases hfound : sel.found with
  | true =>
    rw [selectAndStep_of_found T cb hsel hfound]
    rw [hfound, if_pos rfl] at hm
    refine .takes _ hm hs.pristine s₀.event s₀.env sel (by rw [← hc, hsel]) ?_ hfound ?_ ?_ ?_
    · simp only [Selection.microstep, hc, hh]
    · simp only [microstep_toMicro, prepared, emit_toMicro, Microstep.next, Selection.microstep]
    · simp only [microstep_toMicro, prepared, Selection.microstep]
    · simp only [microstep_toMicro, prepared, emit_toMicro, hf]
  | false =>
    rw [selectAndStep_of_not_found T cb hsel hfound]
    rw [hfound, if_neg Bool.false_ne_true] at hm
    exact .stays hm hs.pristine hc hh (by simp only [hf])

theorem step_moves (s : St ω) : Moves T cb s (step T cb s).2 := by
  have hnot : ∀ {f : Flags}, f.finished = true ∨ f.topLevelFinal = true → f.pristine = false := by
    intro f hf
    rw [Flags.pristine, decide_eq_false_iff_not]
    rintro rfl
    simp at hf
  have hstays : ∀ s₀ : St ω, Continues s s₀ → microstepOf T cb s = none → ∀ {s' : St ω},
      s'.configuration = s₀.configuration → s'.history = s₀.history →
      s'.flags.initialized = s₀.flags.initialized → Moves T cb s s' := by
    intro s₀ hs hnone s' hc hh hf
    obtain ⟨e, i, hmicro⟩ := hs.micro
    rw [hmicro] at hc hh hf
    exact .stays hnone hs.pristine hc hh hf
  have hreached := phase_reached T cb s
  rw [step_eq_phase]
  cases h : phase T cb s with
  | finished =>
    rw [h] at hreached
    exact .stays (by simp only [microstepOf, h]) (hnot (Or.inl hreached)) rfl rfl rfl
  | completion =>
    rw [h] at hreached
    exact .stays (by simp only [microstepOf, h]) (hnot (Or.inr hreached.2)) (by simp [Phase.finish, complete_toMicro])
      (by simp [Phase.finish, complete_toMicro]) (by simp [Phase.finish, complete_toMicro])
  | start =>
    rw [h] at hreached
    exact .starts _ (by simp only [microstepOf, h]) hreached rfl (by simp [Phase.finish, microstep_toMicro, Microstep.next])
      (by simp [Phase.finish, microstep_toMicro]) (by simp [Phase.finish, microstep_toMicro])
  | select s₀ => exact select_moves T cb h (by rwa [h] at hreached)
  | stable s₀ => exact hstays s₀ (by rwa [h] at hreached) (by simp only [microstepOf, h]) rfl rfl rfl
  | thrown s₀ => exact hstays s₀ (by rwa [h] at hreached) (by simp only [microstepOf, h]) rfl rfl rfl
  | unblocked s₀ =>
    rw [h] at hreached
    rw [Phase.finish]
    split
    · exact hstays s₀ hreached (by simp only [microstepOf, h]) rfl rfl rfl
    · exact hstays s₀ hreached (by simp only [microstepOf, h]) rfl rfl rfl

theorem microstepOf_configuration {s : St ω} {m : Microstep} (h : microstepOf T cb s = some m) :
    m.configuration = s.configuration := by
  cases step_moves T cb s with
  | stays hnone => simp [hnone] at h
  | starts m' hsome _ hm =>
    rw [hsome] at h
    cases h
    rw [hm]
  | takes m' hsome _ event w sel _ hm =>
    rw [hsome] at h
    cases h
    rw [hm]
    rfl

theorem Reachable.configuration_subset {s : St ω} (hs : Reachable T cb s) : ∀ p ∈ s.configuration, p ∈ T.states := by
  have hnext : ∀ m : Microstep, (∀ p ∈ m.configuration, p ∈ T.states) → ∀ p ∈ m.next T, p ∈ T.states := by
    intro m hm p hp
    rcases (mem_nextConfiguration T).mp hp with h | h
    · exact hm p h.1
    · exact h.2.1
  induction hs with
  | init w => simp
  | environment w _ ih => exact ih
  | cancel _ ih => exact ih
  | @step s _ ih =>
    cases step_moves T cb s with
    | stays _ _ hconf => rwa [hconf]
    | starts m hsome _ _ hconf =>
      rw [hconf]
      exact hnext m (microstepOf_configuration T cb hsome ▸ ih)
    | takes m hsome _ _ _ _ _ _ _ hconf =>
      rw [hconf]
      exact hnext m (microstepOf_configuration T cb hsome ▸ ih)

end FastMicroStep

end Uscxml
