import Uscxml.FastMicroStep.Trace

/-!
# What a step returns

The exits of `step` beside what it reports to monitors on the way there. A step that selects transitions and finds none
returns from there as if it had taken a microstep.
-/

namespace Uscxml

namespace FastMicroStep

variable {ω β : Type} (T : Tables) (cb : Callbacks ω)

/-- The reports that a result is about. -/
def isMark : Call → Bool
  | .beforeMicroStep | .afterMicroStep _ | .onStableConfiguration | .beforeCompletion | .afterCompletion => true
  | _ => false

def marks (l : List Call) : List Call := l.filter isMark

def isBeforeMicroStep : Call → Bool
  | .beforeMicroStep => true
  | _ => false

def isAfterMicroStep : Call → Bool
  | .afterMicroStep _ => true
  | _ => false

/-- The step comes to select transitions and there is none to take. -/
def SelectsInVain (s : St ω) : Prop :=
  match phase T cb s with
  | .select s₀ => (selectTransitions T cb s₀.configuration s₀.event s₀.env).found = false
  | _ => False

instance (s : St ω) : Decidable (SelectsInVain T cb s) :=
  match h : phase T cb s with
  | .select s₀ =>
    decidable_of_iff ((selectTransitions T cb s₀.configuration s₀.event s₀.env).found = false)
      (by rw [SelectsInVain, h])
  | .finished | .completion | .start | .stable _ | .thrown _ | .unblocked _ => .isFalse (by simp [SelectsInVain, h])

inductive Exits (s : St ω) : StepResult → List Call → Prop where
  | finished (hf : s.flags.finished = true) : Exits s (.returned .finished) []
  | completion (hf : s.flags.finished = false) (hsel : ¬ SelectsInVain T cb s) : Exits s (.returned .finished) [.beforeCompletion, .afterCompletion]
  | microstep (hf : s.flags.finished = false) (hsel : ¬ SelectsInVain T cb s) (C : Finset TreePath) :
      Exits s (.returned .microstepped) [.beforeMicroStep, .afterMicroStep C]
  | vain (hf : s.flags.finished = false) (hsel : SelectsInVain T cb s) : Exits s (.returned .microstepped) []
  | stable (hf : s.flags.finished = false) (hsel : ¬ SelectsInVain T cb s) :
      Exits s (.returned .macrostepped) [.onStableConfiguration]
  | thrown (hf : s.flags.finished = false) (hsel : ¬ SelectsInVain T cb s) : Exits s .thrown []
  | cancelled (hf : s.flags.finished = false) (hsel : ¬ SelectsInVain T cb s) : Exits s (.returned .cancelled) []
  | idle (hasks : AsksExternal cb s) (hsel : ¬ SelectsInVain T cb s) (event : Event) (w : ω)
      (hd : cb.dequeueExternal s.configuration (drained T cb s).env = (.ok event, w)) (he : event.toBool = false) :
      Exits s (.returned .idle) []

/-! ### Reports -/

theorem marks_append (l l' : List Call) : marks (l ++ l') = marks l ++ marks l' := List.filter_append ..

theorem marks_eq_nil {l : List Call} (h : ∀ c ∈ l, isMark c = false) : marks l = [] := by
  rw [marks, List.filter_eq_nil_iff]
  intro c hc
  simp [h c hc]

theorem marks_monitorCalls (l : List Call) : marks (monitorCalls l) = marks l := by
  rw [marks, monitorCalls, List.filter_filter]
  refine List.filter_congr ?_
  intro c _
  cases c <;> rfl

theorem marks_pairs {γ : Type} {g : γ → List Call} (h : ∀ a, ∀ c ∈ g a, isMark c = false) (l : List γ) :
    marks (l.flatMap g) = [] := by
  apply marks_eq_nil
  intro c hc
  obtain ⟨a, -, hc⟩ := List.mem_flatMap.mp hc
  exact h a c hc

theorem marks_microstep (m : Microstep) (I : Finset TreePath) : marks (m.calls T I) = [.afterMicroStep (m.next T)] := by
  have hexit : ∀ i, ∀ c ∈ exitPair i, isMark c = false := by
    intro i c hc
    simp only [exitPair, List.mem_cons, List.not_mem_nil, or_false] at hc
    rcases hc with rfl | rfl <;> rfl
  have htake : ∀ t, ∀ c ∈ transitionPair t, isMark c = false := by
    intro t c hc
    simp only [transitionPair, List.mem_cons, List.not_mem_nil, or_false] at hc
    rcases hc with rfl | rfl <;> rfl
  have henter : ∀ i, ∀ c ∈ enterPair T (m.entry T).transSet i, isMark c = false := by
    intro i c hc
    simp only [enterPair, List.mem_cons, List.mem_flatMap] at hc
    rcases hc with rfl | rfl | ⟨t, -, hc⟩
    · rfl
    · rfl
    · exact htake t c hc
  rw [← marks_monitorCalls, monitorCalls_microstep, marks_append, marks_append, marks_append, marks_pairs hexit,
    marks_pairs htake, marks_pairs henter]
  rfl

theorem marks_opens {m : Micro} {l : List Call} (h : Opens T m l) : marks l = [] := by
  rw [← marks_monitorCalls]
  apply marks_eq_nil
  intro c hc
  obtain ⟨event, rfl⟩ := monitorCalls_opens T h c hc
  rfl

theorem marks_completion (s : St ω) :
    marks (.beforeCompletion ::
      (T.states.reverse.flatMap (completeCalls T s.configuration s.invocations) ++ [.afterCompletion])) =
      [.beforeCompletion, .afterCompletion] := by
  have hround : ∀ i, ∀ c ∈ completeCalls T s.configuration s.invocations i, isMark c = false := by
    intro i c hc
    rw [completeCalls] at hc
    rcases List.mem_append.mp hc with hc | hc
    · split at hc
      · obtain ⟨r, -, rfl⟩ := List.mem_map.mp hc
        rfl
      · simp at hc
    · split at hc
      · obtain ⟨r, -, rfl⟩ := List.mem_map.mp hc
        rfl
      · simp at hc
  have hcons : ∀ l, marks (.beforeCompletion :: l) = .beforeCompletion :: marks l := fun _ => rfl
  rw [hcons, marks_append, marks_pairs hround]
  rfl

/-! ### Exits -/

theorem microstep_marks (hT : T.states.Pairwise (· < ·)) (targetSet X : Finset TreePath) (transSet : Finset TransId)
    (s : St ω) : ∃ l C, (microstep T cb targetSet X transSet s).calls = s.calls ++ l ∧ marks l = [.afterMicroStep C] := by
  refine ⟨_, nextConfiguration T targetSet X transSet s.configuration s.history,
    microstep_calls T cb hT targetSet X transSet s, ?_⟩
  rw [marks_append, marks_microstep]
  split
  · rfl
  · rfl

theorem step_exits (hT : T.states.Pairwise (· < ·)) (s : St ω) :
    ∃ l, (step T cb s).2.calls = s.calls ++ l ∧ Exits T cb s (step T cb s).1 (marks l) := by
  have hnodup : T.states.Nodup := hT.imp fun h => ne_of_lt h
  have harises := phase_arises T cb s
  have hreached := phase_reached T cb s
  have hopened := phase_opened T cb hnodup s
  rw [step_eq_phase]
  cases h : phase T cb s with
  | finished =>
    rw [h] at hreached
    exact ⟨[], by simp [Phase.finish], .finished hreached⟩
  | completion =>
    rw [h] at hreached
    refine ⟨_, complete_calls T cb hnodup s, ?_⟩
    rw [marks_completion]
    exact .completion hreached.1 (by simp [SelectsInVain, h])
  | start =>
    rw [h] at hreached
    have hsel : ¬ SelectsInVain T cb s := by simp [SelectsInVain, h]
    have hflags : s.flags = {} := by simpa [Phase.Reached, Flags.pristine] using hreached
    have hf : s.flags.finished = false := by rw [hflags]
    obtain ⟨l, C, hcalls, hmarks⟩ := microstep_marks T cb hT (T.state []).completion ∅ ∅ (emit .beforeMicroStep
      { s with flags := { s.flags with spontaneous := true, initialized := true } })
    refine ⟨.beforeMicroStep :: l, ?_, ?_⟩
    · rw [Phase.finish, hcalls]
      simp
    · have hcons : marks (.beforeMicroStep :: l) = .beforeMicroStep :: marks l := rfl
      rw [hcons, hmarks]
      exact .microstep hf hsel C
  | select s₀ =>
    rw [h] at hreached hopened
    obtain ⟨l, hl, hcalls⟩ := hopened
    generalize hsel : selectTransitions T cb s₀.configuration s₀.event s₀.env = sel
    rw [Phase.finish]
    cases hfound : sel.found with
    | true =>
      have hsel' : ¬ SelectsInVain T cb s := by simp [SelectsInVain, h, hsel, hfound]
      rw [selectAndStep_of_found T cb hsel hfound]
      obtain ⟨l', C, hcalls', hmarks⟩ := microstep_marks T cb hT sel.targetSet (sel.exitSet ∩ s₀.configuration)
        sel.transSet (prepared T sel s₀)
      refine ⟨l ++ .beforeMicroStep :: l', ?_, ?_⟩
      · rw [hcalls']
        simp [prepared, hcalls]
      · have hcons : marks (.beforeMicroStep :: l') = .beforeMicroStep :: marks l' := rfl
        rw [marks_append, marks_opens T hl, hcons, hmarks]
        exact .microstep hreached.finished hsel' C
    | false =>
      have hsel' : SelectsInVain T cb s := by simp [SelectsInVain, h, hsel, hfound]
      rw [selectAndStep_of_not_found T cb hsel hfound]
      refine ⟨l, hcalls, ?_⟩
      rw [marks_opens T hl]
      exact .vain hreached.finished hsel'
  | stable s₀ =>
    rw [h] at hreached hopened
    obtain ⟨l, hl, hcalls⟩ := hopened
    refine ⟨l ++ [.onStableConfiguration], by simp [Phase.finish, hcalls], ?_⟩
    rw [marks_append, marks_opens T hl]
    exact .stable hreached.finished (by simp [SelectsInVain, h])
  | thrown s₀ =>
    rw [h] at hreached hopened
    obtain ⟨l, hl, hcalls⟩ := hopened
    refine ⟨l, hcalls, ?_⟩
    rw [marks_opens T hl]
    exact .thrown hreached.finished (by simp [SelectsInVain, h])
  | unblocked s₀ =>
    have hsel : ¬ SelectsInVain T cb s := by simp [SelectsInVain, h]
    rw [h] at hreached hopened harises
    obtain ⟨l, hl, hcalls⟩ := hopened
    rw [Phase.finish]
    split
    · refine ⟨l, hcalls, ?_⟩
      rw [marks_opens T hl]
      exact .cancelled hreached.finished hsel
    · refine ⟨l, hcalls, ?_⟩
      rw [marks_opens T hl]
      cases harises with
      | unblocked hasks event w hd he => exact .idle hasks hsel event w hd he

/-! ### Runs -/

inductive ResultRun : St ω → List StepResult → Prop where
  | init (w : ω) : ResultRun { env := w } []
  | step {s : St ω} {results : List StepResult} :
      ResultRun s results → ResultRun (step T cb s).2 (results ++ [(step T cb s).1])
  | environment {s : St ω} {results : List StepResult} (w : ω) : ResultRun s results → ResultRun { s with env := w } results
  | cancel {s : St ω} {results : List StepResult} : ResultRun s results → ResultRun (markAsCancelled s) results

/-- What the reports so far and the earlier results say about the flags. -/
structure Consistent (s : St ω) (results : List StepResult) : Prop where
  finished : s.flags.finished = true ↔ .returned .finished ∈ results
  stable : s.flags.finished = false → s.flags.stable = true → (marks s.calls).getLast? = some .onStableConfiguration

theorem step_flags (s : St ω) :
    ((step T cb s).2.flags.finished = true ↔ (step T cb s).1 = .returned .finished) ∧
      ((step T cb s).2.flags.stable = true → (step T cb s).1 ≠ .returned .microstepped ∧
        ((step T cb s).1 ≠ .returned .macrostepped → s.flags.stable = true)) := by
  have hreached := phase_reached T cb s
  rw [step_eq_phase]
  cases h : phase T cb s with
  | finished =>
    rw [h] at hreached
    simpa [Phase.finish, Phase.Reached] using hreached
  | completion => simp [Phase.finish, complete_toMicro]
  | start =>
    rw [h] at hreached
    have hflags : s.flags = {} := by simpa [Phase.Reached, Flags.pristine] using hreached
    simp [Phase.finish, microstep_toMicro, hflags]
  | select s₀ =>
    rw [h] at hreached
    obtain ⟨e, i, hmicro⟩ := hreached.micro
    have hf : s₀.flags.finished = false := by rw [hmicro]; exact hreached.finished
    generalize hsel : selectTransitions T cb s₀.configuration s₀.event s₀.env = sel
    rw [Phase.finish]
    cases hfound : sel.found with
    | true =>
      rw [selectAndStep_of_found T cb hsel hfound]
      simp [microstep_toMicro, prepared, hf]
    | false =>
      rw [selectAndStep_of_not_found T cb hsel hfound]
      simp [hf]
  | stable s₀ =>
    rw [h] at hreached
    obtain ⟨e, i, hmicro⟩ := hreached.micro
    have hf : s₀.flags.finished = false := by rw [hmicro]; exact hreached.finished
    simp [Phase.finish, hf]
  | thrown s₀ =>
    rw [h] at hreached
    obtain ⟨e, i, hmicro⟩ := hreached.micro
    have hf : s₀.flags = s.flags := by rw [hmicro]
    simp [Phase.finish, hf, hreached.finished]
  | unblocked s₀ =>
    rw [h] at hreached
    obtain ⟨e, i, hmicro⟩ := hreached.micro
    have hf : s₀.flags = s.flags := by rw [hmicro]
    rw [Phase.finish]
    split
    · simp [hf, hreached.finished]
    · simp [hf, hreached.finished]

theorem step_consistent (hT : T.states.Pairwise (· < ·)) {s : St ω} {results : List StepResult}
    (h : Consistent s results) : Consistent (step T cb s).2 (results ++ [(step T cb s).1]) := by
  obtain ⟨hfin, hstable⟩ := step_flags T cb s
  constructor
  · rw [hfin, List.mem_append, List.mem_singleton]
    constructor
    · intro hr
      exact Or.inr hr.symm
    · rintro (hr | hr)
      · rw [step_of_finished cb (h.finished.mpr hr)]
      · exact hr.symm
  · intro hf' hs'
    obtain ⟨hnot, hbefore⟩ := hstable hs'
    have hne : (step T cb s).1 ≠ .returned .finished := by
      intro hr
      rw [hfin.mpr hr] at hf'
      cases hf'
    -- The flag was set before, unless this step has just reported the configuration to be stable.
    have hkeep : s.flags.finished = false → (step T cb s).1 ≠ .returned .macrostepped →
        (marks s.calls ++ []).getLast? = some .onStableConfiguration := by
      intro hf hr
      rw [List.append_nil]
      exact h.stable hf (hbefore hr)
    obtain ⟨l, hcalls, hexits⟩ := step_exits T cb hT s
    rw [hcalls, marks_append]
    generalize step T cb s = r at hexits hnot hne hkeep
    rcases r with ⟨r, s'⟩
    generalize marks l = ms at hexits
    cases hexits with
    | finished hf => exact absurd rfl hne
    | completion hf hsel => exact absurd rfl hne
    | microstep hf hsel C => exact absurd rfl hnot
    | vain hf hsel => exact absurd rfl hnot
    | stable hf hsel => rw [List.getLast?_append, List.getLast?_singleton, Option.some_or]
    | thrown hf hsel => exact hkeep hf (by simp)
    | cancelled hf hsel => exact hkeep hf (by simp)
    | idle hasks hsel event w hd he => exact hkeep hasks.finished (by simp)

theorem consistent_of_run (hT : T.states.Pairwise (· < ·)) {s : St ω} {results : List StepResult}
    (h : ResultRun T cb s results) : Consistent s results := by
  induction h with
  | init w => exact ⟨by simp, by simp⟩
  | step _ ih => exact step_consistent T cb hT ih
  | environment w _ ih => exact ⟨ih.finished, ih.stable⟩
  | cancel _ ih => exact ⟨ih.finished, ih.stable⟩

/-- What a result says about the step that returned it, with the calls `l` of the step and the results before. -/
structure Reports (s : St ω) (results : List StepResult) (r : StepResult) (l : List Call) : Prop where
  microstepped : r = .returned .microstepped ↔ l.countP isBeforeMicroStep = 1 ∧ l.countP isAfterMicroStep = 1
  macrostepped : r = .returned .macrostepped ↔ .onStableConfiguration ∈ l
  idle : r = .returned .idle → (marks s.calls).getLast? = some .onStableConfiguration ∧
    (cb.dequeueInternal s.env).1.toBool = false ∧
    ∃ event w, cb.dequeueExternal s.configuration (drained T cb s).env = (.ok event, w) ∧ event.toBool = false
  finished : (r = .returned .finished ∧ .returned .finished ∉ results) ↔ .beforeCompletion ∈ l ∧ .afterCompletion ∈ l

theorem countP_marks {p : Call → Bool} (hp : ∀ c, p c = true → isMark c = true) (l : List Call) :
    l.countP p = (marks l).countP p := by
  rw [marks, List.countP_filter]
  refine List.countP_congr ?_
  intro c _
  simp only [Bool.and_eq_true]
  exact ⟨fun h => ⟨h, hp c h⟩, fun h => h.1⟩

theorem mem_marks {c : Call} (hc : isMark c = true) {l : List Call} : c ∈ l ↔ c ∈ marks l := by
  rw [marks, List.mem_filter]
  exact ⟨fun h => ⟨h, hc⟩, fun h => h.1⟩

theorem reports_iff {s : St ω} {results : List StepResult} (hs : Consistent s results) {r : StepResult} {l : List Call}
    (h : Exits T cb s r (marks l)) : Reports T cb s results r l ↔ ¬ SelectsInVain T cb s := by
  have hbefore : l.countP isBeforeMicroStep = (marks l).countP isBeforeMicroStep :=
    countP_marks (by intro c hc; cases c <;> first | rfl | cases hc) l
  have hafter : l.countP isAfterMicroStep = (marks l).countP isAfterMicroStep :=
    countP_marks (by intro c hc; cases c <;> first | rfl | cases hc) l
  have hstable : .onStableConfiguration ∈ l ↔ .onStableConfiguration ∈ marks l := mem_marks rfl
  have hcompletion : .beforeCompletion ∈ l ∧ .afterCompletion ∈ l ↔
      .beforeCompletion ∈ marks l ∧ .afterCompletion ∈ marks l := and_congr (mem_marks rfl) (mem_marks rfl)
  have hfirst : s.flags.finished = false → .returned .finished ∉ results := by
    intro hf hr
    rw [hs.finished.mpr hr] at hf
    cases hf
  have hreports : ∀ {r : StepResult} {ms : List Call}, marks l = ms →
      (r = .returned .microstepped ↔ ms.countP isBeforeMicroStep = 1 ∧ ms.countP isAfterMicroStep = 1) →
      (r = .returned .macrostepped ↔ .onStableConfiguration ∈ ms) →
      (r = .returned .idle → (marks s.calls).getLast? = some .onStableConfiguration ∧
        (cb.dequeueInternal s.env).1.toBool = false ∧
        ∃ event w, cb.dequeueExternal s.configuration (drained T cb s).env = (.ok event, w) ∧ event.toBool = false) →
      ((r = .returned .finished ∧ .returned .finished ∉ results) ↔ .beforeCompletion ∈ ms ∧ .afterCompletion ∈ ms) →
      Reports T cb s results r l := by
    rintro r ms rfl h₁ h₂ h₃ h₄
    exact ⟨by rw [hbefore, hafter]; exact h₁, by rw [hstable]; exact h₂, h₃, by rw [hcompletion]; exact h₄⟩
  generalize hms : marks l = ms at h
  cases h with
  | finished hf =>
    have hsel : ¬ SelectsInVain T cb s := by simp [SelectsInVain, phase, hf]
    refine iff_of_true (hreports hms (by simp) (by simp) (by simp) ?_) hsel
    simp [hs.finished.mp hf]
  | completion hf hsel =>
    refine iff_of_true (hreports hms (by simp [isBeforeMicroStep]) (by simp) (by simp) ?_) hsel
    simp [hfirst hf]
  | microstep hf hsel C =>
    have hpair : (StepResult.returned .microstepped = .returned .microstepped) ↔
        [Call.beforeMicroStep, .afterMicroStep C].countP isBeforeMicroStep = 1 ∧
          [Call.beforeMicroStep, .afterMicroStep C].countP isAfterMicroStep = 1 := ⟨fun _ => ⟨rfl, rfl⟩, fun _ => rfl⟩
    exact iff_of_true (hreports hms hpair (by simp) (by simp) (by simp)) hsel
  | vain hf hsel =>
    refine iff_of_false (fun h => ?_) (not_not.mpr hsel)
    have hone := (h.microstepped.mp rfl).1
    rw [hbefore, hms] at hone
    cases hone
  | stable hf hsel =>
    exact iff_of_true (hreports hms (by simp [isBeforeMicroStep]) (by simp) (by simp) (by simp)) hsel
  | thrown hf hsel => exact iff_of_true (hreports hms (by simp) (by simp) (by simp) (by simp)) hsel
  | cancelled hf hsel => exact iff_of_true (hreports hms (by simp) (by simp) (by simp) (by simp)) hsel
  | idle hasks hsel event w hd he =>
    refine iff_of_true (hreports hms (by simp) (by simp) ?_ (by simp)) hsel
    intro _
    exact ⟨hs.stable hasks.finished hasks.stable, hasks.internal, event, w, hd, he⟩

/-- In every run a step returns what has happened, unless it selects transitions and finds none. -/
theorem result_reports_iff (d : Document β) {s : St ω} {results : List StepResult}
    (hrun : ResultRun (init d) cb s results) :
    (∃ l, (step (init d) cb s).2.calls = s.calls ++ l ∧
      Reports (init d) cb s results (step (init d) cb s).1 l) ↔ ¬ SelectsInVain (init d) cb s := by
  have hpair : (init d).states.Pairwise (· < ·) := (resortStates d).tree.preorder_pairwise
  have hs := consistent_of_run _ cb hpair hrun
  obtain ⟨l, hcalls, hexits⟩ := step_exits (init d) cb hpair s
  have hiff := reports_iff _ cb hs hexits
  constructor
  · rintro ⟨l', hcalls', hreports⟩
    obtain rfl : l' = l := List.append_cancel_left (hcalls'.symm.trans hcalls)
    exact hiff.mp hreports
  · intro hsel
    exact ⟨l, hcalls, hiff.mpr hsel⟩

def resultSteps (n : Nat) (x : St ω × List StepResult) : St ω × List StepResult :=
  (fun x => ((step T cb x.1).2, x.2 ++ [(step T cb x.1).1]))^[n] x

theorem ResultRun.steps {x : St ω × List StepResult} (h : ResultRun T cb x.1 x.2) (n : Nat) :
    ResultRun T cb (resultSteps T cb n x).1 (resultSteps T cb n x).2 := by
  induction n with
  | zero => exact h
  | succ n ih =>
    simp only [resultSteps, Function.iterate_succ_apply']
    exact ih.step

def waiting : Document Unit where
  tree :=
    { root := { tag := .scxml }
      kids := .cons { tag := .state, id := some "s",
                      transitions := [{ target := some ["s"], event := some "go" }] } .nil .nil }

/-- `n` steps of this chart with the given external events, and the results. -/
def waitingRun (names : List String) (n : Nat) : St (List Event) × List StepResult :=
  resultSteps (init waiting) externalEvents n ({ env := names.map fun name => { name := name } }, [])

/-- The step that takes the transition. -/
theorem result_reports_waiting :
    (step (init waiting) externalEvents (waitingRun ["go"] 3).1).1 = .returned .microstepped ∧
      ∃ l, (step (init waiting) externalEvents (waitingRun ["go"] 3).1).2.calls = (waitingRun ["go"] 3).1.calls ++ l ∧
        Reports (init waiting) externalEvents (waitingRun ["go"] 3).1 (waitingRun ["go"] 3).2
          (step (init waiting) externalEvents (waitingRun ["go"] 3).1).1 l :=
  ⟨by decide +kernel, (result_reports_iff externalEvents waiting (ResultRun.steps _ _ (.init _) 3)).mpr (by decide +kernel)⟩

/-- The second step finds no eventless transition: it reports nothing and returns `USCXML_MICROSTEPPED`. -/
theorem microstepped_in_vain :
    ¬ ∃ l, (step (init waiting) externalEvents (waitingRun [] 1).1).2.calls = (waitingRun [] 1).1.calls ++ l ∧
      Reports (init waiting) externalEvents (waitingRun [] 1).1 (waitingRun [] 1).2
        (step (init waiting) externalEvents (waitingRun [] 1).1).1 l := by
  rintro ⟨l, hcalls, hreports⟩
  have hresult : (step (init waiting) externalEvents (waitingRun [] 1).1).1 = .returned .microstepped := by
    decide +kernel
  have hlength : (step (init waiting) externalEvents (waitingRun [] 1).1).2.calls.length =
      (waitingRun [] 1).1.calls.length := by decide +kernel
  obtain rfl : l = [] := by
    rw [hcalls, List.length_append] at hlength
    exact List.length_eq_zero_iff.mp (by omega)
  have hone := (hreports.microstepped.mp hresult).1
  cases hone

end FastMicroStep

end Uscxml
