import Uscxml.ChartToC.Agreement
import Uscxml.ChartToC.Finals

/-!
# The blocks of the generated code and of the interpreter

Both are run in one world: the queues, the data model and executable content. Over tables that agree, each block of the
generated code does what the block of the interpreter does, up to what is no part of a microstep.
-/

namespace Uscxml

namespace ChartToC

open Document
open FastMicroStep (Entry Selection)

/-- What a microstepper talks to. Content has no errors, an event that is there has a name, and a queue in which there is none
does not change. -/
structure World (ω : Type) where
  dequeueInternal : ω → Option Event × ω
  dequeueExternal : Finset TreePath → ω → Option Event × ω
  isMatched : Event → String → ω → Bool × ω
  isTrue : Finset TreePath → String → ω → Bool × ω
  raiseDoneEvent : Finset TreePath → TreePath → Option Ref → ω → ω
  initData : Finset TreePath → Ref → ω → ω
  process : Finset TreePath → Ref → ω → ω
  internal_named : ∀ w event, (dequeueInternal w).1 = some event → event.toBool = true
  external_named : ∀ C w event, (dequeueExternal C w).1 = some event → event.toBool = true
  internal_empty : ∀ w, (dequeueInternal w).1 = none → (dequeueInternal w).2 = w

variable {ω : Type}

def World.functions (W : World ω) : Functions ω where
  dequeueInternal := some W.dequeueInternal
  dequeueExternal := some W.dequeueExternal
  isMatched := W.isMatched
  isEnabled := W.isTrue
  raiseDoneEvent := W.raiseDoneEvent
  execContentInit := some fun C block w => block.foldl (fun w r => W.initData C r w) w
  exec C r w := (true, W.process C r w)
  invoke _ _ _ w := w

def World.callbacks (W : World ω) : Callbacks ω where
  dequeueInternal w := ((W.dequeueInternal w).1.getD {}, (W.dequeueInternal w).2)
  dequeueExternal C w := (.ok ((W.dequeueExternal C w).1.getD {}), (W.dequeueExternal C w).2)
  isMatched := W.isMatched
  raiseDoneEvent := W.raiseDoneEvent
  isTrue := W.isTrue
  initData := W.initData
  process := W.process
  invoke _ _ w := w
  uninvoke _ _ w := w

/-! ### Observations -/

inductive Observation where
  | take (transition : TransId)
  | exit (state : TreePath)
  | enter (state : TreePath)
  | exec (block : Ref)
  | initData (data : Ref)
  | settle (configuration : Finset TreePath)
  deriving DecidableEq

def Act.observations : Act → List Observation
  | .exit state => [.exit state]
  | .take transition => [.take transition]
  | .enter state => [.enter state]
  | .exec block => [.exec block]
  | .initData block => block.map .initData
  | .settle configuration => [.settle configuration]
  | .raiseDone _ | .invoke _ _ => []

def callObservations : Call → List Observation
  | .beforeExitingState state => [.exit state]
  | .beforeTakingTransition transition => [.take transition]
  | .beforeEnteringState state => [.enter state]
  | .process block => [.exec block]
  | .initData data => [.initData data]
  | .afterMicroStep configuration => [.settle configuration]
  | _ => []

def observedActs (acts : List Act) : List Observation := acts.flatMap Act.observations

def observedCalls (calls : List Call) : List Observation := calls.flatMap callObservations

theorem observedActs_concat (acts : List Act) (a : Act) : observedActs (acts ++ [a]) = observedActs acts ++ a.observations := by
  rw [observedActs, List.flatMap_append, List.flatMap_singleton]
  rfl

theorem observedCalls_concat (calls : List Call) (call : Call) :
    observedCalls (calls ++ [call]) = observedCalls calls ++ callObservations call := by
  rw [observedCalls, List.flatMap_append, List.flatMap_singleton]
  rfl

/-! ### The simulation relation -/

/-- The generated code and the interpreter have done the same and are in the same state. -/
structure Sim (c : Ctx ω) (s : St ω) : Prop where
  spontaneous : c.flags.spontaneous = s.flags.spontaneous
  initialized : c.flags.initialized = s.flags.initialized
  topLevelFinal : c.flags.topLevelFinal = s.flags.topLevelFinal
  finished : c.flags.finished = s.flags.finished
  stable : s.flags.stable = true → s.flags.initialized = true
  config : c.config = s.configuration
  history : c.history = s.history
  initializedData : c.initializedData = s.initializedData
  cancelled : s.isCancelled = false
  err : c.err = false
  env : c.env = s.env
  observed : observedActs c.acts = observedCalls s.calls

namespace Sim

variable {c : Ctx ω} {s : St ω}

theorem act_emit (h : Sim c s) (a : Act) (call : Call) (hsame : a.observations = callObservations call) :
    Sim (act a c) (FastMicroStep.emit call s) :=
  { h with
    observed := by
      show observedActs (c.acts ++ [a]) = observedCalls (s.calls ++ [call])
      rw [observedActs_concat, observedCalls_concat, h.observed, hsame] }

theorem emit (h : Sim c s) (call : Call) (hnone : callObservations call = []) : Sim c (FastMicroStep.emit call s) :=
  { h with
    observed := by
      show observedActs c.acts = observedCalls (s.calls ++ [call])
      rw [observedCalls_concat, hnone, List.append_nil, h.observed] }

theorem foldl {α : Type} {f : Ctx ω → α → Ctx ω} {g : St ω → α → St ω} {l : List α}
    (hstep : ∀ a ∈ l, ∀ c s, Sim c s → Sim (f c a) (g s a)) (h : Sim c s) : Sim (l.foldl f c) (l.foldl g s) := by
  induction l generalizing c s with
  | nil => exact h
  | cons a l ih =>
    exact ih (fun b hb => hstep b (List.mem_cons_of_mem a hb)) (hstep a List.mem_cons_self c s h)

end Sim

/-! ### Blocks -/

section Blocks

variable (W : World ω) {c : Ctx ω} {s : St ω}

theorem sim_exec (h : Sim c s) (r : Ref) :
    Sim (exec W.functions r c).2 (FastMicroStep.process W.callbacks r s) := by
  have hdone := h.act_emit (.exec r) (.process r) rfl
  exact { hdone with
    env := by
      show W.process c.config r c.env = W.process s.configuration r s.env
      rw [h.config, h.env] }

theorem sim_execAll (h : Sim c s) (blocks : List Ref) :
    Sim (execAll W.functions blocks c) (FastMicroStep.each (FastMicroStep.process W.callbacks) blocks s) :=
  h.foldl fun r _ _ _ h => sim_exec W h r

variable {M : Machine} {T : Tables} (hagree : Agree M T)

include hagree

theorem sim_exitState (h : Sim c s) (X : Finset TreePath) (i : TreePath) :
    Sim (exitState M W.functions X c i) (FastMicroStep.exitState T W.callbacks X s i) := by
  rw [exitState, FastMicroStep.exitState, h.config, hagree.onExit i]
  split
  · have hblocks := sim_execAll W (h.act_emit (.exit i) (.beforeExitingState i) rfl) (T.state i).onExit
    have hleft : Sim { execAll W.functions (T.state i).onExit (act (.exit i) c) with
          config := (execAll W.functions (T.state i).onExit (act (.exit i) c)).config.erase i }
        { FastMicroStep.each (FastMicroStep.process W.callbacks) (T.state i).onExit
            (FastMicroStep.emit (.beforeExitingState i) s) with
          configuration := (FastMicroStep.each (FastMicroStep.process W.callbacks) (T.state i).onExit
            (FastMicroStep.emit (.beforeExitingState i) s)).configuration.erase i } :=
      { hblocks with config := congrArg (fun config => config.erase i) hblocks.config }
    exact hleft.emit _ rfl
  · exact h

theorem sim_exitStates (h : Sim c s) (X : Finset TreePath) :
    Sim (exitStates M W.functions X c) (FastMicroStep.exitStates T W.callbacks X s) := by
  rw [exitStates, FastMicroStep.exitStates, hagree.states]
  exact h.foldl fun i _ _ _ h => sim_exitState W hagree h X i

theorem sim_takeTransition (h : Sim c s) (i : TransId) :
    Sim (takeTransition M W.functions c i) (FastMicroStep.takeTransition T W.callbacks i s) := by
  have htaken := h.act_emit (.take i) (.beforeTakingTransition i) rfl
  rw [takeTransition, if_neg (by rw [h.err]; exact Bool.false_ne_true), FastMicroStep.takeTransition, hagree.onTrans i]
  cases (T.trans i).onTrans with
  | none => exact htaken.emit _ rfl
  | some r =>
    have hexec := sim_exec W htaken r
    have herr : Sim { (exec W.functions r (act (.take i) c)).2 with err := !(exec W.functions r (act (.take i) c)).1 }
        (FastMicroStep.process W.callbacks r (FastMicroStep.emit (.beforeTakingTransition i) s)) :=
      { hexec with err := rfl }
    exact herr.emit _ rfl

theorem transitions_agree {p : TransId → Bool → Bool → Bool} :
    M.transitions.filter (fun i => p i (M.transition i).history (M.transition i).initial) =
      T.transitions.filter fun i => p i (T.trans i).history (T.trans i).initial := by
  rw [hagree.transitions]
  refine List.filter_congr fun i hi => ?_
  rw [hagree.history i hi, hagree.initial i hi]

theorem sim_takeTransitions (h : Sim c s) (transSet : Finset TransId) :
    Sim (takeTransitions M W.functions transSet c) (FastMicroStep.takeTransitions T W.callbacks transSet s) := by
  have hsame := transitions_agree hagree (p := fun i history initial => i ∈ transSet && !(history || initial))
  rw [takeTransitions, FastMicroStep.takeTransitions, hsame]
  exact h.foldl fun i _ _ _ h => sim_takeTransition W hagree h i

theorem sim_initializeData (h : Sim c s) (i : TreePath) :
    Sim (initializeData M W.functions i c)
      (if i ∉ s.initializedData then
        { FastMicroStep.each (FastMicroStep.initData W.callbacks) (T.state i).data s with
          initializedData := insert i (FastMicroStep.each (FastMicroStep.initData W.callbacks) (T.state i).data s).initializedData }
      else s) := by
  have heach : ∀ (l : List Ref) (s : St ω), FastMicroStep.each (FastMicroStep.initData W.callbacks) l s =
      { s with
        env := l.foldl (fun w r => W.initData s.configuration r w) s.env
        calls := s.calls ++ l.map .initData } := by
    intro l
    induction l with
    | nil => exact fun s => by rw [List.map_nil, List.append_nil]; rfl
    | cons r l ih =>
      intro s
      rw [FastMicroStep.each, List.foldl_cons, ← FastMicroStep.each, ih]
      show { s with env := _, calls := (s.calls ++ [Call.initData r]) ++ l.map Call.initData } = _
      rw [List.append_assoc]
      rfl
  have hobserved : ∀ l : List Ref, (l.map Call.initData).flatMap callObservations = l.map .initData := by
    intro l
    induction l with
    | nil => rfl
    | cons r l ih => exact congrArg _ ih
  rw [initializeData, h.initializedData]
  split
  · have hdata : Sim (if (T.state i).data ≠ [] then
          { act (.initData (T.state i).data) c with
            env := (T.state i).data.foldl (fun w r => W.initData c.config r w) c.env }
        else c) (FastMicroStep.each (FastMicroStep.initData W.callbacks) (T.state i).data s) := by
      rw [heach]
      split
      · exact { h with
          env := by
            show (T.state i).data.foldl (fun w r => W.initData c.config r w) c.env = _
            rw [h.config, h.env]
          observed := by
            show observedActs (c.acts ++ [.initData (T.state i).data]) = observedCalls (s.calls ++ _)
            rw [observedActs_concat, observedCalls, List.flatMap_append, ← observedCalls, h.observed, hobserved]
            rfl }
      · rename_i hnone
        rw [not_not.mp hnone, List.map_nil, List.append_nil]
        exact h
    rw [hagree.data i]
    exact { hdata with initializedData := congrArg (insert i) hdata.initializedData }
  · exact h

/-- A final state that is a child of the root ends the run, and there is no parallel above it. -/
structure TopFinals (M : Machine) (T : Tables) : Prop where
  looks : ∀ i ∈ T.states, (T.state i).type = .final → looksTopLevel M i = true
  ancestors : ∀ i ∈ T.states, (T.state i).type = .final → (T.state i).ancestors = {[]}
  root : (T.state []).type ≠ .parallel

theorem sim_handleFinal (htop : TopFinals M T) (h : Sim c s) {i : TreePath} (hi : i ∈ T.states)
    (hfinal : (T.state i).type = .final) :
    Sim (handleFinal M W.functions i c) (FastMicroStep.handleFinal T W.callbacks i s) := by
  have hlooks := htop.looks i hi hfinal
  rw [looksTopLevel, decide_eq_true_iff] at hlooks
  have hends : (T.state i).ancestors.card = 1 ∧ [] ∈ (T.state i).ancestors := by
    rw [htop.ancestors i hi hfinal]
    exact ⟨Finset.card_singleton _, Finset.mem_singleton_self _⟩
  rw [handleFinal, if_pos hlooks, FastMicroStep.handleFinal, if_pos hends]
  have hflag : Sim { c with flags := { c.flags with topLevelFinal := true } }
      { s with flags := { s.flags with topLevelFinal := true } } := { h with topLevelFinal := rfl }
  have hrounds : ∀ (l : List TreePath) (c : Ctx ω), (∀ j ∈ l, j ∈ T.states) → l.foldl (raiseParallel M W.functions i) c = c := by
    intro l c hl
    induction l generalizing c with
    | nil => rfl
    | cons j l ih =>
      have hround : raiseParallel M W.functions i c j = c := by
        rw [raiseParallel, if_neg]
        rintro ⟨hparallel, hanc⟩
        rw [hagree.ancestors i hi, htop.ancestors i hi hfinal, Finset.mem_singleton] at hanc
        rw [hagree.type j (hl j List.mem_cons_self), hanc] at hparallel
        exact htop.root hparallel
      rw [List.foldl_cons, hround]
      exact ih c fun j hj => hl j (List.mem_cons_of_mem _ hj)
  rw [hrounds _ _ (by rw [hagree.states]; exact fun j hj => hj)]
  exact hflag

theorem sim_enterState (htop : TopFinals M T) (h : Sim c s) (e : Entry) {i : TreePath} (hi : i ∈ T.states) :
    Sim (enterState M W.functions e c i) (FastMicroStep.enterState T W.callbacks e s i) := by
  rw [enterState, if_neg (by rw [h.err]; exact Bool.false_ne_true), FastMicroStep.enterState, h.config, hagree.type i hi,
    hagree.onEntry i hi]
  split
  · have hpseudo : pseudoTransitions M e.transSet i = FastMicroStep.pseudoTransitions T e.transSet i := by
      have hparent : ∀ j, (M.state (M.transition j).source).parent = (T.state (T.trans j).source).parent := by
        intro j
        rw [hagree.source j, hagree.parent]
      have hsame := transitions_agree hagree (p := fun j history initial =>
        j ∈ e.transSet && (history || initial) && (T.state (T.trans j).source).parent = i)
      rw [pseudoTransitions, FastMicroStep.pseudoTransitions]
      simp only [hparent]
      exact hsame
    have hentered : Sim (act (.enter i) { c with config := insert i s.configuration })
        { FastMicroStep.emit (.beforeEnteringState i) s with configuration := insert i s.configuration } := by
      have := h.act_emit (.enter i) (.beforeEnteringState i) rfl
      exact { this with config := rfl }
    have hdata := sim_initializeData W hagree hentered i
    have hblocks := (sim_execAll W hdata (T.state i).onEntry).emit (.afterEnteringState i) rfl
    have htaken := hblocks.foldl (l := FastMicroStep.pseudoTransitions T e.transSet i)
      fun j _ _ _ h => sim_takeTransition W hagree h j
    have hfinals : ∀ c s, Sim c s →
        Sim (if c.err = false ∧ (T.state i).type = .final then handleFinal M W.functions i c else c)
          (if (T.state i).type = .final then FastMicroStep.handleFinal T W.callbacks i s else s) := by
      intro c s h
      by_cases hfinal : (T.state i).type = .final
      · rw [if_pos ⟨h.err, hfinal⟩, if_pos hfinal]
        exact sim_handleFinal W hagree htop h hi hfinal
      · rw [if_neg fun hboth => hfinal hboth.2, if_neg hfinal]
        exact h
    rw [hpseudo]
    exact hfinals _ _ htaken
  · exact h

theorem sim_enterStates (htop : TopFinals M T) (h : Sim c s) (e : Entry) :
    Sim (enterStates M W.functions e c) (FastMicroStep.enterStates T W.callbacks e s) := by
  rw [enterStates, FastMicroStep.enterStates, hagree.states]
  exact h.foldl fun i hi _ _ h => sim_enterState W hagree htop h e hi

omit hagree in
theorem manageInvocation_eq (f : Functions ω) {i : TreePath} (hnone : (M.state i).invoke = []) (c : Ctx ω) :
    ∃ I, manageInvocation M f c i = { c with invocations := I } := by
  rw [manageInvocation, hnone]
  split
  · split
    · exact ⟨_, rfl⟩
    · exact ⟨_, rfl⟩
  · split
    · exact ⟨_, rfl⟩
    · exact ⟨_, rfl⟩

omit hagree in
theorem fast_manageInvocation_eq {i : TreePath} (hnone : (T.state i).invoke = []) (s : St ω) :
    ∃ I, FastMicroStep.manageInvocation T W.callbacks s i = { s with invocations := I } := by
  rw [FastMicroStep.manageInvocation, hnone]
  split
  · split
    · exact ⟨_, rfl⟩
    · exact ⟨_, rfl⟩
  · split
    · exact ⟨_, rfl⟩
    · exact ⟨_, rfl⟩

/-- Managing the invocations is no part of the relation: there are none. -/
theorem sim_manageInvocations (h : Sim c s) : Sim (M.states.foldl (manageInvocation M W.functions) c) s := by
  rw [hagree.states]
  refine List.foldl_invariant (fun c => Sim c s) ?_ h
  intro c i hi h
  obtain ⟨I, hI⟩ := manageInvocation_eq W.functions (hagree.invoke i hi).1 c
  rw [hI]
  exact { h with }

theorem sim_fast_manageInvocations (h : Sim c s) : Sim c (FastMicroStep.manageInvocations T W.callbacks s) := by
  refine List.foldl_invariant (fun s => Sim c s) ?_ h
  intro s i hi h
  obtain ⟨I, hI⟩ := fast_manageInvocation_eq W (hagree.invoke i hi).2 s
  rw [hI]
  exact { h with }

theorem sim_completeState (h : Sim c s) {i : TreePath} (hi : i ∈ T.states) :
    Sim (completeState M W.functions c i) (FastMicroStep.completeState T W.callbacks s i) := by
  have hleft : Sim (if i ∈ c.config then execAll W.functions (M.state i).onExit c else c)
      (if i ∈ s.configuration then FastMicroStep.each (FastMicroStep.process W.callbacks) (T.state i).onExit s else s) := by
    rw [h.config, hagree.onExit i]
    split
    · exact sim_execAll W h (T.state i).onExit
    · exact h
  have hcancelled : ∀ c s, Sim c s → Sim
      (if i ∈ c.invocations then
        { invokeAll W.functions [] true c with invocations := c.invocations.erase i } else c)
      (if i ∈ s.invocations then
        { FastMicroStep.each (FastMicroStep.uninvoke W.callbacks) [] s with invocations := s.invocations.erase i } else s) := by
    intro c s h
    split
    · split
      · exact { h with }
      · exact { h with }
    · split
      · exact { h with }
      · exact h
  rw [completeState, FastMicroStep.completeState, (hagree.invoke i hi).1, (hagree.invoke i hi).2]
  exact hcancelled _ _ hleft

theorem sim_complete (h : Sim c s) : Sim (complete M W.functions c) (FastMicroStep.complete T W.callbacks s) := by
  rw [complete, FastMicroStep.complete, hagree.states]
  have hround : ∀ i ∈ T.states.reverse, ∀ c s, Sim c s →
      Sim (completeState M W.functions c i) (FastMicroStep.completeState T W.callbacks s i) :=
    fun i hi _ _ h => sim_completeState W hagree h (List.mem_reverse.mp hi)
  have hstates := (h.emit .beforeCompletion rfl).foldl hround
  have hfinished : Sim { T.states.reverse.foldl (completeState M W.functions) c with
        flags := { (T.states.reverse.foldl (completeState M W.functions) c).flags with finished := true } }
      { T.states.reverse.foldl (FastMicroStep.completeState T W.callbacks) (FastMicroStep.emit .beforeCompletion s) with
        flags := { (T.states.reverse.foldl (FastMicroStep.completeState T W.callbacks)
          (FastMicroStep.emit .beforeCompletion s)).flags with finished := true } } :=
    { hstates with finished := rfl }
  exact hfinished.emit _ rfl

theorem sim_microstep (htop : TopFinals M T) (h : Sim c s) (targets X : Finset TreePath) (transSet : Finset TransId)
    (hentry : FastMicroStep.establishEntrySet M.tables s.configuration X s.history targets transSet =
      FastMicroStep.establishEntrySet T s.configuration X s.history targets transSet) :
    Sim (microstep M W.functions targets X transSet c).2 (FastMicroStep.microstep T W.callbacks targets X transSet s) := by
  rw [microstep, FastMicroStep.microstep, h.config, h.history, hentry]
  have hexited := sim_exitStates W hagree h X
  have htaken := sim_takeTransitions W hagree hexited
    (FastMicroStep.establishEntrySet T s.configuration X s.history targets transSet).transSet
  have hentered := sim_enterStates W hagree htop htaken
    (FastMicroStep.establishEntrySet T s.configuration X s.history targets transSet)
  have hsettled := hentered.act_emit (.settle _) (.afterMicroStep _) (congrArg (fun C => [Observation.settle C]) hentered.config)
  rw [if_neg (by rw [hentered.err]; exact Bool.false_ne_true)]
  split
  · exact { hsettled.emit .reportIssue rfl with }
  · exact { hsettled with }

/-! ### Selection -/

/-- The event as the interpreter sees it: without one, it has no name. -/
theorem selectTransition_eq {event : Option Event} (hnamed : ∀ e, event = some e → e.toBool = true) (C : Finset TreePath)
    (sel : Selection ω) {i : TransId} (hi : i ∈ T.transitions) :
    selectTransition M W.functions C event sel i =
      FastMicroStep.selectTransition T W.callbacks C (event.getD {}) sel i := by
  have hevent : (event.getD {}).toBool = event.isSome := by
    cases event with
    | none => rfl
    | some e => exact hnamed e rfl
  have hkind : kindMatches event (M.transition i) = FastMicroStep.kindMatches (event.getD {}) (T.trans i) := by
    have hnone := (hagree.event i hi).2
    rw [kindMatches, FastMicroStep.kindMatches, hevent]
    by_cases htext : (T.trans i).event = ""
    · rw [hnone.mpr htext, htext]
      cases event <;> rfl
    · obtain ⟨text, htext'⟩ := Option.ne_none_iff_exists'.mp fun h => htext (hnone.mp h)
      rw [htext', decide_eq_false htext, decide_eq_true htext]
      cases event <;> rfl
  have henabled : ∀ w, enabled W.functions C event (M.transition i) w =
      FastMicroStep.enabled W.callbacks C (event.getD {}) (T.trans i) w := by
    intro w
    have hcond := (hagree.cond i hi).2
    have hasked : ∀ r : Bool × ω,
        (if r.1 then
            if (M.transition i).condition.isNone then (true, r.2) else W.isTrue C ((M.transition i).isEnabled.getD "") r.2
          else (false, r.2)) =
        if r.1 then if (T.trans i).cond = "" then (true, r.2) else W.isTrue C (T.trans i).cond r.2 else (false, r.2) := by
      intro r
      rw [(hagree.cond i hi).1]
      congr 1
      by_cases htext : (T.trans i).cond = ""
      · rw [if_pos htext, if_pos (Option.isNone_iff_eq_none.mpr (hcond.mpr htext))]
      · rw [if_neg htext, if_neg fun hnone => htext (hcond.mp (Option.isNone_iff_eq_none.mp hnone))]
    cases event with
    | none => exact hasked (true, w)
    | some e =>
      have he : e.toBool = true := hnamed e rfl
      simp only [enabled, FastMicroStep.enabled, Option.getD_some, he, if_true, (hagree.event i hi).1]
      exact hasked (W.isMatched e (T.trans i).event w)
  simp only [selectTransition, FastMicroStep.selectTransition, hagree.history i hi, hagree.initial i hi, hagree.source i,
    hagree.target i, hagree.exitSet i, hagree.conflicts i, hkind, henabled]

theorem selectTransitions_eq {event : Option Event} (hnamed : ∀ e, event = some e → e.toBool = true) (C : Finset TreePath)
    (w : ω) : selectTransitions M W.functions C event w =
      FastMicroStep.selectTransitions T W.callbacks C (event.getD {}) w := by
  rw [selectTransitions, FastMicroStep.selectTransitions, hagree.transitions]
  exact List.foldl_congr_of_invariant (fun _ => True) (fun _ _ _ _ => trivial)
    (fun sel i hi _ => selectTransition_eq W hagree hnamed C sel hi) trivial

end Blocks

end ChartToC

end Uscxml
