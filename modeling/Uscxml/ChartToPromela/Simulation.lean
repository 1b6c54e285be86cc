import Uscxml.ChartToC.Runs
import Uscxml.ChartToPromela.Step

/-!
# The process and the interpreter

The process of the Promela model is run in the world of the interpreter: its channels are the queues, an expression is what
the data model makes of it. A pass of the process is one step of the interpreter, or two of which the first one only reports
a stable configuration. The data of the whole document is initialised before the process starts, the interpreter does so
when it enters the root.
-/

namespace Uscxml

namespace ChartToPromela

open Document
open FastMicroStep (Entry Selection)
open ChartToC (Observation)

/-- A world in which events are matched by `nameMatch` and come from `names`, conditions change nothing, `<data>` cannot ask
for the configuration, and a queue in which there is no event does not change. -/
structure World (names : List (List Char)) (ω : Type) extends ChartToC.World ω where
  internal_known : ∀ w event, (dequeueInternal w).1 = some event → event.name.toList ∈ names
  external_known : ∀ C w event, (dequeueExternal C w).1 = some event → event.name.toList ∈ names
  external_empty : ∀ C w, (dequeueExternal C w).1 = none → (dequeueExternal C w).2 = w
  matches_name : ∀ event text w, isMatched event text w = (nameMatch text.toList event.name.toList, w)
  isTrue_env : ∀ C e w, (isTrue C e w).2 = w
  initData_config : ∀ C C' r w, initData C r w = initData C' r w

variable {ω : Type} {names : List (List Char)}

def World.channels (W : World names ω) (disjuncts : String → List String) : Process ω where
  dequeueInternal w := (W.dequeueInternal w).1.map fun event => (event, (W.dequeueInternal w).2)
  dequeueExternal C w := (W.dequeueExternal C w).1.map fun event => (event, (W.dequeueExternal C w).2)
  disjuncts
  isTrue C e w := (W.isTrue C e w).1
  raiseDone := W.raiseDoneEvent
  initData := W.initData ∅
  exec := W.process

/-! ### Observations -/

def isInitData : Observation → Bool
  | .initData _ => true
  | _ => false

/-- The observations of a run of the interpreter without those of data. -/
def observedCalls (calls : List Call) : List Observation := (ChartToC.observedCalls calls).filter fun o => !isInitData o

theorem observedCalls_concat (calls : List Call) (call : Call) :
    observedCalls (calls ++ [call]) =
      observedCalls calls ++ (ChartToC.callObservations call).filter fun o => !isInitData o := by
  rw [observedCalls, ChartToC.observedCalls_concat, List.filter_append]
  rfl

/-! ### The simulation relation -/

/-- The process and the interpreter have done the same and are in the same state. -/
structure Sim (v : Vars ω) (s : St ω) : Prop where
  initialized : s.flags.initialized = true
  spontaneous : v.spontaneous = s.flags.spontaneous
  topLevelFinal : v.topLevelFinal = s.flags.topLevelFinal
  finished : v.finished = s.flags.topLevelFinal
  terminated : v.terminated = s.flags.finished
  config : v.config = s.configuration
  history : v.history = s.history
  data : [] ∈ s.initializedData
  cancelled : s.isCancelled = false
  env : v.env = s.env
  observed : ChartToC.observedActs v.acts = observedCalls s.calls

namespace Sim

variable {v : Vars ω} {s : St ω}

theorem act_emit (h : Sim v s) (a : ChartToC.Act) (call : Call)
    (hsame : a.observations = (ChartToC.callObservations call).filter fun o => !isInitData o) :
    Sim (act a v) (FastMicroStep.emit call s) :=
  { h with
    observed := by
      show ChartToC.observedActs (v.acts ++ [a]) = observedCalls (s.calls ++ [call])
      rw [ChartToC.observedActs_concat, observedCalls_concat, h.observed, hsame] }

theorem emit (h : Sim v s) (call : Call)
    (hnone : (ChartToC.callObservations call).filter (fun o => !isInitData o) = []) : Sim v (FastMicroStep.emit call s) :=
  { h with
    observed := by
      show ChartToC.observedActs v.acts = observedCalls (s.calls ++ [call])
      rw [observedCalls_concat, hnone, List.append_nil, h.observed] }

theorem foldl {α : Type} {f : Vars ω → α → Vars ω} {g : St ω → α → St ω} {l : List α}
    (hstep : ∀ a ∈ l, ∀ v s, Sim v s → Sim (f v a) (g s a)) (h : Sim v s) : Sim (l.foldl f v) (l.foldl g s) := by
  induction l generalizing v s with
  | nil => exact h
  | cons a l ih =>
    apply ih
    · exact fun b hb => hstep b (List.mem_cons_of_mem a hb)
    · exact hstep a List.mem_cons_self v s h

end Sim

/-! ### Blocks -/

section Blocks

variable (W : World names ω) (disjuncts : String → List String) {v : Vars ω} {s : St ω}

theorem sim_exec (h : Sim v s) (r : Ref) :
    Sim (exec (W.channels disjuncts) r v) (FastMicroStep.process W.callbacks r s) := by
  have hdone := h.act_emit (.exec r) (.process r) rfl
  exact { hdone with
    env := by
      show W.process v.config r v.env = W.process s.configuration r s.env
      rw [h.config, h.env] }

theorem sim_execAll (h : Sim v s) (blocks : List Ref) :
    Sim (execAll (W.channels disjuncts) blocks v) (FastMicroStep.each (FastMicroStep.process W.callbacks) blocks s) :=
  h.foldl fun r _ _ _ h => sim_exec W disjuncts h r

variable {M : Model} {T : Tables} (hagree : ChartToC.Agree M.toMachine T)

include hagree

theorem sim_exitState (h : Sim v s) (X : Finset TreePath) (i : TreePath) :
    Sim (exitState M (W.channels disjuncts) X v i) (FastMicroStep.exitState T W.callbacks X s i) := by
  rw [exitState, FastMicroStep.exitState, h.config, hagree.onExit i]
  split
  · have hblocks := sim_execAll W disjuncts (h.act_emit (.exit i) (.beforeExitingState i) rfl) (T.state i).onExit
    have hleft := { hblocks with config := congrArg (fun config => config.erase i) hblocks.config :
      Sim { execAll (W.channels disjuncts) (T.state i).onExit (act (.exit i) v) with
          config := (execAll (W.channels disjuncts) (T.state i).onExit (act (.exit i) v)).config.erase i }
        { FastMicroStep.each (FastMicroStep.process W.callbacks) (T.state i).onExit
            (FastMicroStep.emit (.beforeExitingState i) s) with
          configuration := (FastMicroStep.each (FastMicroStep.process W.callbacks) (T.state i).onExit
            (FastMicroStep.emit (.beforeExitingState i) s)).configuration.erase i } }
    exact hleft.emit _ rfl
  · exact h

theorem sim_exitStates (h : Sim v s) (X : Finset TreePath) :
    Sim (exitStates M (W.channels disjuncts) X v) (FastMicroStep.exitStates T W.callbacks X s) := by
  rw [exitStates, FastMicroStep.exitStates, hagree.states]
  exact h.foldl fun i _ _ _ h => sim_exitState W disjuncts hagree h X i

theorem sim_takeTransition (h : Sim v s) (i : TransId) :
    Sim (takeTransition M (W.channels disjuncts) v i) (FastMicroStep.takeTransition T W.callbacks i s) := by
  rw [takeTransition, FastMicroStep.takeTransition, hagree.onTrans i]
  have htaken := sim_execAll W disjuncts (h.act_emit (.take i) (.beforeTakingTransition i) rfl) (T.trans i).onTrans.toList
  exact htaken.emit _ rfl

theorem sim_takeTransitions (h : Sim v s) (transSet : Finset TransId) :
    Sim (takeTransitions M (W.channels disjuncts) transSet v) (FastMicroStep.takeTransitions T W.callbacks transSet s) := by
  have hsame := ChartToC.transitions_agree hagree (p := fun i history initial => i ∈ transSet && !(history || initial))
  rw [takeTransitions, FastMicroStep.takeTransitions, hsame]
  exact h.foldl fun i _ _ _ h => sim_takeTransition W disjuncts hagree h i

omit hagree in
/-- The final states are children of the root, and the model sees that they are. -/
structure TopFinals (M : Model) (T : Tables) : Prop extends ChartToC.TopFinals M.toMachine T where
  seen : ∀ i ∈ T.states, (T.state i).type = .final → ChartToPromela.looksTopLevel M i = true

theorem sim_handleFinal (htop : TopFinals M T) (h : Sim v s) {i : TreePath} (hi : i ∈ T.states)
    (hfinal : (T.state i).type = .final) :
    Sim (handleFinal M (W.channels disjuncts) i v) (FastMicroStep.handleFinal T W.callbacks i s) := by
  have hends : (T.state i).ancestors.card = 1 ∧ [] ∈ (T.state i).ancestors := by
    rw [htop.ancestors i hi hfinal]
    exact ⟨Finset.card_singleton _, Finset.mem_singleton_self _⟩
  have hflag : Sim { v with topLevelFinal := true, finished := true }
      { s with flags := { s.flags with topLevelFinal := true } } := { h with topLevelFinal := rfl, finished := rfl }
  have hround : ∀ v : Vars ω, ∀ j ∈ T.states, raiseParallel M (W.channels disjuncts) i v j = v := by
    intro v j hj
    rw [raiseParallel, if_neg]
    intro hboth
    have hroot := hboth.2
    rw [hagree.ancestors i hi, htop.ancestors i hi hfinal, Finset.mem_singleton] at hroot
    rw [hagree.type j hj, hroot] at hboth
    exact htop.root hboth.1
  have hrounds : M.states.foldl (raiseParallel M (W.channels disjuncts) i)
      { v with topLevelFinal := true, finished := true } = { v with topLevelFinal := true, finished := true } := by
    rw [hagree.states]
    refine List.foldl_invariant (fun v' => v' = _) ?_ rfl
    intro v' j hj hv'
    rw [hround v' j hj, hv']
  rw [handleFinal, if_pos (htop.seen i hi hfinal), FastMicroStep.handleFinal, if_pos hends, hrounds]
  exact hflag

theorem sim_entered (htop : TopFinals M T) (h : Sim v s) (e : Entry) {i : TreePath} (hi : i ∈ T.states) :
    Sim
      (let v := execAll (W.channels disjuncts) (M.state i).onEntry v
      let v := (ChartToC.pseudoTransitions M.toMachine e.transSet i).foldl (takeTransition M (W.channels disjuncts)) v
      if (T.state i).type = .final then handleFinal M (W.channels disjuncts) i v else v)
      (let s := FastMicroStep.each (FastMicroStep.process W.callbacks) (T.state i).onEntry s
      let s := FastMicroStep.emit (.afterEnteringState i) s
      let s := (FastMicroStep.pseudoTransitions T e.transSet i).foldl
        (fun s j => FastMicroStep.takeTransition T W.callbacks j s) s
      if (T.state i).type = .final then FastMicroStep.handleFinal T W.callbacks i s else s) := by
  have hpseudo : ChartToC.pseudoTransitions M.toMachine e.transSet i = FastMicroStep.pseudoTransitions T e.transSet i := by
    have hparent : ∀ j, (M.state (M.transition j).source).parent = (T.state (T.trans j).source).parent := by
      intro j
      rw [hagree.source j, hagree.parent]
    have hsame := ChartToC.transitions_agree hagree (p := fun j history initial =>
      j ∈ e.transSet && (history || initial) && (T.state (T.trans j).source).parent = i)
    rw [ChartToC.pseudoTransitions, FastMicroStep.pseudoTransitions]
    simp only [hparent]
    exact hsame
  have hblocks := (sim_execAll W disjuncts h (T.state i).onEntry).emit (.afterEnteringState i) rfl
  have htaken := hblocks.foldl (l := FastMicroStep.pseudoTransitions T e.transSet i)
    fun j _ _ _ h => sim_takeTransition W disjuncts hagree h j
  rw [hagree.onEntry i hi, hpseudo]
  by_cases hfinal : (T.state i).type = .final
  · simp only [if_pos hfinal]
    exact sim_handleFinal W disjuncts hagree htop htaken hi hfinal
  · simp only [if_neg hfinal]
    exact htaken

/-- Behind the start no data is left: all of it belongs to the root. -/
theorem sim_enterState (htop : TopFinals M T) (hdata : ∀ i, i ≠ [] → (T.state i).data = []) (h : Sim v s) (e : Entry)
    {i : TreePath} (hi : i ∈ T.states) :
    Sim (enterState M (W.channels disjuncts) e v i) (FastMicroStep.enterState T W.callbacks e s i) := by
  rw [enterState, FastMicroStep.enterState, h.config, hagree.type i hi]
  split
  · have hentered : Sim (act (.enter i) { v with config := insert i s.configuration })
        { FastMicroStep.emit (.beforeEnteringState i) s with configuration := insert i s.configuration } := by
      have hreported := h.act_emit (.enter i) (.beforeEnteringState i) rfl
      exact { hreported with config := rfl }
    have hnone : ∀ s' : St ω, i ∉ s.initializedData →
        FastMicroStep.each (FastMicroStep.initData W.callbacks) (T.state i).data s' = s' := by
      intro s' hfresh
      rw [hdata i fun hroot => hfresh (hroot ▸ h.data)]
      rfl
    refine sim_entered W disjuncts hagree htop ?_ e hi
    split
    · rename_i hfresh
      rw [hnone _ hfresh]
      exact { hentered with data := Finset.mem_insert_of_mem h.data }
    · exact hentered
  · exact h

theorem sim_terminateState (h : Sim v s) (htop : v.topLevelFinal = true) {i : TreePath} (hi : i ∈ T.states) :
    Sim (terminateState M (W.channels disjuncts) v i) (FastMicroStep.completeState T W.callbacks s i) ∧
      (terminateState M (W.channels disjuncts) v i).topLevelFinal = true := by
  have hleft : Sim (if i ∈ v.config then execAll (W.channels disjuncts) (M.state i).onExit v else v)
      (if i ∈ s.configuration then FastMicroStep.each (FastMicroStep.process W.callbacks) (T.state i).onExit s else s) := by
    rw [h.config, hagree.onExit i]
    split
    · exact sim_execAll W disjuncts h (T.state i).onExit
    · exact h
  have hkept : (if i ∈ v.config then execAll (W.channels disjuncts) (M.state i).onExit v else v).topLevelFinal = true := by
    split
    · refine List.foldl_invariant (fun v : Vars ω => v.topLevelFinal = true) ?_ htop
      exact fun _ _ _ hv => hv
    · exact htop
  have hwrite : terminateState M (W.channels disjuncts) v i =
      if i ∈ v.config then execAll (W.channels disjuncts) (M.state i).onExit v else v := by
    rw [terminateState]
    simp only [htop, and_true]
  have hcancelled : ∀ v s, Sim v s → Sim v (if i ∈ s.invocations then
        { FastMicroStep.each (FastMicroStep.uninvoke W.callbacks) [] s with invocations := s.invocations.erase i }
      else s) := by
    intro v s h
    split
    · exact { h with }
    · exact h
  rw [hwrite, FastMicroStep.completeState, (hagree.invoke i hi).2]
  exact ⟨hcancelled _ _ hleft, hkept⟩

theorem sim_terminateMachine (h : Sim v s) (htop : v.topLevelFinal = true) :
    Sim (terminateMachine M (W.channels disjuncts) v) (FastMicroStep.complete T W.callbacks s) := by
  have hround : ∀ l : List TreePath, (∀ i ∈ l, i ∈ T.states) → ∀ v s, Sim v s → v.topLevelFinal = true →
      Sim (l.foldl (terminateState M (W.channels disjuncts)) v) (l.foldl (FastMicroStep.completeState T W.callbacks) s) := by
    intro l
    induction l with
    | nil => exact fun _ v s h _ => h
    | cons i l ih =>
      intro hl v s h htop
      have hone := sim_terminateState W disjuncts hagree h htop (hl i List.mem_cons_self)
      exact ih (fun j hj => hl j (List.mem_cons_of_mem i hj)) _ _ hone.1 hone.2
  rw [terminateMachine, FastMicroStep.complete, hagree.states]
  have hstates := hround T.states.reverse (fun i hi => List.mem_reverse.mp hi) v _ (h.emit .beforeCompletion rfl) htop
  have hfinished := { hstates with terminated := rfl :
    Sim { T.states.reverse.foldl (terminateState M (W.channels disjuncts)) v with terminated := true }
      { T.states.reverse.foldl (FastMicroStep.completeState T W.callbacks) (FastMicroStep.emit .beforeCompletion s) with
        flags := { (T.states.reverse.foldl (FastMicroStep.completeState T W.callbacks)
          (FastMicroStep.emit .beforeCompletion s)).flags with finished := true } } }
  exact hfinished.emit _ rfl

theorem sim_blocks (htop : TopFinals M T) (hdata : ∀ i, i ≠ [] → (T.state i).data = []) (h : Sim v s) (X : Finset TreePath)
    (e : Entry) :
    Sim (enterStates M (W.channels disjuncts) e
        (takeTransitions M (W.channels disjuncts) e.transSet (exitStates M (W.channels disjuncts) X v)))
      (FastMicroStep.enterStates T W.callbacks e
        (FastMicroStep.takeTransitions T W.callbacks e.transSet (FastMicroStep.exitStates T W.callbacks X s))) := by
  have htaken := sim_takeTransitions W disjuncts hagree (sim_exitStates W disjuncts hagree h X) e.transSet
  rw [enterStates, FastMicroStep.enterStates, hagree.states]
  exact htaken.foldl fun i hi _ _ h => sim_enterState W disjuncts hagree htop hdata h e hi

omit hagree in
theorem Sim.settle (h : Sim v s) :
    Sim (act (.settle v.config) v)
      (let s := FastMicroStep.emit (.afterMicroStep s.configuration) s
      let s := if s.configuration ∈ s.microstepConfigurations then FastMicroStep.emit .reportIssue s else s
      { s with microstepConfigurations := insert s.configuration s.microstepConfigurations }) := by
  have hsettled := h.act_emit (.settle v.config) (.afterMicroStep s.configuration)
    (congrArg (fun C => [Observation.settle C]) h.config)
  simp only
  split
  · exact { hsettled.emit .reportIssue rfl with }
  · exact { hsettled with }

/-! ### Selection -/

omit hagree in
/-- The tests of the selected transitions ask what the interpreter asks: no condition has an outermost `||`, and the events
looked up in the trie are those that `nameMatch` lets pass. -/
structure Tests (M : Model) (T : Tables) (names : List (List Char)) (disjuncts : String → List String) : Prop where
  conditions : ∀ t ∈ T.transitions, ∀ cond, (M.transition t).isEnabled = some cond → cond ≠ "" ∧ disjuncts cond = [cond]
  events : ∀ t ∈ T.transitions, ∀ text, (M.transition t).event = some text → ∀ name ∈ names,
    (nameMatch text.toList name = true ↔ PromelaPasses M.trie text.toList name)

omit hagree in
theorem passes_some {event : Uscxml.Event} {t : ChartToC.Transition} {text : String} (htext : t.event = some text) :
    passes M (some event) t = true ↔ PromelaPasses M.trie text.toList event.name.toList := by
  cases hevents : promelaEvents M.trie text.toList with
  | none => simp [passes, htext, PromelaPasses, hevents]
  | some events => simp [passes, htext, PromelaPasses, hevents]

omit hagree in
/-- Without an outermost `||` the operand of a transition is a conjunction, and only that of the transition itself holds. -/
theorem enabled_iff (P : Process ω) (C : Finset TreePath) (event : Option Uscxml.Event) (w : ω)
    (hplain : ∀ k ∈ M.transitions, ∀ cond, (M.transition k).isEnabled = some cond → P.disjuncts cond = [cond])
    {i : TransId} (hi : i ∈ M.transitions) : enabled M P C event w i = true ↔
      passes M event (M.transition i) = true ∧
        ∀ cond, (M.transition i).isEnabled = some cond → P.isTrue C cond w = true := by
  have hoperand : ∀ k ∈ M.transitions, (operand M P C event w i k = true ↔
      i = k ∧ passes M event (M.transition k) = true ∧
        ∀ cond, (M.transition k).isEnabled = some cond → P.isTrue C cond w = true) := by
    intro k hk
    rw [operand]
    cases hcond : (M.transition k).isEnabled with
    | none => simp
    | some cond => simp [hplain k hk cond hcond, and_assoc]
  rw [enabled, List.any_eq_true]
  constructor
  · intro h
    obtain ⟨k, hk, hholds⟩ := h
    obtain ⟨rfl, hrest⟩ := (hoperand k hk).mp hholds
    exact hrest
  · exact fun h => ⟨i, hi, (hoperand i hi).mpr ⟨rfl, h⟩⟩

theorem kindMatches_eq {event : Option Uscxml.Event} (hnamed : ∀ e, event = some e → e.toBool = true)
    {i : TransId} (hi : i ∈ T.transitions) :
    ChartToC.kindMatches event (M.transition i) = FastMicroStep.kindMatches (event.getD {}) (T.trans i) := by
  have hnone := (hagree.event i hi).2
  have hevent : (event.getD {}).toBool = event.isSome := by
    cases event with
    | none => rfl
    | some e => exact hnamed e rfl
  rw [ChartToC.kindMatches, FastMicroStep.kindMatches, hevent]
  by_cases htext : (T.trans i).event = ""
  · rw [hnone.mpr htext, htext]
    cases event <;> rfl
  · obtain ⟨text, htext'⟩ := Option.ne_none_iff_exists'.mp fun h => htext (hnone.mp h)
    rw [htext', decide_eq_false htext, decide_eq_true htext]
    cases event <;> rfl

theorem enabled_eq (htests : Tests M T names disjuncts) {event : Option Uscxml.Event}
    (hnamed : ∀ e, event = some e → e.toBool = true ∧ e.name.toList ∈ names) (C : Finset TreePath) (w : ω) {i : TransId}
    (hi : i ∈ T.transitions) (hkind : ChartToC.kindMatches event (M.transition i) = true) :
    FastMicroStep.enabled W.callbacks C (event.getD {}) (T.trans i) w =
      (enabled M (W.channels disjuncts) C event w i, w) := by
  have hplain : ∀ k ∈ M.transitions, ∀ cond, (M.transition k).isEnabled = some cond → disjuncts cond = [cond] := by
    rw [hagree.transitions]
    exact fun k hk cond hcond => (htests.conditions k hk cond hcond).2
  have hmem : i ∈ M.transitions := by
    rw [hagree.transitions]
    exact hi
  have henabled := enabled_iff (W.channels disjuncts) C event w hplain hmem
  have hmatched : (if (event.getD {}).toBool then W.callbacks.isMatched (event.getD {}) (T.trans i).event w else (true, w)) =
      (passes M event (M.transition i), w) := by
    cases event with
    | none =>
      have hspontaneous : (M.transition i).event = none := by simpa [ChartToC.kindMatches] using hkind
      rw [passes, hspontaneous]
      rfl
    | some e =>
      obtain ⟨text, htext⟩ : ∃ text, (M.transition i).event = some text := by
        simpa [ChartToC.kindMatches, Option.isSome_iff_exists] using hkind
      have hevent : (T.trans i).event = text := by rw [← (hagree.event i hi).1, htext, Option.getD_some]
      have hsame : nameMatch text.toList e.name.toList = passes M (some e) (M.transition i) := by
        rw [Bool.eq_iff_iff, passes_some htext]
        exact htests.events i hi text htext _ (hnamed e rfl).2
      rw [Option.getD_some, if_pos (hnamed e rfl).1, hevent, ← hsame]
      exact W.matches_name e text w
  have hcond : (if (T.trans i).cond = "" then (true, w) else W.callbacks.isTrue C (T.trans i).cond w) =
      ((M.transition i).isEnabled.all fun e => (W.isTrue C e w).1, w) := by
    have htext := (hagree.cond i hi).1
    cases hcond : (M.transition i).isEnabled with
    | none =>
      rw [hcond] at htext
      rw [← htext, Option.getD_none, if_pos rfl]
      rfl
    | some cond =>
      rw [hcond, Option.getD_some] at htext
      rw [← htext, if_neg (htests.conditions i hi cond hcond).1]
      exact Prod.ext rfl (W.isTrue_env C cond w)
  have hholds : enabled M (W.channels disjuncts) C event w i =
      (passes M event (M.transition i) && (M.transition i).isEnabled.all fun e => (W.isTrue C e w).1) := by
    rw [Bool.eq_iff_iff, henabled, Bool.and_eq_true, Option.all_eq_true]
    exact and_congr_right fun _ => forall_congr' fun _ => Iff.rfl
  rw [FastMicroStep.enabled, hmatched, hholds]
  cases passes M event (M.transition i) with
  | false => rfl
  | true =>
    simp only [if_true, Bool.true_and]
    exact hcond

theorem selectTransition_eq (htests : Tests M T names disjuncts) {event : Option Uscxml.Event}
    (hnamed : ∀ e, event = some e → e.toBool = true ∧ e.name.toList ∈ names) (C : Finset TreePath) (sel : Selection ω)
    {i : TransId} (hi : i ∈ T.transitions) :
    selectTransition M (W.channels disjuncts) C event sel i =
      FastMicroStep.selectTransition T W.callbacks C (event.getD {}) sel i := by
  have hkind := kindMatches_eq hagree (fun e he => (hnamed e he).1) hi
  rw [selectTransition, FastMicroStep.selectTransition, hagree.history i hi, hagree.initial i hi, hagree.source i, hkind,
    hagree.target i, hagree.exitSet i, hagree.conflicts i]
  split
  · rfl
  by_cases hactive : (T.trans i).source ∈ C ∧ i ∉ sel.conflicts ∧
      FastMicroStep.kindMatches (event.getD {}) (T.trans i) = true
  · have hanswer := enabled_eq W disjuncts hagree htests hnamed C sel.env hi (hkind.trans hactive.2.2)
    rw [if_pos hactive, hanswer]
    by_cases hholds : enabled M (W.channels disjuncts) C event sel.env i = true
    · rw [if_pos ⟨hactive.1, hactive.2.1, hactive.2.2, hholds⟩]
      simp only [hholds, if_true]
    · rw [if_neg fun hall => hholds hall.2.2.2]
      simp only [hholds, if_false, Bool.false_eq_true]
  · rw [if_neg hactive, if_neg fun hall => hactive ⟨hall.1, hall.2.1, hall.2.2.1⟩]

theorem selectTransitions_eq (htests : Tests M T names disjuncts) (hsome : T.transitions ≠ [])
    (hnamed : ∀ e, v.event = some e → e.toBool = true ∧ e.name.toList ∈ names) :
    selectTransitions M (W.channels disjuncts) v =
      FastMicroStep.selectTransitions T W.callbacks v.config (v.event.getD {}) v.env := by
  have hwritten : (v.transitionFound && T.transitions.isEmpty) = false := by
    rw [List.isEmpty_eq_false_iff.mpr hsome, Bool.and_false]
  rw [selectTransitions, FastMicroStep.selectTransitions, hagree.transitions, hwritten]
  exact List.foldl_congr_of_invariant (fun _ => True) (fun _ _ _ _ => trivial)
    (fun sel i hi _ => selectTransition_eq W disjuncts hagree htests hnamed v.config sel hi) trivial

end Blocks

end ChartToPromela

end Uscxml
