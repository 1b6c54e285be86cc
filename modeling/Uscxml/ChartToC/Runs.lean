import Uscxml.ChartToC.Simulation
import Uscxml.FastMicroStep.Results
import Uscxml.Lib.Stutter

/-!
# The runs of the generated code and of the interpreter

A pass of the generated code is one step of the interpreter, or two of which the first one only reports a stable
configuration: the generated code asks for an external event in the call that has found the internal queue empty. The
passes behind the first one of a call are passes from the start of the function, so that this holds of calls as well.
-/

namespace Uscxml

namespace ChartToC

open Document
open FastMicroStep (Entry Selection)

variable {ω : Type}

/-! ### A pass and a step -/

section Passes

variable (W : World ω) {β : Type} {d : Document β} (hd : PlainChart d) (ha : WrittenAsRead d)

include hd ha

theorem final_ne_root {i : TreePath} (hi : i ∈ d.states) (hfinal : ((FastMicroStep.tables d).state i).type = .final) :
    d.tag? i = some .final ∧ i ≠ [] := by
  have htag : d.tag? i = some .final := (stateType_final_iff hd.finalAttr).mp ((stateType_eq ha hi).trans hfinal)
  refine ⟨htag, ?_⟩
  rintro rfl
  rw [(hd.root []).mpr rfl] at htag
  cases htag

theorem topFinals : TopFinals (machine d) (FastMicroStep.tables d) where
  looks i hi hfinal := by
    obtain ⟨htag, hne⟩ := final_ne_root hd ha hi hfinal
    exact (looksTopLevel_iff hi hne).mpr (Or.inl (hd.finals i hi htag))
  ancestors i hi hfinal := by
    obtain ⟨htag, hne⟩ := final_ne_root hd ha hi hfinal
    have hlen := parent_eq_nil_iff.mp (hd.finals i hi htag)
    ext a
    rw [Finset.mem_singleton]
    show a ∈ (FastMicroStep.stateInfo d i).ancestors ↔ a = []
    rw [FastMicroStep.mem_stateInfo_ancestors]
    constructor
    · intro hbelow
      have := hbelow.length_lt
      exact List.length_eq_zero_iff.mp (by omega)
    · rintro rfl
      exact TreePath.below_nil.mpr hne
  root := by
    intro hparallel
    have hroot := (FastMicroStep.kind_of_stateType d.root_mem_states).2.1 hparallel
    rw [isParallel_iff, (hd.root []).mpr rfl] at hroot
    cases hroot

variable (hi : d.InitialsFirst) {c : Ctx ω} {s : St ω}

include hi

theorem sim_select (h : Sim c s) (hevent : s.event = c.event.getD {}) (hnamed : ∀ e, c.event = some e → e.toBool = true)
    (hlegal : d.Legal s.configuration) : Sim ((Jump.select c).follow (machine d) W.functions).2
      (FastMicroStep.selectAndStep (FastMicroStep.tables d) W.callbacks s).2 := by
  have hagree := agree hd ha
  have hsel : selectTransitions (machine d) W.functions c.config c.event c.env =
      FastMicroStep.selectTransitions (FastMicroStep.tables d) W.callbacks s.configuration s.event s.env := by
    rw [selectTransitions_eq W hagree hnamed, h.config, h.env, hevent]
  have hselected : FastMicroStep.Selected (FastMicroStep.tables d) s.configuration
      (FastMicroStep.selectTransitions (FastMicroStep.tables d) W.callbacks s.configuration s.event s.env) :=
    FastMicroStep.selectTransitions_selected _ _ _ _ _
  rw [Jump.follow, hsel]
  generalize hsel' : FastMicroStep.selectTransitions (FastMicroStep.tables d) W.callbacks s.configuration s.event s.env =
    sel at hselected
  cases hfound : sel.found with
  | true =>
    have hprepared : Sim { c with
          env := sel.env
          flags := { c.flags with spontaneous := true }
          history := FastMicroStep.rememberHistory (machine d).tables c.config (sel.exitSet ∩ c.config) c.history }
        (FastMicroStep.prepared (FastMicroStep.tables d) sel s) := by
      have hstart : Sim { c with
            env := sel.env
            flags := { c.flags with spontaneous := true }
            history := FastMicroStep.rememberHistory (machine d).tables c.config (sel.exitSet ∩ c.config) c.history }
          { s with
            env := sel.env
            flags := { s.flags with stable := false, spontaneous := true }
            history := FastMicroStep.rememberHistory (FastMicroStep.tables d) s.configuration
              (sel.exitSet ∩ s.configuration) s.history } :=
        { h with
          spontaneous := rfl
          stable := fun hstable => Bool.noConfusion hstable
          history := by
            show FastMicroStep.rememberHistory _ c.config (sel.exitSet ∩ c.config) c.history = _
            rw [rememberHistory_eq hd ha, h.config, h.history]
          env := rfl }
      exact hstart.emit .beforeMicroStep rfl
    have hregion := FastMicroStep.region_of_selected hd.toLegalChart hselected hlegal
    rw [FastMicroStep.selectAndStep_of_found _ _ hsel' hfound]
    have hmicro := sim_microstep W hagree (topFinals hd ha) hprepared sel.targetSet (sel.exitSet ∩ s.configuration)
      sel.transSet (establishEntrySet_eq hd hi hregion ha sel.transSet)
    simp only [if_true]
    rw [← h.config] at hmicro ⊢
    exact hmicro
  | false =>
    rw [FastMicroStep.selectAndStep_of_not_found _ _ hsel' hfound]
    simp only [Bool.false_eq_true, if_false]
    exact { h with
      spontaneous := rfl
      stable := fun hstable => Bool.noConfusion hstable
      env := rfl }

theorem sim_start (h : Sim c s) (hconfig : s.configuration = ∅) :
    Sim (microstep (machine d) W.functions ((machine d).state []).completion ∅ ∅ c).2
      (FastMicroStep.microstep (FastMicroStep.tables d) W.callbacks ((FastMicroStep.tables d).state []).completion ∅ ∅ s) := by
  have hagree := agree hd ha
  rw [hagree.completion [] d.root_mem_states]
  refine sim_microstep W hagree (topFinals hd ha) h _ ∅ ∅ ?_
  rw [hconfig]
  exact establishEntrySet_eq hd hi (FastMicroStep.region_start hd.toLegalChart hi) ha ∅

/-- The interpreter is about to report that the configuration is stable. -/
structure Settles (s : St ω) : Prop extends FastMicroStep.Runs s where
  spontaneous : s.flags.spontaneous = false
  stable : s.flags.stable = false
  empty : (W.dequeueInternal s.env).1 = none

omit hd ha hi in
theorem Sim.pristine (h : Sim c s) : c.flags.pristine = s.flags.pristine := by
  have hflags : c.flags = ⟨s.flags.spontaneous, s.flags.initialized, s.flags.topLevelFinal, s.flags.finished⟩ := by
    rw [← h.spontaneous, ← h.initialized, ← h.topLevelFinal, ← h.finished]
  have hstable := h.stable
  rw [CtxFlags.pristine, Flags.pristine, hflags, decide_eq_decide]
  generalize s.flags = flags at hstable
  rcases flags with ⟨spontaneous, initialized, topLevelFinal, finished, stable⟩
  simp only [CtxFlags.mk.injEq, Flags.mk.injEq]
  constructor
  · rintro ⟨hspontaneous, hinit, htop, hfinished⟩
    refine ⟨hspontaneous, hinit, htop, hfinished, ?_⟩
    rw [← Bool.not_eq_true]
    intro hstable'
    exact absurd (hstable hstable') (by rw [hinit]; exact Bool.false_ne_true)
  · rintro ⟨hspontaneous, hinit, htop, hfinished, -⟩
    exact ⟨hspontaneous, hinit, htop, hfinished⟩

theorem sim_external (h : Sim c s) (hstable : s.flags.stable = true) (hlegal : d.Legal s.configuration) (s₀ : St ω)
    {event : Option Event} {w : ω} (hext : W.dequeueExternal s.configuration s.env = (event, w)) :
    Sim ((if event.isSome then Jump.select { c with event, env := w } else .leave .idle { c with event, env := w }).follow
        (machine d) W.functions).2
      ((FastMicroStep.phaseExternal W.callbacks s).finish (FastMicroStep.tables d) W.callbacks s₀).2 := by
  have hcall : W.callbacks.dequeueExternal s.configuration s.env = (.ok (event.getD {}), w) := by
    show (Except.ok ((W.dequeueExternal s.configuration s.env).1.getD {}), (W.dequeueExternal s.configuration s.env).2) = _
    rw [hext]
  have hasked : Sim { c with event, env := w } (FastMicroStep.dequeued (event.getD {}) w s) := by
    have hasked := h.emit .dequeueExternal rfl
    exact { hasked with env := rfl }
  have hphase : FastMicroStep.phaseExternal W.callbacks s =
      if (event.getD {}).toBool then .select (FastMicroStep.processing (event.getD {}) (FastMicroStep.dequeued (event.getD {}) w s))
      else .unblocked (FastMicroStep.dequeued (event.getD {}) w s) := by
    rw [FastMicroStep.phaseExternal, if_neg (by simp [hstable]), hcall]
  rw [hphase]
  cases event with
  | none =>
    have hgoes : (FastMicroStep.dequeued ({} : Event) w s).isCancelled = false := h.cancelled
    show Sim _ (if (FastMicroStep.dequeued ({} : Event) w s).isCancelled then _ else _ : StepResult × St ω).2
    rw [hgoes]
    exact hasked
  | some e =>
    have hnamed : e.toBool = true := W.external_named s.configuration s.env e (congrArg Prod.fst hext)
    have hprocessing : Sim { c with event := some e, env := w }
        (FastMicroStep.processing e (FastMicroStep.dequeued e w s)) := by
      have hreported := hasked.emit (.beforeProcessingEvent e) rfl
      exact { hreported with }
    rw [Option.getD_some, if_pos hnamed]
    refine sim_select W hd ha hi hprocessing rfl ?_ hlegal
    intro e' he'
    cases he'
    exact hnamed

omit hd ha hi in
theorem dequeueEvent_of_empty (M : Machine) (hspontaneous : c.flags.spontaneous = false)
    (hempty : W.dequeueInternal c.env = (none, c.env)) {c' : Ctx ω}
    (hmanaged : M.states.foldl (manageInvocation M W.functions) { c with event := none } = c') {event : Option Event} {w : ω}
    (hext : W.dequeueExternal c'.config c'.env = (event, w)) : dequeueEvent M W.functions c =
      if event.isSome then .select { c' with event, env := w } else .leave .idle { c' with event, env := w } := by
  have hinternal : W.functions.dequeueInternal = some W.dequeueInternal := rfl
  have hexternal : W.functions.dequeueExternal = some W.dequeueExternal := rfl
  rw [dequeueEvent, if_neg (by simp [hspontaneous]), hinternal, hexternal]
  simp only [hempty, Option.isSome_none, Bool.false_eq_true, if_false, hmanaged, hext]

/-- With nothing in the internal queue, and the stable configuration reported. -/
theorem sim_drained (h : Sim c s) (hstable : s.flags.stable = true) (hlegal : d.Legal s.configuration) (s₀ : St ω)
    (hspontaneous : c.flags.spontaneous = false) (hempty : W.dequeueInternal c.env = (none, c.env)) :
    Sim ((dequeueEvent (machine d) W.functions c).follow (machine d) W.functions).2
      ((FastMicroStep.phaseExternal W.callbacks (FastMicroStep.manageInvocations (FastMicroStep.tables d) W.callbacks
        { s with event := {} })).finish (FastMicroStep.tables d) W.callbacks s₀).2 := by
  have hmanaged : Sim ((machine d).states.foldl (manageInvocation (machine d) W.functions) { c with event := none })
      (FastMicroStep.manageInvocations (FastMicroStep.tables d) W.callbacks { s with event := {} }) :=
    sim_manageInvocations W (agree hd ha) (sim_fast_manageInvocations W (agree hd ha) { h with })
  have hmicro := FastMicroStep.manageInvocations_toMicro (FastMicroStep.tables d) W.callbacks { s with event := {} }
  generalize FastMicroStep.manageInvocations (FastMicroStep.tables d) W.callbacks { s with event := {} } = s' at hmanaged hmicro
  have hflags : s'.flags = s.flags := by rw [hmicro]
  have hconfig : s'.configuration = s.configuration := by rw [hmicro]
  rw [dequeueEvent_of_empty W _ hspontaneous hempty rfl (by rw [hmanaged.config, hmanaged.env])]
  exact sim_external W hd ha hi hmanaged (by rw [hflags, hstable]) (by rw [hconfig]; exact hlegal) s₀ rfl

omit hd ha hi in
theorem phase_internal (T : Tables) (hruns : FastMicroStep.Runs s) (hspontaneous : s.flags.spontaneous = false)
    {event : Option Event} {w : ω} (hinternal : W.dequeueInternal s.env = (event, w)) :
    FastMicroStep.phase T W.callbacks s =
      if (event.getD {}).toBool then .select (FastMicroStep.processing (event.getD {}) { s with env := w })
      else FastMicroStep.phaseExternal W.callbacks
        (FastMicroStep.manageInvocations T W.callbacks { s with event := event.getD {}, env := w }) := by
  have hcall : W.callbacks.dequeueInternal s.env = (event.getD {}, w) := by
    show ((W.dequeueInternal s.env).1.getD {}, (W.dequeueInternal s.env).2) = _
    rw [hinternal]
  rw [FastMicroStep.phase, if_neg (by simp [hruns.finished]), if_neg (by simp [hruns.topLevelFinal]),
    if_neg (by simp [hruns.pristine]), if_neg (by simp [hspontaneous]), hcall]

theorem sim_dequeueEvent (h : Sim c s) (hruns : FastMicroStep.Runs s) (hlegal : d.Legal s.configuration)
    (hnot : ¬ Settles W s) : Sim ((dequeueEvent (machine d) W.functions c).follow (machine d) W.functions).2
      ((FastMicroStep.phase (FastMicroStep.tables d) W.callbacks s).finish (FastMicroStep.tables d) W.callbacks s).2 := by
  by_cases hspontaneous : s.flags.spontaneous = true
  · have hphase : FastMicroStep.phase (FastMicroStep.tables d) W.callbacks s = .select { s with event := {} } := by
      rw [FastMicroStep.phase, if_neg (by simp [hruns.finished]), if_neg (by simp [hruns.topLevelFinal]),
        if_neg (by simp [hruns.pristine]), if_pos hspontaneous]
    rw [dequeueEvent, if_pos (h.spontaneous.trans hspontaneous), hphase]
    exact sim_select W hd ha hi { h with } rfl (by rintro _ ⟨⟩) hlegal
  rw [Bool.not_eq_true] at hspontaneous
  have hspontaneous' : c.flags.spontaneous = false := h.spontaneous.trans hspontaneous
  rcases hinternal : W.dequeueInternal s.env with ⟨_ | e, w⟩
  · have hnone : (W.dequeueInternal s.env).1 = none := by rw [hinternal]
    have hsame : s.env = w := by
      rw [← W.internal_empty s.env hnone, hinternal]
    have hstable : s.flags.stable = true := by
      by_contra hstable
      exact hnot ⟨hruns, hspontaneous, by simpa using hstable, hnone⟩
    have hempty : W.dequeueInternal c.env = (none, c.env) := by rw [h.env, hinternal, hsame]
    rw [phase_internal W _ hruns hspontaneous hinternal, ← hsame]
    exact sim_drained W hd ha hi h hstable hlegal s hspontaneous' hempty
  · have hnamed : e.toBool = true := W.internal_named s.env e (by rw [hinternal])
    have hfunction : W.functions.dequeueInternal = some W.dequeueInternal := rfl
    rw [phase_internal W _ hruns hspontaneous hinternal, Option.getD_some, if_pos hnamed, dequeueEvent,
      if_neg (by simp [hspontaneous']), hfunction]
    simp only [h.env, hinternal, Option.isSome_some, if_true]
    have hprocessing : Sim { c with event := some e, env := w } (FastMicroStep.processing e { s with env := w }) := by
      have hmoved : Sim { c with event := some e, env := w } { s with event := e, env := w } := { h with env := rfl }
      exact hmoved.emit (.beforeProcessingEvent e) rfl
    refine sim_select W hd ha hi hprocessing rfl ?_ hlegal
    intro e' he'
    cases he'
    exact hnamed

/-- A pass of the generated code does what the step does. -/
theorem sim_pass (h : Sim c s) (hrun : FastMicroStep.LegalRun d s) (hnot : ¬ Settles W s) :
    Sim (onePass (machine d) W.functions c) (FastMicroStep.step (FastMicroStep.tables d) W.callbacks s).2 := by
  have hcleared : ({ c with err := false } : Ctx ω) = c := by rw [← h.err]
  rw [onePass, enterStep, hcleared, FastMicroStep.step_eq_phase]
  by_cases hfinished : s.flags.finished = true
  · rw [FastMicroStep.phase, if_pos hfinished, if_pos (h.finished.trans hfinished)]
    exact h
  rw [if_neg (by rwa [h.finished])]
  by_cases htop : s.flags.topLevelFinal = true
  · rw [FastMicroStep.phase, if_neg hfinished, if_pos htop, if_pos (h.topLevelFinal.trans htop)]
    exact sim_complete W (agree hd ha) h
  rw [if_neg (by rwa [h.topLevelFinal])]
  by_cases hpristine : s.flags.pristine = true
  · have hflags : s.flags = {} := of_decide_eq_true hpristine
    have hempty : s.configuration = ∅ := by
      rcases hrun with hrun | hrun
      · exact hrun.2
      · rw [hflags] at hrun
        exact absurd hrun.1 Bool.false_ne_true
    have hscript : (machine d).script = [] := (agree hd ha).script
    have hopened : Sim { c with flags := { c.flags with spontaneous := true, initialized := true } }
        { s with flags := { s.flags with spontaneous := true, initialized := true } } :=
      { h with
        spontaneous := rfl
        initialized := rfl
        stable := fun _ => rfl }
    rw [FastMicroStep.phase, if_neg hfinished, if_neg htop, if_pos hpristine, if_pos (h.pristine.trans hpristine), hscript]
    exact sim_start W hd ha hi (hopened.emit .beforeMicroStep rfl) hempty
  · have hlegal : d.Legal s.configuration := by
      rcases hrun with hrun | hrun
      · rw [hrun.1] at hpristine
        exact absurd rfl hpristine
      · exact hrun.2
    rw [if_neg (by rwa [h.pristine])]
    rw [Bool.not_eq_true] at hfinished htop hpristine
    exact sim_dequeueEvent W hd ha hi h ⟨hfinished, htop, hpristine⟩ hlegal hnot

omit hi in
/-- The interpreter reports that the configuration is stable, which the generated code has no part in. -/
theorem sim_settles (h : Sim c s) (hrun : FastMicroStep.LegalRun d s) (hsettles : Settles W s) :
    Sim c (FastMicroStep.step (FastMicroStep.tables d) W.callbacks s).2 ∧
      ¬ Settles W (FastMicroStep.step (FastMicroStep.tables d) W.callbacks s).2 := by
  rcases hinternal : W.dequeueInternal s.env with ⟨event, w⟩
  have hnone : event = none := by rw [← hsettles.empty, hinternal]
  have hsame : s.env = w := by
    rw [← W.internal_empty s.env hsettles.empty, hinternal]
  have hinit : s.flags.initialized = true := by
    rcases hrun with hrun | hrun
    · have hpristine := hsettles.pristine
      rw [hrun.1] at hpristine
      cases hpristine
    · exact hrun.1
  have hmanaged : Sim c (FastMicroStep.manageInvocations (FastMicroStep.tables d) W.callbacks { s with event := {} }) :=
    sim_fast_manageInvocations W (agree hd ha) { h with }
  have hmicro := FastMicroStep.manageInvocations_toMicro (FastMicroStep.tables d) W.callbacks { s with event := {} }
  rw [FastMicroStep.step_eq_phase, phase_internal W _ hsettles.toRuns hsettles.spontaneous hinternal, ← hsame, hnone]
  show Sim c ((FastMicroStep.phaseExternal W.callbacks (FastMicroStep.manageInvocations (FastMicroStep.tables d) W.callbacks
      { s with event := {} })).finish (FastMicroStep.tables d) W.callbacks s).2 ∧ ¬ Settles W
        ((FastMicroStep.phaseExternal W.callbacks (FastMicroStep.manageInvocations (FastMicroStep.tables d) W.callbacks
          { s with event := {} })).finish (FastMicroStep.tables d) W.callbacks s).2
  generalize FastMicroStep.manageInvocations (FastMicroStep.tables d) W.callbacks { s with event := {} } = s' at hmanaged hmicro
  have hflags : s'.flags = s.flags := by rw [hmicro]
  have hstable : s'.flags.stable = false := by rw [hflags, hsettles.stable]
  rw [FastMicroStep.phaseExternal, if_pos hstable]
  constructor
  · have hreported := hmanaged.emit .onStableConfiguration rfl
    refine { hreported with stable := fun _ => ?_ }
    show s'.flags.initialized = true
    rw [hflags, hinit]
  · intro hagain
    cases hagain.stable

/-- Each pass of the generated code is one step of the interpreter, or one behind the report of a stable configuration. -/
theorem sim_stutters : Stutters (fun c s => Sim c s ∧ FastMicroStep.LegalRun d s) (onePass (machine d) W.functions)
    fun s => (FastMicroStep.step (FastMicroStep.tables d) W.callbacks s).2 := by
  rintro c s ⟨h, hrun⟩
  have hkeep : ∀ {s : St ω}, FastMicroStep.LegalRun d s →
      FastMicroStep.LegalRun d (FastMicroStep.step (FastMicroStep.tables d) W.callbacks s).2 :=
    fun hrun => FastMicroStep.legalRun_of_moves hd.toLegalChart hi hrun (FastMicroStep.step_moves _ _ _)
  by_cases hsettles : Settles W s
  · obtain ⟨hrest, hnot⟩ := sim_settles W hd ha h hrun hsettles
    exact Or.inr ⟨⟨hrest, hkeep hrun⟩, sim_pass W hd ha hi hrest (hkeep hrun) hnot, hkeep (hkeep hrun)⟩
  · exact Or.inl ⟨sim_pass W hd ha hi h hrun hsettles, hkeep hrun⟩

end Passes

/-! ### Calls -/

section Calls

variable (M : Machine) (f : Functions ω) {c c' : Ctx ω}

/-- The states between the calls of `uscxml_step` in a run that begins with `w`. -/
inductive Called (w : ω) : Ctx ω → Prop where
  | start : Called w { env := w }
  | call {c c' : Ctx ω} {n : Nat} {ret : Ret} (h : Called w c) (hcall : uscxmlStep M f n c = some (ret, c')) : Called w c'

/-- Invocations are started and cancelled between an event and the next one. -/
structure KeepsFlags (c c' : Ctx ω) : Prop where
  flags : c'.flags = c.flags
  err : c'.err = c.err

theorem keepsFlags_invokeAll (l : List Ref) (uninvoke : Bool) (c : Ctx ω) : KeepsFlags c (invokeAll f l uninvoke c) := by
  refine List.foldl_invariant (KeepsFlags c) ?_ ⟨rfl, rfl⟩
  intro c' r _ h
  exact ⟨h.flags, h.err⟩

theorem keepsFlags_manageInvocation (c : Ctx ω) (i : TreePath) : KeepsFlags c (manageInvocation M f c i) := by
  have huninvoked := keepsFlags_invokeAll f (M.state i).invoke true c
  rw [manageInvocation]
  split
  · split
    · have hinvoked := keepsFlags_invokeAll f (M.state i).invoke false
        { invokeAll f (M.state i).invoke true c with invocations := c.invocations.erase i }
      exact ⟨hinvoked.flags.trans huninvoked.flags, hinvoked.err.trans huninvoked.err⟩
    · exact ⟨huninvoked.flags, huninvoked.err⟩
  · split
    · have hinvoked := keepsFlags_invokeAll f (M.state i).invoke false c
      exact ⟨hinvoked.flags, hinvoked.err⟩
    · exact ⟨rfl, rfl⟩

theorem keepsFlags_manageInvocations (c : Ctx ω) : KeepsFlags c (M.states.foldl (manageInvocation M f) c) :=
  List.foldl_invariant (KeepsFlags c) (fun c' i _ h =>
    ⟨(keepsFlags_manageInvocation M f c' i).flags.trans h.flags, (keepsFlags_manageInvocation M f c' i).err.trans h.err⟩)
    ⟨rfl, rfl⟩

theorem flags_of_select {c₀ : Ctx ω} (hc : KeepsFlags c c₀) (h : (Jump.select c₀).follow M f = (none, c')) :
    c'.flags = { c.flags with spontaneous := false } ∧ c'.err = c.err := by
  simp only [Jump.follow] at h
  split at h
  · cases congrArg Prod.fst h
  · cases h
    exact ⟨by rw [hc.flags], hc.err⟩

/-- A pass that goes back to `DEQUEUE_EVENT` has cleared the flag for spontaneous transitions. -/
theorem flags_of_dequeueEvent (h : (dequeueEvent M f c).follow M f = (none, c')) :
    c'.flags = { c.flags with spontaneous := false } ∧ c'.err = c.err := by
  have hleave : ∀ {ret : Ret} {c₀ : Ctx ω}, (Jump.leave ret c₀).follow M f ≠ (none, c') :=
    fun h => Option.some_ne_none _ (congrArg Prod.fst h)
  rcases dequeueEvent_cases M f c with ⟨event, w, hjump⟩ | ⟨event, w, hjump⟩
  · rw [hjump] at h
    refine flags_of_select M f ?_ h
    exact ⟨rfl, rfl⟩
  · have hkept := keepsFlags_manageInvocations M f { c with event := event, env := w }
    rcases dequeueOutside_cases M f { c with event := event, env := w } with ⟨_, _, hout⟩ | ⟨_, _, _, hout⟩
    · rw [hjump, hout] at h
      refine flags_of_select M f ?_ h
      exact ⟨hkept.flags, hkept.err⟩
    · rw [hjump, hout] at h
      exact absurd h hleave

structure Continues (c : Ctx ω) : Prop where
  flags : c.flags.finished = false ∧ c.flags.topLevelFinal = false ∧ c.flags.initialized = true
  err : c.err = false

theorem Continues.enterStep (h : Continues c) : enterStep M f c = dequeueEvent M f c := by
  have hcleared : ({ c with err := false } : Ctx ω) = c := by rw [← h.err]
  have hpristine : ¬ c.flags.pristine = true := by
    intro hpristine
    have hflags : c.flags = {} := of_decide_eq_true hpristine
    have hinit := h.flags.2.2
    rw [hflags] at hinit
    cases hinit
  rw [ChartToC.enterStep, hcleared, if_neg (by simp [h.flags.1]), if_neg (by simp [h.flags.2.1]), if_neg hpristine]

theorem Continues.again (h : Continues c) (hagain : (dequeueEvent M f c).follow M f = (none, c')) : Continues c' := by
  obtain ⟨hflags, herr⟩ := flags_of_dequeueEvent M f hagain
  exact ⟨by rw [hflags]; exact h.flags, herr.trans h.err⟩

/-- The passes behind the first one are passes from the start of the function. -/
theorem repeatPasses_eq {n : Nat} {ret : Ret} (h : Continues c) (hreturns : repeatPasses M f n c = some (ret, c')) :
    ∃ k, c' = (onePass M f)^[k] c := by
  induction n generalizing c with
  | zero => cases hreturns
  | succ n ih =>
    have hpass : onePass M f c = ((dequeueEvent M f c).follow M f).2 := by rw [onePass, h.enterStep]
    rw [repeatPasses] at hreturns
    rcases hfollow : (dequeueEvent M f c).follow M f with ⟨_ | ret', c₁⟩
    · rw [hfollow] at hreturns hpass
      obtain ⟨k, hk⟩ := ih (h.again M f hfollow) hreturns
      exact ⟨k + 1, by rw [Function.iterate_succ_apply, hpass, hk]⟩
    · rw [hfollow] at hreturns hpass
      cases hreturns
      exact ⟨1, hpass.symm⟩

theorem uscxmlStep_eq {n : Nat} {ret : Ret} (hinit : c.flags.pristine = false → c.flags.initialized = true)
    (hreturns : uscxmlStep M f n c = some (ret, c')) : ∃ k, c' = (onePass M f)^[k] c := by
  rw [uscxmlStep] at hreturns
  have hpass : onePass M f c = ((enterStep M f c).follow M f).2 := rfl
  rcases hfollow : (enterStep M f c).follow M f with ⟨_ | ret', c₁⟩
  · rw [hfollow] at hreturns hpass
    -- Only a call that dequeues an event goes back to do so again.
    have hcontinues : Continues c₁ := by
      rw [enterStep] at hfollow
      simp only at hfollow
      split at hfollow
      · cases congrArg Prod.fst hfollow
      rename_i hfinished
      split at hfollow
      · cases congrArg Prod.fst hfollow
      rename_i htop
      split at hfollow
      · cases congrArg Prod.fst hfollow
      rename_i hpristine
      rw [Bool.not_eq_true] at hfinished htop hpristine
      exact Continues.again M f (c := { c with err := false }) ⟨⟨hfinished, htop, hinit hpristine⟩, rfl⟩ hfollow
    obtain ⟨k, hk⟩ := repeatPasses_eq M f hcontinues hreturns
    exact ⟨k + 1, by rw [Function.iterate_succ_apply, hpass, hk]⟩
  · rw [hfollow] at hreturns hpass
    cases hreturns
    exact ⟨1, hpass.symm⟩

end Calls

/-! ### Runs -/

/-- The same microsteps have been made, and they have come to the same configuration. -/
structure SameMicrosteps (c : Ctx ω) (s : St ω) : Prop where
  observed : observedActs c.acts = observedCalls s.calls
  config : c.config = s.configuration

/-- In the world `W`, the run of the generated code that begins with `w` and that of the interpreter consist of the same
microsteps: whatever the generated code has done after a call, or after a pass in the middle of one, the interpreter has
done after some number of steps, and the other way round. -/
structure Simulates {β : Type} (d : Document β) (W : World ω) (w : ω) : Prop where
  calls : ∀ c, Called (prepare d) W.functions w c →
    ∃ n, SameMicrosteps c (FastMicroStep.steps (FastMicroStep.init d) W.callbacks n { env := w })
  passes : ∀ k, ∃ n, SameMicrosteps ((onePass (prepare d) W.functions)^[k] { env := w })
    (FastMicroStep.steps (FastMicroStep.init d) W.callbacks n { env := w })
  steps : ∀ n, ∃ k, SameMicrosteps ((onePass (prepare d) W.functions)^[k] { env := w })
    (FastMicroStep.steps (FastMicroStep.init d) W.callbacks n { env := w })

theorem simulates {β : Type} {d : Document β} (hd : PlainChart (resortStates d)) (ha : WrittenAsRead (resortStates d))
    (W : World ω) (w : ω) : Simulates d W w := by
  have hinit : FastMicroStep.init d = FastMicroStep.tables (resortStates d) := by
    rw [FastMicroStep.init, resortStates_eq]
  have hi : (resortStates d).InitialsFirst := by
    rw [resortStates_eq]
    exact initialsFirst_resortStates d
  have hstart : Sim ({ env := w } : Ctx ω) ({ env := w } : St ω) ∧
      FastMicroStep.LegalRun (resortStates d) ({ env := w } : St ω) :=
    ⟨⟨rfl, rfl, rfl, rfl, fun h => h, rfl, rfl, rfl, rfl, rfl, rfl, rfl⟩, Or.inl ⟨rfl, rfl⟩⟩
  have hstutters := sim_stutters W hd ha hi
  have hpasses : ∀ c, Called (prepare d) W.functions w c → ∃ k, c = (onePass (prepare d) W.functions)^[k] { env := w } := by
    intro c hc
    induction hc with
    | start => exact ⟨0, rfl⟩
    | call hc hcall ih =>
      obtain ⟨k, rfl⟩ := ih
      obtain ⟨n, hsim, hrun⟩ := hstutters.exists_right hstart k
      have hinit : ((onePass (prepare d) W.functions)^[k] { env := w }).flags.pristine = false →
          ((onePass (prepare d) W.functions)^[k] { env := w }).flags.initialized = true := by
        intro hpristine
        rw [prepare, hsim.pristine] at hpristine
        rcases hrun with hrun | hrun
        · rw [hrun.1] at hpristine
          cases hpristine
        · exact hsim.initialized.trans hrun.1
      obtain ⟨k', hk'⟩ := uscxmlStep_eq (prepare d) W.functions hinit hcall
      exact ⟨k' + k, by rw [Function.iterate_add_apply, hk']⟩
  have hsame : ∀ {c s}, Sim c s ∧ FastMicroStep.LegalRun (resortStates d) s → SameMicrosteps (ω := ω) c s :=
    fun h => ⟨h.1.observed, h.1.config⟩
  refine ⟨?_, ?_, ?_⟩
  · intro c hc
    obtain ⟨k, rfl⟩ := hpasses c hc
    obtain ⟨n, hn⟩ := hstutters.exists_right hstart k
    rw [hinit]
    exact ⟨n, hsame hn⟩
  · intro k
    obtain ⟨n, hn⟩ := hstutters.exists_right hstart k
    rw [hinit]
    exact ⟨n, hsame hn⟩
  · intro n
    obtain ⟨k, hk⟩ := hstutters.exists_left hstart n
    rw [hinit]
    exact ⟨k, hsame hk⟩

/-- A world that only delivers external events: descriptors are names, every condition holds and content does nothing. -/
def eventWorld : World (List Event) where
  dequeueInternal w := (none, w)
  dequeueExternal _ w :=
    match w with
    | [] => (none, [])
    | event :: w => if event.toBool then (some event, w) else (none, w)
  isMatched event descriptor w := (event.name = descriptor, w)
  isTrue _ _ w := (true, w)
  raiseDoneEvent _ _ _ w := w
  initData _ _ w := w
  process _ _ w := w
  internal_named _ _ h := by cases h
  external_named _ w event h := by
    cases w with
    | nil => cases h
    | cons e w =>
      simp only at h
      split at h
      · rename_i he
        cases h
        exact he
      · cases h
  internal_empty _ _ := rfl

theorem twoRegions_plainChart : PlainChart (resortStates FastMicroStep.twoRegions) where
  toLegalChart := by
    rw [resortStates_eq]
    exact FastMicroStep.twoRegions_legalChart
  invokes := by decide +kernel
  scripts := by decide +kernel
  finals := by decide +kernel
  ids := by decide +kernel

/-- A run that moves inside one region and then leaves both. -/
theorem simulates_twoRegions : Simulates FastMicroStep.twoRegions eventWorld [{ name := "e" }, { name := "f" }] :=
  simulates twoRegions_plainChart
    ⟨Or.inl rfl, by decide +kernel, by decide +kernel, by decide +kernel, by decide +kernel⟩ eventWorld _

/-- A state with an `<initial>`, in a document whose elements have a prefix. -/
def prefixedInitial : Document Unit where
  tree :=
    { root := { tag := .scxml }
      kids := .cons { tag := .state, id := some "s" }
        (.cons { tag := .initial, transitions := [{ target := some ["a"] }] } .nil
          (.cons { tag := .state, id := some "a" } .nil .nil)) .nil }
  xmlPrefix := "scxml:"

theorem prefixedInitial_plainChart : PlainChart (resortStates prefixedInitial) where
  rootTag := by decide +kernel
  nested := by decide +kernel
  finalAttr := by decide +kernel
  child := by decide +kernel
  initialTransition := by decide +kernel
  histories := by decide +kernel
  uniqueIds := by unfold UniqueIds; decide +kernel
  transitionSources := by decide +kernel
  transitionTargets := by
    have h : ∀ p ∈ (resortStates prefixedInitial).states, ∀ t ∈ (resortStates prefixedInitial).transIds p,
        (∀ s ∈ (resortStates prefixedInitial).getTargetStates t, (resortStates prefixedInitial).ProperState s) ∧
          (resortStates prefixedInitial).Legal {[], [0], [0, 1]} ∧
            ∀ s ∈ (resortStates prefixedInitial).getTargetStates t, s ∈ ({[], [0], [0, 1]} : Finset TreePath) := by
      decide +kernel
    intro p hp t ht
    obtain ⟨hproper, hlegal, hmem⟩ := h p hp t ht
    exact ⟨hproper, _, hlegal, hmem⟩
  initialTargets := by decide +kernel
  initialAttr := by
    intro p hp hne ids hids
    have h : ∀ p ∈ (resortStates prefixedInitial).states,
        ((resortStates prefixedInitial).elem? p).bind (·.initial) = none := by decide +kernel
    rw [h p hp] at hids
    cases hids
  rootAttr := by
    intro ids hids
    cases hids
  invokes := by decide +kernel
  scripts := by decide +kernel
  finals := by decide +kernel
  ids := by decide +kernel

theorem observedCalls_steps (T : Tables) (cb : Callbacks ω) (hT : T.states.Pairwise (· < ·)) (n : Nat) (s : St ω) :
    observedCalls s.calls <+: observedCalls (FastMicroStep.steps T cb n s).calls := by
  induction n generalizing s with
  | zero => exact List.prefix_refl _
  | succ n ih =>
    obtain ⟨l, hcalls, -⟩ := FastMicroStep.step_exits T cb hT s
    have hstep : observedCalls s.calls <+: observedCalls (FastMicroStep.step T cb s).2.calls := by
      rw [hcalls, observedCalls, observedCalls, List.flatMap_append]
      exact List.prefix_append _ _
    exact hstep.trans (ih _)

/-- The generated code enters the `<initial>` as a state, the interpreter takes its transition. -/
theorem initial_entered : (onePass (prepare prefixedInitial) eventWorld.functions { env := [] }).config =
      {[], [0], [0, 0]} ∧
    (FastMicroStep.step (FastMicroStep.init prefixedInitial) eventWorld.callbacks { env := [] }).2.configuration =
      {[], [0], [0, 1]} ∧
    ¬ ∀ d : Document Unit, PlainChart (resortStates d) → ∀ (W : World (List Event)) (w : List Event), Simulates d W w := by
  refine ⟨by decide +kernel, by decide +kernel, ?_⟩
  intro h
  obtain ⟨n, hn⟩ := (h prefixedInitial prefixedInitial_plainChart eventWorld []).passes 1
  have hsteps : ∀ n s, FastMicroStep.steps (FastMicroStep.init prefixedInitial) eventWorld.callbacks (n + 1) s =
      FastMicroStep.steps (FastMicroStep.init prefixedInitial) eventWorld.callbacks n
        (FastMicroStep.step (FastMicroStep.init prefixedInitial) eventWorld.callbacks s).2 := fun _ _ => rfl
  have hsorted : (FastMicroStep.init prefixedInitial).states.Pairwise (· < ·) := RoseTree.preorder_pairwise _
  cases n with
  | zero => exact absurd hn.observed (by decide +kernel)
  | succ n =>
    have hsame := hn.observed
    rw [Function.iterate_one, hsteps] at hsame
    have hfirst := observedCalls_steps (FastMicroStep.init prefixedInitial) eventWorld.callbacks hsorted n
      (FastMicroStep.step (FastMicroStep.init prefixedInitial) eventWorld.callbacks { env := [] }).2
    rw [← hsame] at hfirst
    exact absurd hfirst (by decide +kernel)

end ChartToC

end Uscxml
