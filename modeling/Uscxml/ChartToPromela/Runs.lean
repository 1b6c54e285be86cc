import Uscxml.ChartToPromela.Simulation

/-!
# The runs of the process and of the interpreter

For charts that the generator can express. Where it cannot, the two part: without transitions the process finds one in
every pass, a deep completion and a descriptor in a list are read differently, and data is initialised before the start
whatever its binding.
-/

namespace Uscxml

namespace ChartToPromela

open Document
open FastMicroStep (Entry Selection)
open ChartToC (PlainChart WrittenAsRead)

variable {ω β : Type}

/-- What the generator can express of a chart, when `words` are the events of the analyzer. -/
structure Expressible (d : Document β) (words : List (List Char)) (disjuncts : String → List String) : Prop where
  early : d.binding = .early
  transitions : FastMicroStep.postFixTransitions d ≠ []
  shallow : Shallow (ChartToC.machine d).tables
  conditions : ∀ p ∈ d.states, ∀ t ∈ d.transIds p, ∀ cond ∈ (d.trans? t).bind (·.cond), disjuncts cond = [cond]
  events : ∀ p ∈ d.states, ∀ t ∈ d.transIds p, ∀ text ∈ (d.trans? t).bind (·.event), ∀ name ∈ (eventTrie words).words,
    (nameMatch text.toList name = true ↔ PromelaPasses (eventTrie words) text.toList name)

section Charts

variable {d : Document β} {words : List (List Char)} {disjuncts : String → List String} (hd : PlainChart d)
  (ha : WrittenAsRead d) (hw : Expressible d words disjuncts)

include hd ha

theorem toMachine_model : (model d words).toMachine = ChartToC.machine d := by
  have htransition : transition d = ChartToC.transition d := by
    funext t
    have hhistory : decide (d.tag? t.1 = some .history) = (ChartToC.transition d t).history := by
      have hnone : d.tag? t.1 ≠ some .history := hd.noHistory t.1
      simp [ChartToC.transition, hnone]
    have hinitial : decide (d.tag? t.1 = some .initial) = (ChartToC.transition d t).initial := by
      rw [ChartToC.transition, decide_eq_decide]
      refine ⟨fun htag => ⟨?_, htag⟩, fun h => h.2⟩
      rcases ha.initials with hplain | hnone
      · exact hplain
      · exact absurd htag (hnone t.1 (mem_states_of_tag htag))
    rw [transition, hhistory, hinitial]
  show ({ ChartToC.machine d with transition := transition d } : ChartToC.Machine) = ChartToC.machine d
  rw [htransition]
  rfl

variable (words) in
theorem agree : ChartToC.Agree (model d words).toMachine (FastMicroStep.tables d) := by
  rw [toMachine_model hd ha]
  exact ChartToC.agree hd ha

include hw in
omit hd in
theorem tests : Tests (model d words) (FastMicroStep.tables d) (eventTrie words).words disjuncts where
  conditions t ht cond hcond := by
    obtain ⟨hsource, hmem⟩ := ChartToC.source_mem ht
    refine ⟨?_, hw.conditions t.1 hsource t hmem cond hcond⟩
    rintro rfl
    exact ha.conds t.1 hsource t hmem hcond
  events t ht text htext name hname := by
    obtain ⟨hsource, hmem⟩ := ChartToC.source_mem ht
    exact hw.events t.1 hsource t hmem text htext name hname

omit ha in
theorem looksTopLevel_of_parent {i : TreePath} (hparent : i.parent = []) :
    looksTopLevel (model d words) i = true := by
  obtain ⟨c, hc, hne, -⟩ := hd.child
  have hstates : d.states = [] :: d.states.tail := rfl
  cases htail : d.states.tail with
  | nil =>
    rw [hstates, htail, List.mem_singleton] at hc
    exact absurd hc hne
  | cons s rest =>
    rw [htail] at hstates
    have hsorted : d.states.Pairwise (· < ·) := RoseTree.preorder_pairwise _
    have hs : s ∈ d.states := by
      rw [hstates]
      exact List.mem_cons_of_mem _ List.mem_cons_self
    rw [hstates, List.pairwise_cons, List.pairwise_cons] at hsorted
    have hnil : s ≠ [] := (ne_of_gt (hsorted.1 s List.mem_cons_self))
    -- The parent stands in front of it, where there is only the root.
    have hroot : s.parent = [] := by
      have hlt : s.parent < s := (TreePath.below_parent hnil).lt
      have hmem : s.parent ∈ d.states := mem_states_of_above (TreePath.below_parent hnil).1 hs
      rw [hstates, List.mem_cons, List.mem_cons] at hmem
      rcases hmem with h | h | h
      · exact h
      · exact absurd h (ne_of_lt hlt)
      · exact absurd (hsorted.2.1 _ h) (lt_asymm hlt)
    have hone : (model d words).states[1]? = some s := by
      show d.states[1]? = some s
      rw [hstates]
      rfl
    rw [looksTopLevel, hone, Option.any_some, decide_eq_true_iff]
    show s ∈ (ChartToC.stateInfo d i.parent).children
    rw [hparent]
    exact ChartToC.mem_stateInfo_children.mpr ⟨hs, hnil, hroot⟩

theorem topFinals : TopFinals (model d words) (FastMicroStep.tables d) where
  toTopFinals := by
    rw [toMachine_model hd ha]
    exact ChartToC.topFinals hd ha
  seen i hi hfinal := by
    obtain ⟨htag, -⟩ := ChartToC.final_ne_root hd ha hi hfinal
    exact looksTopLevel_of_parent hd (hd.finals i hi htag)

include hw

theorem entry_eq (hi : d.InitialsFirst) {C X H targets : Finset TreePath} {N : TreePath → Prop}
    (hr : d.Region C X targets N) (transSet : Finset TransId) :
    establishEntrySet (model d words).tables C X H targets transSet =
      FastMicroStep.establishEntrySet (FastMicroStep.tables d) C X H targets transSet := by
  rw [toMachine_model hd ha, establishEntrySet_eq hd.toNesting hd.histories hw.shallow]
  exact ChartToC.establishEntrySet_eq hd hi hr ha transSet

omit hd ha in
theorem data_eq (i : TreePath) :
    ((FastMicroStep.tables d).state i).data = if i = [] then (model d words).data else [] := by
  show (FastMicroStep.stateInfo d i).data = _
  rw [FastMicroStep.stateInfo, hw.early]
  rfl

end Charts

/-! ### The first pass -/

section Start

variable {d : Document β} {words : List (List Char)} {disjuncts : String → List String}
  (W : World (eventTrie words).words ω) (hd : PlainChart d) (ha : WrittenAsRead d) (hw : Expressible d words disjuncts)
  {v : Vars ω} {s : St ω}

/-- Before the root is entered the process is ahead by the data `data`. -/
structure Ahead (W : World (eventTrie words).words ω) (data : List Ref) (v : Vars ω) (s : St ω) : Prop where
  initialized : s.flags.initialized = true
  spontaneous : v.spontaneous = s.flags.spontaneous
  topLevelFinal : v.topLevelFinal = s.flags.topLevelFinal
  finished : v.finished = s.flags.topLevelFinal
  terminated : v.terminated = s.flags.finished
  config : v.config = s.configuration
  history : v.history = s.history
  fresh : [] ∉ s.initializedData
  cancelled : s.isCancelled = false
  env : v.env = data.foldl (fun w r => W.initData ∅ r w) s.env
  observed : ChartToC.observedActs v.acts = observedCalls s.calls

theorem initData_each (data : List Ref) (s : St ω) :
    FastMicroStep.each (FastMicroStep.initData W.callbacks) data s =
      { s with
        env := data.foldl (fun w r => W.initData ∅ r w) s.env
        calls := s.calls ++ data.map .initData } := by
  induction data generalizing s with
  | nil =>
    rw [List.map_nil, List.append_nil]
    rfl
  | cons r data ih =>
    have hone : W.initData s.configuration r s.env = W.initData ∅ r s.env := W.initData_config _ _ _ _
    rw [FastMicroStep.each, List.foldl_cons, ← FastMicroStep.each, ih]
    show { s with
      env := data.foldl _ (W.initData s.configuration r s.env)
      calls := (s.calls ++ [Call.initData r]) ++ _ } = _
    rw [hone, List.append_assoc]
    rfl

theorem observedCalls_initData (calls : List Call) (data : List Ref) :
    observedCalls (calls ++ data.map .initData) = observedCalls calls := by
  have hnone : (ChartToC.observedCalls (data.map .initData)).filter (fun o => !isInitData o) = [] := by
    rw [List.filter_eq_nil_iff]
    intro o ho
    obtain ⟨call, hcall, ho⟩ := List.mem_flatMap.mp ho
    obtain ⟨r, -, rfl⟩ := List.mem_map.mp hcall
    rw [List.mem_singleton.mp ho]
    exact Bool.false_ne_true
  rw [observedCalls, ChartToC.observedCalls, List.flatMap_append, List.filter_append]
  rw [ChartToC.observedCalls] at hnone
  rw [hnone, List.append_nil]
  rfl

include hd ha hw

variable (disjuncts) in
/-- The root is entered, and with it the interpreter has initialised the data as well. -/
theorem Ahead.enterRoot (h : Ahead W (model d words).data v s) {e : Entry} (hroot : [] ∈ e.entrySet)
    (hnone : s.configuration = ∅) :
    Sim (enterState (model d words) (W.channels disjuncts) e v [])
      (FastMicroStep.enterState (FastMicroStep.tables d) W.callbacks e s []) := by
  have hagree := agree words hd ha
  have hmem : [] ∈ (FastMicroStep.tables d).states := d.root_mem_states
  have htype : ((FastMicroStep.tables d).state []).type.pseudo = false := by
    have hkind := FastMicroStep.kind_of_stateType d.root_mem_states
    have htag := (hd.root []).mpr rfl
    show (FastMicroStep.stateType d []).pseudo = false
    cases htype : FastMicroStep.stateType d [] with
    | initial =>
      rw [hkind.2.2.2 htype] at htag
      cases htag
    | historyShallow => exact absurd (isHistory_iff.mp (hkind.2.2.1 (Or.inl htype))) (hd.noHistory [])
    | historyDeep => exact absurd (isHistory_iff.mp (hkind.2.2.1 (Or.inr htype))) (hd.noHistory [])
    | parallel => rfl
    | compound => rfl
    | atomic => rfl
    | final => rfl
  have hentered : [] ∈ e.entrySet ∧ [] ∉ s.configuration ∧ ((FastMicroStep.tables d).state []).type.pseudo = false := by
    rw [hnone]
    exact ⟨hroot, Finset.notMem_empty _, htype⟩
  rw [enterState, FastMicroStep.enterState, h.config, hagree.type [] hmem, if_pos hentered, if_pos hentered]
  refine sim_entered W disjuncts hagree (topFinals hd ha) ?_ e hmem
  have hfresh : [] ∉ (FastMicroStep.emit (.beforeEnteringState []) s).initializedData := h.fresh
  simp only
  rw [if_pos hfresh, data_eq hw, if_pos rfl, initData_each]
  exact
    { initialized := h.initialized
      spontaneous := h.spontaneous
      topLevelFinal := h.topLevelFinal
      finished := h.finished
      terminated := h.terminated
      config := rfl
      history := h.history
      data := Finset.mem_insert_self _ _
      cancelled := h.cancelled
      env := h.env
      observed := by
        show ChartToC.observedActs (v.acts ++ [.enter []]) =
          observedCalls ((s.calls ++ [.beforeEnteringState []]) ++ (model d words).data.map .initData)
        rw [observedCalls_initData, ChartToC.observedActs_concat, observedCalls_concat, h.observed]
        rfl }

omit ha hw in
/-- The first entry set holds no transition but those of `<initial>`s. -/
theorem initial_of_mem_transSet {H targets : Finset TreePath} {t : TransId}
    (ht : t ∈ (FastMicroStep.establishEntrySet (FastMicroStep.tables d) ∅ ∅ H targets ∅).transSet) :
    ((FastMicroStep.tables d).trans t).initial = true := by
  suffices hall : ∀ t ∈ (FastMicroStep.establishEntrySet (FastMicroStep.tables d) ∅ ∅ H targets ∅).transSet,
      ((FastMicroStep.tables d).trans t).initial = true by
    exact hall t ht
  refine List.foldl_invariant
    (fun e : Entry => ∀ t ∈ e.transSet, ((FastMicroStep.tables d).trans t).initial = true) ?_ (by simp)
  intro e i hi he
  have hkind := FastMicroStep.kind_of_stateType hi
  rw [FastMicroStep.descend]
  split
  · cases htype : ((FastMicroStep.tables d).state i).type with
    | final => exact he
    | atomic => exact he
    | parallel => exact he
    | compound => exact he
    | historyShallow => exact absurd (isHistory_iff.mp (hkind.2.2.1 (Or.inl htype))) (hd.noHistory i)
    | historyDeep => exact absurd (isHistory_iff.mp (hkind.2.2.1 (Or.inr htype))) (hd.noHistory i)
    | initial =>
      have htag : d.tag? i = some .initial := hkind.2.2.2 htype
      refine List.foldl_invariant
        (fun e : Entry => ∀ t ∈ e.transSet, ((FastMicroStep.tables d).trans t).initial = true) ?_ he
      intro e j hj he t ht
      rcases Finset.mem_insert.mp ht with rfl | ht
      · have hsource : t.1 = i := of_decide_eq_true (List.mem_filter.mp hj).2
        show decide (d.tag? t.1 = some .initial) = true
        rw [hsource, htag]
        exact decide_eq_true rfl
      · exact he t ht
  · exact he

variable (disjuncts) in
theorem Ahead.microstep (hi : d.InitialsFirst) (h : Ahead W (model d words).data v s) (hnone : s.configuration = ∅)
    (hhistory : s.history = ∅) :
    Sim (microstep (model d words) (W.channels disjuncts) ((model d words).state []).completion ∅ ∅ v)
      (FastMicroStep.microstep (FastMicroStep.tables d) W.callbacks ((FastMicroStep.tables d).state []).completion ∅ ∅
        s) := by
  have hagree := agree words hd ha
  have hregion := FastMicroStep.region_start hd.toLegalChart hi
  have hentry := entry_eq (H := ∅) hd ha hw hi hregion ∅
  have hroot : [] ∈ (FastMicroStep.establishEntrySet (FastMicroStep.tables d) ∅ ∅ ∅
      ((FastMicroStep.tables d).state []).completion ∅).entrySet := by
    have hlegal := FastMicroStep.nextConfiguration_legal (H := ∅) hd.toLegalChart hi hregion ∅
    rcases (FastMicroStep.mem_nextConfiguration _).mp hlegal.root with hmem | hmem
    · exact absurd hmem.1 (Finset.notMem_empty _)
    · exact hmem.1
  have hexit : exitStates (model d words) (W.channels disjuncts) ∅ v = v := by
    refine List.foldl_invariant (fun v' => v' = v) ?_ rfl
    intro v' i _ hv'
    rw [exitState, if_neg fun hboth => Finset.notMem_empty i hboth.1, hv']
  have hfastExit : FastMicroStep.exitStates (FastMicroStep.tables d) W.callbacks ∅ s = s := by
    refine List.foldl_invariant (fun s' => s' = s) ?_ rfl
    intro s' i _ hs'
    rw [FastMicroStep.exitState, if_neg fun hboth => Finset.notMem_empty i hboth.1, hs']
  rw [ChartToPromela.microstep, FastMicroStep.microstep, h.config, h.history, hnone, hhistory,
    hagree.completion [] d.root_mem_states]
  have hsame : establishEntrySet (model d words).tables ∅ ∅ ∅ ((FastMicroStep.tables d).state []).completion ∅ =
      FastMicroStep.establishEntrySet (FastMicroStep.tables d) ∅ ∅ ∅ ((FastMicroStep.tables d).state []).completion ∅ :=
    hentry
  have hinitial := fun t => @initial_of_mem_transSet _ d hd ∅ ((FastMicroStep.tables d).state []).completion t
  rw [hsame]
  generalize FastMicroStep.establishEntrySet (FastMicroStep.tables d) ∅ ∅ ∅
    ((FastMicroStep.tables d).state []).completion ∅ = e at hroot hinitial
  have htaken := ChartToC.transitions_agree hagree (p := fun i history initial => i ∈ e.transSet && !(history || initial))
  have hnoTransition : (FastMicroStep.tables d).transitions.filter (fun i => i ∈ e.transSet &&
      !(((FastMicroStep.tables d).trans i).history || ((FastMicroStep.tables d).trans i).initial)) = [] := by
    rw [List.filter_eq_nil_iff]
    intro t _ ht
    rw [Bool.and_eq_true, decide_eq_true_iff] at ht
    rw [hinitial t ht.1, Bool.or_true] at ht
    exact absurd ht.2 Bool.false_ne_true
  rw [hnoTransition] at htaken
  have htake : takeTransitions (model d words) (W.channels disjuncts) e.transSet v = v := by
    rw [takeTransitions, htaken, List.foldl_nil]
  have hfastTake : FastMicroStep.takeTransitions (FastMicroStep.tables d) W.callbacks e.transSet s = s := by
    rw [FastMicroStep.takeTransitions, hnoTransition, List.foldl_nil]
  rw [hexit, hfastExit, htake, hfastTake, enterStates, FastMicroStep.enterStates, hagree.states]
  have hstates : (FastMicroStep.tables d).states = [] :: (FastMicroStep.tables d).states.tail := rfl
  have hfirst := h.enterRoot disjuncts W hd ha hw hroot hnone
  have hdata : ∀ i, i ≠ [] → ((FastMicroStep.tables d).state i).data = [] := fun i hne => (data_eq hw i).trans (if_neg hne)
  have hstep : ∀ i ∈ (FastMicroStep.tables d).states.tail, ∀ v s, Sim v s →
      Sim (enterState (model d words) (W.channels disjuncts) e v i)
        (FastMicroStep.enterState (FastMicroStep.tables d) W.callbacks e s i) := by
    intro i hmem v s hsim
    exact sim_enterState W disjuncts hagree (topFinals hd ha) hdata hsim e (List.mem_of_mem_tail hmem)
  rw [hstates, List.foldl_cons, List.foldl_cons]
  exact (hfirst.foldl hstep).settle

omit hd ha hw in
theorem selectTransitions_start (M : Model) (P : Process ω) (hfound : v.transitionFound = false) (hnone : v.config = ∅) :
    selectTransitions M P v = { env := v.env } := by
  rw [selectTransitions, hfound, hnone]
  refine List.foldl_invariant (fun sel : Selection ω => sel = { env := v.env }) ?_ rfl
  rintro _ i _ rfl
  rw [selectTransition]
  split
  · rfl
  · rw [if_neg fun hall => Finset.notMem_empty _ hall.1]

theorem sim_start (hi : d.InitialsFirst) (w : ω) :
    Sim (pass (model d words) (W.channels disjuncts) (start (model d words) (W.channels disjuncts) w))
      (FastMicroStep.step (FastMicroStep.tables d) W.callbacks { env := w }).2 := by
  have hscript : (model d words).script = [] := (agree words hd ha).script
  have hstart : start (model d words) (W.channels disjuncts) w =
      { env := (model d words).data.foldl (fun w r => W.initData ∅ r w) w } := by
    rw [start, hscript]
    rfl
  have hopened : Ahead W (model d words).data
      { env := (model d words).data.foldl (fun w r => W.initData ∅ r w) w, transitionFound := true }
      (FastMicroStep.emit .beforeMicroStep { env := w, flags := { spontaneous := true, initialized := true } }) :=
    { initialized := rfl
      spontaneous := rfl
      topLevelFinal := rfl
      finished := rfl
      terminated := rfl
      config := rfl
      history := rfl
      fresh := Finset.notMem_empty _
      cancelled := rfl
      env := rfl
      observed := rfl }
  have hfirst := hopened.microstep disjuncts W hd ha hw hi rfl rfl
  have hselected := selectTransitions_start (model d words) (W.channels disjuncts)
    (v := { env := (model d words).data.foldl (fun w r => W.initData ∅ r w) w }) rfl rfl
  have hpass : ∀ v : Vars ω, v.terminated = false → v.finished = false → v.spontaneous = true →
      pass (model d words) (W.channels disjuncts) v =
        select (model d words) (W.channels disjuncts) { v with event := none } := by
    intro v hterminated hfinished hspontaneous
    simp [pass, hterminated, hfinished, dequeueEvent, hspontaneous]
  rw [hstart, hpass _ rfl rfl rfl, select, hselected]
  exact hfirst

end Start

/-! ### A pass and a step -/

section Passes

variable {d : Document β} {words : List (List Char)} {disjuncts : String → List String}
  (W : World (eventTrie words).words ω) (hd : PlainChart d) (ha : WrittenAsRead d) (hw : Expressible d words disjuncts)
  (hi : d.InitialsFirst) {v : Vars ω} {s : St ω}

theorem Sim.pristine (h : Sim v s) : s.flags.pristine = false := by
  rw [← Bool.not_eq_true]
  intro hpristine
  have hflags : s.flags = {} := of_decide_eq_true hpristine
  have hinit := h.initialized
  rw [hflags] at hinit
  exact Bool.false_ne_true hinit

/-- No `<invoke>` is there, so that managing them changes what nothing depends on. -/
theorem manageInvocations_eq (T : Tables) (hnone : ∀ i ∈ T.states, (T.state i).invoke = []) (s : St ω) :
    ∃ I, FastMicroStep.manageInvocations T W.callbacks s = { s with invocations := I } := by
  refine List.foldl_invariant (fun s' : St ω => ∃ I, s' = { s with invocations := I }) ?_ ⟨s.invocations, rfl⟩
  intro s' i hmem hs'
  obtain ⟨I, rfl⟩ := hs'
  obtain ⟨I', hI'⟩ := ChartToC.fast_manageInvocation_eq W.toWorld (hnone i hmem) { s with invocations := I }
  exact ⟨I', hI'⟩

include hd ha hw hi

theorem sim_select (h : Sim v s) (hevent : s.event = v.event.getD {})
    (hnamed : ∀ e, v.event = some e → e.toBool = true ∧ e.name.toList ∈ (eventTrie words).words)
    (hlegal : d.Legal s.configuration) : Sim (select (model d words) (W.channels disjuncts) v)
      (FastMicroStep.selectAndStep (FastMicroStep.tables d) W.callbacks s).2 := by
  have hagree := agree words hd ha
  have hdata : ∀ i, i ≠ [] → ((FastMicroStep.tables d).state i).data = [] := fun i hne => (data_eq hw i).trans (if_neg hne)
  have hactive : v.config ≠ ∅ := by
    rw [h.config]
    exact Finset.ne_empty_of_mem hlegal.root
  have hsel : selectTransitions (model d words) (W.channels disjuncts) v =
      FastMicroStep.selectTransitions (FastMicroStep.tables d) W.callbacks s.configuration s.event s.env := by
    rw [selectTransitions_eq W disjuncts hagree (tests ha hw) hw.transitions hnamed, h.config, h.env, hevent]
  have hselected : FastMicroStep.Selected (FastMicroStep.tables d) s.configuration
      (FastMicroStep.selectTransitions (FastMicroStep.tables d) W.callbacks s.configuration s.event s.env) :=
    FastMicroStep.selectTransitions_selected _ _ _ _ _
  have henv : (selectTransitions (model d words) (W.channels disjuncts) v).env = v.env := by
    refine List.foldl_invariant (fun sel : Selection ω => sel.env = v.env) ?_ rfl
    intro sel i _ hsame
    rw [selectTransition]
    split
    · exact hsame
    split
    · exact hsame
    · exact hsame
  rw [hsel] at henv
  rw [select, hsel, if_neg hactive]
  generalize hsel' : FastMicroStep.selectTransitions (FastMicroStep.tables d) W.callbacks s.configuration s.event s.env =
    sel at hselected henv
  cases hfound : sel.found with
  | true =>
    have hregion := FastMicroStep.region_of_selected hd.toLegalChart hselected hlegal
    have hprepared : Sim (rememberHistory (model d words) (sel.exitSet ∩ v.config)
          { v with spontaneous := true, transitionFound := true })
        (FastMicroStep.prepared (FastMicroStep.tables d) sel s) := by
      have hhistory : FastMicroStep.rememberHistory (model d words).tables v.config (sel.exitSet ∩ v.config) v.history =
          FastMicroStep.rememberHistory (FastMicroStep.tables d) s.configuration (sel.exitSet ∩ s.configuration)
            s.history := by
        rw [toMachine_model hd ha, ChartToC.rememberHistory_eq hd ha, h.config, h.history]
      have hstart : Sim { v with
            spontaneous := true
            transitionFound := true
            history := FastMicroStep.rememberHistory (model d words).tables v.config (sel.exitSet ∩ v.config) v.history }
          { s with
            env := sel.env
            flags := { s.flags with stable := false, spontaneous := true }
            history := FastMicroStep.rememberHistory (FastMicroStep.tables d) s.configuration
              (sel.exitSet ∩ s.configuration) s.history } :=
        { h with
          spontaneous := rfl
          history := hhistory
          env := henv.symm }
      rw [rememberHistory, if_neg hactive]
      exact hstart.emit .beforeMicroStep rfl
    rw [FastMicroStep.selectAndStep_of_found _ _ hsel' hfound, if_pos rfl, microstep, FastMicroStep.microstep]
    have hentry := entry_eq (H := (FastMicroStep.prepared (FastMicroStep.tables d) sel s).history) hd ha hw hi hregion
      sel.transSet
    have hexitSet : sel.exitSet ∩ v.config = sel.exitSet ∩ s.configuration := by rw [h.config]
    have hconfig : (FastMicroStep.prepared (FastMicroStep.tables d) sel s).configuration = s.configuration := rfl
    rw [hprepared.config, hprepared.history, hexitSet, hconfig, hentry]
    rw [hexitSet] at hprepared
    exact (sim_blocks W disjuncts hagree (topFinals hd ha) hdata hprepared _ _).settle
  | false =>
    rw [FastMicroStep.selectAndStep_of_not_found _ _ hsel' hfound, if_neg Bool.false_ne_true]
    exact { h with
      spontaneous := rfl
      env := henv.symm }

omit hd ha hw hi in
theorem pass_eq (M : Model) (P : Process ω) (hterminated : v.terminated = false) (hfinished : v.finished = false)
    (hspontaneous : v.spontaneous = false) :
    pass M P v = match P.dequeueInternal v.env with
      | some (event, w) => select M P { v with event := some event, env := w }
      | none =>
        match P.dequeueExternal v.config v.env with
        | some (event, w) => select M P { v with event := some event, env := w }
        | none => v := by
  rw [pass, if_neg (by simp [hterminated]), if_neg (by simp [hfinished]), dequeueEvent, if_neg (by simp [hspontaneous])]
  cases P.dequeueInternal v.env with
  | some r => rfl
  | none =>
    cases P.dequeueExternal v.config v.env with
    | some r => rfl
    | none => rfl

theorem sim_external (h : Sim v s) (hlegal : d.Legal s.configuration) (hstable : s.flags.stable = true) (s₀ : St ω) :
    Sim (match (W.channels disjuncts).dequeueExternal v.config v.env with
        | some (event, w) => select (model d words) (W.channels disjuncts) { v with event := some event, env := w }
        | none => v)
      ((FastMicroStep.phaseExternal W.callbacks s).finish (FastMicroStep.tables d) W.callbacks s₀).2 := by
  have hexternal : (W.channels disjuncts).dequeueExternal v.config v.env =
      (W.dequeueExternal s.configuration s.env).1.map
        fun event => (event, (W.dequeueExternal s.configuration s.env).2) := by
    show (W.dequeueExternal v.config v.env).1.map _ = _
    rw [h.config, h.env]
  have hcall : W.callbacks.dequeueExternal s.configuration s.env =
      (.ok ((W.dequeueExternal s.configuration s.env).1.getD {}), (W.dequeueExternal s.configuration s.env).2) := rfl
  rw [hexternal, FastMicroStep.phaseExternal, if_neg (by simp [hstable]), hcall]
  rcases hasked : W.dequeueExternal s.configuration s.env with ⟨event, w⟩
  have hevent : (W.dequeueExternal s.configuration s.env).1 = event := by rw [hasked]
  have hdequeued : Sim { v with env := w } (FastMicroStep.dequeued (event.getD {}) w s) := by
    have hreported := h.emit .dequeueExternal rfl
    exact { hreported with env := rfl }
  cases event with
  | none =>
    have hsame : w = s.env := by
      rw [← W.external_empty s.configuration s.env hevent, hasked]
    have hstays : ({ v with env := w } : Vars ω) = v := by rw [hsame, ← h.env]
    rw [hstays] at hdequeued
    have hgoes : (FastMicroStep.dequeued ({} : Uscxml.Event) w s).isCancelled = false := h.cancelled
    show Sim v (if (FastMicroStep.dequeued ({} : Uscxml.Event) w s).isCancelled then _ else _ : StepResult × St ω).2
    rw [hgoes]
    exact hdequeued
  | some e =>
    have hnamed : e.toBool = true := W.external_named s.configuration s.env e hevent
    simp only [Option.getD_some, hnamed, if_true, Option.map_some]
    refine sim_select W hd ha hw hi ?_ rfl ?_ hlegal
    · have hreported := hdequeued.emit (.beforeProcessingEvent e) rfl
      exact { hreported with }
    · intro e' he'
      cases he'
      exact ⟨hnamed, W.external_known s.configuration s.env e hevent⟩

/-- With nothing in the internal queue, and the stable configuration reported. -/
theorem sim_drained (h : Sim v s) (hlegal : d.Legal s.configuration) (hstable : s.flags.stable = true)
    (hterminated : v.terminated = false) (hfinished : v.finished = false) (hspontaneous : v.spontaneous = false)
    (hempty : (W.dequeueInternal s.env).1 = none) :
    Sim (pass (model d words) (W.channels disjuncts) v)
      ((FastMicroStep.phaseExternal W.callbacks (FastMicroStep.manageInvocations (FastMicroStep.tables d) W.callbacks
        { s with event := {} })).finish (FastMicroStep.tables d) W.callbacks s).2 := by
  obtain ⟨I, hI⟩ := manageInvocations_eq W (FastMicroStep.tables d)
    (fun i hmem => ((agree words hd ha).invoke i hmem).2) { s with event := {} }
  have hinternal : (W.channels disjuncts).dequeueInternal v.env = none := by
    show (W.dequeueInternal v.env).1.map _ = none
    rw [h.env, hempty]
    rfl
  have hmanaged : Sim v { s with event := {}, invocations := I } := { h with }
  rw [pass_eq _ _ hterminated hfinished hspontaneous, hinternal, hI]
  exact sim_external W hd ha hw hi hmanaged hlegal hstable s

/-- A pass of the process does what the step does. -/
theorem sim_pass (h : Sim v s) (hlegal : d.Legal s.configuration) (hnot : ¬ ChartToC.Settles W.toWorld s) :
    Sim (pass (model d words) (W.channels disjuncts) v) (FastMicroStep.step (FastMicroStep.tables d) W.callbacks s).2 := by
  rw [FastMicroStep.step_eq_phase]
  by_cases hfinished : s.flags.finished = true
  · rw [FastMicroStep.phase, if_pos hfinished, pass, if_pos (h.terminated.trans hfinished)]
    exact h
  by_cases htop : s.flags.topLevelFinal = true
  · rw [FastMicroStep.phase, if_neg hfinished, if_pos htop, pass, if_neg (by rwa [h.terminated]),
      if_pos (h.finished.trans htop)]
    exact sim_terminateMachine W disjuncts (agree words hd ha) h (h.topLevelFinal.trans htop)
  rw [Bool.not_eq_true] at hfinished htop
  have hpristine := h.pristine
  have hterminated : v.terminated = false := h.terminated.trans hfinished
  have hends : v.finished = false := h.finished.trans htop
  have hruns : FastMicroStep.Runs s := ⟨hfinished, htop, hpristine⟩
  by_cases hspontaneous : s.flags.spontaneous = true
  · have hphase : FastMicroStep.phase (FastMicroStep.tables d) W.callbacks s = .select { s with event := {} } := by
      rw [FastMicroStep.phase, if_neg (by simp [hfinished]), if_neg (by simp [htop]), if_neg (by simp [hpristine]),
        if_pos hspontaneous]
    have hpass : pass (model d words) (W.channels disjuncts) v =
        select (model d words) (W.channels disjuncts) { v with event := none } := by
      simp [pass, hterminated, hends, dequeueEvent, h.spontaneous.trans hspontaneous]
    rw [hphase, hpass]
    exact sim_select W hd ha hw hi { h with } rfl (by intro e he; cases he) hlegal
  rw [Bool.not_eq_true] at hspontaneous
  have hwaits : v.spontaneous = false := h.spontaneous.trans hspontaneous
  cases hevent : (W.dequeueInternal s.env).1 with
  | none =>
    have hstable : s.flags.stable = true := by
      rw [← Bool.not_eq_false]
      exact fun hstable => hnot ⟨hruns, hspontaneous, hstable, hevent⟩
    have hsame : W.dequeueInternal s.env = (none, s.env) := Prod.ext hevent (W.internal_empty s.env hevent)
    rw [ChartToC.phase_internal W.toWorld _ hruns hspontaneous hsame]
    exact sim_drained W hd ha hw hi h hlegal hstable hterminated hends hwaits hevent
  | some e =>
    have hnamed : e.toBool = true := W.internal_named s.env e hevent
    have hsplit : W.dequeueInternal s.env = (some e, (W.dequeueInternal s.env).2) := Prod.ext hevent rfl
    have hinternal : (W.channels disjuncts).dequeueInternal v.env = some (e, (W.dequeueInternal s.env).2) := by
      show (W.dequeueInternal v.env).1.map _ = _
      rw [h.env, hevent]
      rfl
    rw [ChartToC.phase_internal W.toWorld _ hruns hspontaneous hsplit, Option.getD_some, if_pos hnamed,
      pass_eq _ _ hterminated hends hwaits, hinternal]
    refine sim_select W hd ha hw hi ?_ rfl ?_ hlegal
    · have hmoved : Sim { v with event := some e, env := (W.dequeueInternal s.env).2 }
          { s with event := e, env := (W.dequeueInternal s.env).2 } := { h with env := rfl }
      exact hmoved.emit (.beforeProcessingEvent e) rfl
    · intro e' he'
      cases he'
      exact ⟨hnamed, W.internal_known s.env e hevent⟩

omit hw hi in
/-- The interpreter reports that the configuration is stable, which the process has no part in. -/
theorem sim_settles (h : Sim v s) (hsettles : ChartToC.Settles W.toWorld s) :
    Sim v (FastMicroStep.step (FastMicroStep.tables d) W.callbacks s).2 ∧
      ¬ ChartToC.Settles W.toWorld (FastMicroStep.step (FastMicroStep.tables d) W.callbacks s).2 := by
  obtain ⟨I, hI⟩ := manageInvocations_eq W (FastMicroStep.tables d)
    (fun i hmem => ((agree words hd ha).invoke i hmem).2) { s with event := {} }
  have hsame : W.dequeueInternal s.env = (none, s.env) :=
    Prod.ext hsettles.empty (W.internal_empty s.env hsettles.empty)
  have hstep : (FastMicroStep.step (FastMicroStep.tables d) W.callbacks s).2 =
      { FastMicroStep.emit .onStableConfiguration { s with event := {}, invocations := I } with
        microstepConfigurations := ∅
        flags := { s.flags with stable := true } } := by
    rw [FastMicroStep.step_eq_phase, ChartToC.phase_internal W.toWorld _ hsettles.toRuns hsettles.spontaneous hsame]
    show ((FastMicroStep.phaseExternal W.callbacks (FastMicroStep.manageInvocations (FastMicroStep.tables d) W.callbacks
      { s with event := {} })).finish (FastMicroStep.tables d) W.callbacks s).2 = _
    rw [hI, FastMicroStep.phaseExternal, if_pos hsettles.stable]
    rfl
  have hmanaged : Sim v { s with event := {}, invocations := I } := { h with }
  have hreported := hmanaged.emit .onStableConfiguration rfl
  rw [hstep]
  refine ⟨{ hreported with }, ?_⟩
  intro hagain
  exact Bool.false_ne_true hagain.stable.symm

end Passes

/-! ### Runs -/

/-- The same microsteps have been made, they have come to the same configuration, and both have ended or neither has. Once
the interpreter has started, the queues and the data are the same. -/
structure SameMicrosteps (v : Vars ω) (s : St ω) : Prop where
  observed : ChartToC.observedActs v.acts = observedCalls s.calls
  config : v.config = s.configuration
  ended : v.terminated = s.flags.finished
  env : s.flags.initialized = true → v.env = s.env

/-- In the world `W`, the run of the process that begins with `w` and that of the interpreter consist of the same
microsteps. -/
structure Simulates (d : Document β) (words : List (List Char)) (disjuncts : String → List String)
    (W : World (eventTrie words).words ω) (w : ω) : Prop where
  passes : ∀ k, ∃ n, SameMicrosteps
    ((pass (model (ChartToC.resortStates d) words) (W.channels disjuncts))^[k]
      (start (model (ChartToC.resortStates d) words) (W.channels disjuncts) w))
    (FastMicroStep.steps (FastMicroStep.init d) W.callbacks n { env := w })
  steps : ∀ n, ∃ k, SameMicrosteps
    ((pass (model (ChartToC.resortStates d) words) (W.channels disjuncts))^[k]
      (start (model (ChartToC.resortStates d) words) (W.channels disjuncts) w))
    (FastMicroStep.steps (FastMicroStep.init d) W.callbacks n { env := w })

/-- Before the first pass, or behind it. -/
def Related (d : Document β) (words : List (List Char)) (disjuncts : String → List String)
    (W : World (eventTrie words).words ω) (w : ω) (v : Vars ω) (s : St ω) : Prop :=
  v = start (model d words) (W.channels disjuncts) w ∧ s = { env := w } ∨ Sim v s ∧ d.Legal s.configuration

/-- Each pass of the process is one step of the interpreter, or one behind the report of a stable configuration. -/
theorem sim_stutters {d : Document β} {words : List (List Char)} {disjuncts : String → List String}
    (W : World (eventTrie words).words ω) (hd : PlainChart d) (ha : WrittenAsRead d) (hw : Expressible d words disjuncts)
    (hi : d.InitialsFirst) (w : ω) : Stutters (Related d words disjuncts W w) (pass (model d words) (W.channels disjuncts))
      fun s => (FastMicroStep.step (FastMicroStep.tables d) W.callbacks s).2 := by
  have hkeep : ∀ {s : St ω}, FastMicroStep.LegalRun d s →
      FastMicroStep.LegalRun d (FastMicroStep.step (FastMicroStep.tables d) W.callbacks s).2 :=
    fun hrun => FastMicroStep.legalRun_of_moves hd.toLegalChart hi hrun (FastMicroStep.step_moves _ _ _)
  have hlegal : ∀ {v : Vars ω} {s : St ω}, Sim v s → FastMicroStep.LegalRun d s → d.Legal s.configuration := by
    intro v s h hrun
    rcases hrun with hrun | hrun
    · have hpristine := h.pristine
      rw [hrun.1] at hpristine
      exact absurd hpristine (by decide)
    · exact hrun.2
  intro v s h
  rcases h with ⟨rfl, rfl⟩ | ⟨h, hC⟩
  · have hfirst := sim_start W hd ha hw hi w
    exact Or.inl (Or.inr ⟨hfirst, hlegal hfirst (hkeep (Or.inl ⟨rfl, rfl⟩))⟩)
  · have hrun : FastMicroStep.LegalRun d s := Or.inr ⟨h.initialized, hC⟩
    by_cases hsettles : ChartToC.Settles W.toWorld s
    · obtain ⟨hrest, hnot⟩ := sim_settles W hd ha h hsettles
      have hC' := hlegal hrest (hkeep hrun)
      have hpass := sim_pass W hd ha hw hi hrest hC' hnot
      exact Or.inr ⟨Or.inr ⟨hrest, hC'⟩, Or.inr ⟨hpass, hlegal hpass (hkeep (hkeep hrun))⟩⟩
    · have hpass := sim_pass W hd ha hw hi h hC hsettles
      exact Or.inl (Or.inr ⟨hpass, hlegal hpass (hkeep hrun)⟩)

/-- The Promela model of an expressible chart takes the microsteps of the interpreter, and no others. -/
theorem process_simulates {d : Document β} {words : List (List Char)} {disjuncts : String → List String}
    (hd : PlainChart (ChartToC.resortStates d)) (ha : WrittenAsRead (ChartToC.resortStates d))
    (hw : Expressible (ChartToC.resortStates d) words disjuncts) (W : World (eventTrie words).words ω) (w : ω) :
    Simulates d words disjuncts W w := by
  have hinit : FastMicroStep.init d = FastMicroStep.tables (ChartToC.resortStates d) := by
    rw [FastMicroStep.init, ChartToC.resortStates_eq]
  have hi : (ChartToC.resortStates d).InitialsFirst := by
    rw [ChartToC.resortStates_eq]
    exact initialsFirst_resortStates d
  have hstutters := sim_stutters W hd ha hw hi w
  have hstart : Related (ChartToC.resortStates d) words disjuncts W w
      (start (model (ChartToC.resortStates d) words) (W.channels disjuncts) w) { env := w } := Or.inl ⟨rfl, rfl⟩
  have hsame : ∀ {v s}, Related (ChartToC.resortStates d) words disjuncts W w v s → SameMicrosteps v s := by
    intro v s h
    rcases h with ⟨rfl, rfl⟩ | ⟨h, -⟩
    · have hscript : (model (ChartToC.resortStates d) words).script = [] := (agree words hd ha).script
      rw [start, hscript]
      exact ⟨rfl, rfl, rfl, fun hinit => absurd hinit Bool.false_ne_true⟩
    · exact ⟨h.observed, h.config, h.terminated, fun _ => h.env⟩
  constructor
  · intro k
    obtain ⟨n, hn⟩ := hstutters.exists_right hstart k
    rw [hinit]
    exact ⟨n, hsame hn⟩
  · intro n
    obtain ⟨k, hk⟩ := hstutters.exists_left hstart n
    rw [hinit]
    exact ⟨k, hsame hk⟩

theorem internal_named_none : ∀ (w : List Uscxml.Event) (event : Uscxml.Event),
    ((none, w) : Option Uscxml.Event × List Uscxml.Event).1 = some event → event.toBool = true := by
  intro w event h
  cases h

theorem internal_empty_none : ∀ w : List Uscxml.Event,
    ((none, w) : Option Uscxml.Event × List Uscxml.Event).1 = none →
      ((none, w) : Option Uscxml.Event × List Uscxml.Event).2 = w := by
  intro w _
  rfl

/-- A world that only delivers external events whose names are known; every condition holds and content does nothing. -/
def namedEvents (names : List (List Char)) : World names (List Uscxml.Event) where
  dequeueInternal w := (none, w)
  dequeueExternal _ w :=
    match w with
    | [] => (none, [])
    | event :: rest => if event.toBool && names.contains event.name.toList then (some event, rest) else (none, event :: rest)
  isMatched event text w := (nameMatch text.toList event.name.toList, w)
  isTrue _ _ w := (true, w)
  raiseDoneEvent _ _ _ w := w
  initData _ _ w := w
  process _ _ w := w
  internal_named := internal_named_none
  external_named _ w event h := by
    cases w with
    | nil => cases h
    | cons e rest =>
      simp only at h
      split at h
      · rename_i he
        cases h
        exact (Bool.and_eq_true_iff.mp he).1
      · cases h
  internal_empty := internal_empty_none
  internal_known _ _ h := by cases h
  external_known _ w event h := by
    cases w with
    | nil => cases h
    | cons e rest =>
      simp only at h
      split at h
      · rename_i he
        cases h
        exact List.contains_iff_mem.mp (Bool.and_eq_true_iff.mp he).2
      · cases h
  external_empty _ w h := by
    cases w with
    | nil => rfl
    | cons e rest =>
      simp only at h ⊢
      split at h
      · cases h
      · rename_i he
        rw [if_neg he]
  matches_name _ _ _ := rfl
  isTrue_env _ _ _ := rfl
  initData_config _ _ _ _ := rfl

instance (trie : EventTrie) (event eventName : List Char) : Decidable (PromelaPasses trie event eventName) :=
  inferInstanceAs (Decidable (∀ events ∈ promelaEvents trie event, eventName ∈ events))

/-- A run that moves inside one region and then leaves both. -/
theorem process_simulates_twoRegions : Simulates FastMicroStep.twoRegions [['e'], ['f']] (fun e => [e])
    (namedEvents (eventTrie [['e'], ['f']]).words) [{ name := "e" }, { name := "f" }] := by
  refine process_simulates ChartToC.twoRegions_plainChart ?_ ?_ _ _
  · exact ⟨Or.inl rfl, by decide +kernel, by decide +kernel, by decide +kernel, by decide +kernel⟩
  · exact ⟨by decide +kernel, by decide +kernel, by decide +kernel, by decide +kernel, by decide +kernel⟩

end ChartToPromela

end Uscxml
