import Uscxml.FastMicroStep.Invocations
import Uscxml.FastMicroStep.Simulation
import Uscxml.Interpreter.Session

/-!
# The ids of invocations

`BasicContentExecutor::invoke` keeps the id of an invocation with its element and `uninvoke` asserts that it is
there. The microstepper marks a state as invoked also when `invoke` has thrown, and an error in `typeexpr`,
`srcexpr` or `idlocation` comes before the id is kept.
-/

namespace Uscxml

namespace FastMicroStep

variable {ω : Type} (T : Tables) (cb : Callbacks ω)

theorem each_env {f : Ref → St ω → St ω} {g : Finset TreePath → Ref → ω → ω}
    (hf : ∀ r s, (f r s).env = g s.configuration r s.env) (hconf : ∀ r s, (f r s).toMicro = s.toMicro) (l : List Ref)
    (s : St ω) : (each f l s).env = l.foldl (fun w r => g s.configuration r w) s.env := by
  induction l generalizing s with
  | nil => rfl
  | cons r l ih =>
    have hcons : each f (r :: l) s = each f l (f r s) := rfl
    rw [hcons, ih, hf, hconf]
    rfl

theorem selectAndStep_invocations (s : St ω) : (selectAndStep T cb s).2.invocations = s.invocations := by
  generalize hsel : selectTransitions T cb s.configuration s.event s.env = sel
  cases hfound : sel.found with
  | true =>
    rw [selectAndStep_of_found T cb hsel hfound]
    simp [microstep_toMicro, prepared]
  | false => rw [selectAndStep_of_not_found T cb hsel hfound]

end FastMicroStep

namespace Interpreter

open FastMicroStep

variable {δ ι β : Type} (P : Platform δ ι) (d : Document β)

/-! ### What the callbacks do to the ids -/

/-- The ids are these, and whether an assertion has failed. -/
def HasIds (ids : Ref → Option String) (failed : Bool) (w : Impl δ ι) : Prop := w.invokeIds = ids ∧ w.assertionFailed = failed

theorem evalAttr_ids (C : Finset TreePath) (expr plain : Option String) (default : String) {w : Impl δ ι}
    {ids : Ref → Option String} {failed : Bool} (h : HasIds ids failed w) :
    HasIds ids failed (evalAttr P C expr plain default w).2 := by
  cases expr with
  | none => exact h
  | some expr => exact h

theorem invokeId_ids (C : Finset TreePath) (stateId : String) (e : InvokeElem β) {w : Impl δ ι}
    {ids : Ref → Option String} {failed : Bool} (h : HasIds ids failed w) :
    HasIds ids failed (invokeId P C stateId e w).2 := by
  rw [invokeId]
  split
  · exact h
  · simp only
    split
    · exact h
    · exact h

theorem invokeHead_ids (C : Finset TreePath) (stateId : String) (e : InvokeElem β) {w : Impl δ ι}
    {ids : Ref → Option String} {failed : Bool} (h : HasIds ids failed w) :
    HasIds ids failed (invokeHead P C stateId e w).2 := by
  have htype := evalAttr_ids P C e.typeexpr e.type "http://www.w3.org/TR/scxml/" h
  rw [invokeHead]
  generalize evalAttr P C e.typeexpr e.type "http://www.w3.org/TR/scxml/" w = answer at htype
  rcases answer with ⟨_ | type, w₁⟩
  · exact htype
  have hsource := evalAttr_ids P C e.srcexpr e.src "" htype
  simp only
  generalize evalAttr P C e.srcexpr e.src "" w₁ = answer at hsource
  rcases answer with ⟨_ | source, w₂⟩
  · exact hsource
  have hid := invokeId_ids P C stateId e hsource
  simp only
  generalize invokeId P C stateId e w₂ = answer at hid
  rcases answer with ⟨_ | id, w₃⟩
  · exact hid
  · exact hid

theorem invokeTail_ids (C : Finset TreePath) (type source id : String) (r : Ref) (e : InvokeElem β) {w : Impl δ ι}
    {ids : Ref → Option String} {failed : Bool} (h : HasIds ids failed w) :
    HasIds ids failed (invokeTail P C type source id r e w) := by
  rw [invokeTail]
  rcases invokeArguments P C e { invokeid := id } w.dataModel with ⟨_ | event, dm⟩
  · exact h
  · simp only [startInvoker]
    rcases P.createInvoker type source with _ | invoker
    · exact h
    · simp only
      rcases P.startInvoker invoker source event with _ | invoker
      · exact h
      · exact h

/-- The start of the invocation of `r` evaluates without an error. -/
def headOk (C : Finset TreePath) (r : Ref) (w : Impl δ ι) : Bool :=
  (invokeElem? d r).all fun e => (invokeHead P C e.1 e.2 w).1.isOk

theorem invoke_ids (C : Finset TreePath) (r : Ref) (w : Impl δ ι) :
    (invoke P d C r w).assertionFailed = w.assertionFailed ∧
      ∀ r' ≠ r, (invoke P d C r w).invokeIds r' = w.invokeIds r' := by
  rw [invoke]
  cases invokeElem? d r with
  | none => exact ⟨rfl, fun _ _ => rfl⟩
  | some e =>
    obtain ⟨stateId, e⟩ := e
    have hhead : HasIds w.invokeIds w.assertionFailed (invokeHead P C stateId e w).2 :=
      invokeHead_ids P C stateId e ⟨rfl, rfl⟩
    simp only
    generalize invokeHead P C stateId e w = answer at hhead
    rcases answer with ⟨_ | ⟨type, source, id⟩, w₁⟩
    · exact ⟨hhead.2, fun r' _ => congrFun hhead.1 r'⟩
    · have hkept : HasIds (Function.update w₁.invokeIds r (some id)) w₁.assertionFailed
          { w₁ with invokeIds := Function.update w₁.invokeIds r (some id) } := ⟨rfl, rfl⟩
      have htail := invokeTail_ids P C type source id r e hkept
      refine ⟨htail.2.trans hhead.2, fun r' hne => ?_⟩
      rw [htail.1, Function.update_of_ne hne]
      exact congrFun hhead.1 r'

theorem invoke_ids_of_headOk {C : Finset TreePath} {r : Ref} {w : Impl δ ι} (helem : (invokeElem? d r).isSome = true)
    (hok : headOk P d C r w = true) : ((invoke P d C r w).invokeIds r).isSome = true := by
  obtain ⟨⟨stateId, e⟩, he⟩ := Option.isSome_iff_exists.mp helem
  rw [headOk, he, Option.all_some] at hok
  rw [invoke, he]
  simp only
  generalize invokeHead P C stateId e w = answer at hok
  rcases answer with ⟨_ | ⟨type, source, id⟩, w₁⟩
  · simp [Except.isOk, Except.toBool] at hok
  · have hkept : HasIds (Function.update w₁.invokeIds r (some id)) w₁.assertionFailed
        { w₁ with invokeIds := Function.update w₁.invokeIds r (some id) } := ⟨rfl, rfl⟩
    have htail := invokeTail_ids P C type source id r e hkept
    simp only
    rw [htail.1, Function.update_self]
    rfl

theorem uninvoke_ids_of_ne {r r' : Ref} (hne : r' ≠ r) (w : Impl δ ι) : (uninvoke r w).invokeIds r' = w.invokeIds r' := by
  rw [uninvoke]
  split
  · rfl
  · simp only [Function.update_of_ne hne]
    split <;> rfl

theorem uninvoke_assertion {r : Ref} {w : Impl δ ι} (h : (w.invokeIds r).isSome = true) :
    (uninvoke r w).assertionFailed = w.assertionFailed := by
  rw [uninvoke]
  split
  · simp [*] at h
  · simp only
    split <;> rfl

theorem callbacks_agree (ids : Ref → Option String) (failed : Bool) :
    (callbacks P d).Agree (callbacks P d) fun w w' => w = w' ∧ HasIds ids failed w where
  isMatched _ _ _ _ h := ⟨rfl, h⟩
  isTrue C expr w w' h := by
    obtain ⟨rfl, h⟩ := h
    refine ⟨rfl, rfl, ?_⟩
    simp only [callbacks, isTrue]
    split
    · exact h
    · exact h
  raiseDoneEvent C state doneData w w' h := by
    obtain ⟨rfl, h⟩ := h
    refine ⟨rfl, ?_⟩
    simp only [callbacks, raiseDoneEvent]
    split
    · exact h
    · exact h
  initData C r w w' h := by
    obtain ⟨rfl, h⟩ := h
    refine ⟨rfl, ?_⟩
    simp only [callbacks, initData]
    split
    · exact h
    · exact h
  process C r w w' _ h := by
    obtain ⟨rfl, h⟩ := h
    exact ⟨rfl, h⟩

/-! ### Lists of elements -/

theorem foldl_uninvoke_ids {l : List Ref} (hl : l.Nodup) {w : Impl δ ι} (h : ∀ r ∈ l, (w.invokeIds r).isSome = true) :
    (l.foldl (fun w r => uninvoke r w) w).assertionFailed = w.assertionFailed ∧
      ∀ r ∉ l, (l.foldl (fun w r => uninvoke r w) w).invokeIds r = w.invokeIds r := by
  induction l generalizing w with
  | nil => exact ⟨rfl, fun _ _ => rfl⟩
  | cons r l ih =>
    rw [List.nodup_cons] at hl
    have hrest : ∀ r' ∈ l, ((uninvoke r w).invokeIds r').isSome = true := by
      intro r' hr'
      rw [uninvoke_ids_of_ne (fun heq : r' = r => hl.1 (heq ▸ hr'))]
      exact h r' (List.mem_cons_of_mem r hr')
    obtain ⟨hfailed, hids⟩ := ih hl.2 hrest
    refine ⟨hfailed.trans (uninvoke_assertion (h r List.mem_cons_self)), ?_⟩
    intro r' hr'
    rw [List.mem_cons, not_or] at hr'
    rw [List.foldl_cons, hids r' hr'.2, uninvoke_ids_of_ne hr'.1]

/-- The invocations of a list of elements all evaluate their start. -/
def headsOk (C : Finset TreePath) : List Ref → Impl δ ι → Bool
  | [], _ => true
  | r :: l, w => headOk P d C r w && headsOk C l (invoke P d C r w)

theorem foldl_invoke_ids {C : Finset TreePath} {l : List Ref} (hl : l.Nodup) (helem : ∀ r ∈ l, (invokeElem? d r).isSome = true)
    {w : Impl δ ι} (hok : headsOk P d C l w = true) :
    (l.foldl (fun w r => invoke P d C r w) w).assertionFailed = w.assertionFailed ∧
      (∀ r ∈ l, ((l.foldl (fun w r => invoke P d C r w) w).invokeIds r).isSome = true) ∧
      ∀ r ∉ l, (l.foldl (fun w r => invoke P d C r w) w).invokeIds r = w.invokeIds r := by
  induction l generalizing w with
  | nil => exact ⟨rfl, by simp, fun _ _ => rfl⟩
  | cons r l ih =>
    rw [List.nodup_cons] at hl
    rw [headsOk, Bool.and_eq_true] at hok
    obtain ⟨hfailed, hsome, hids⟩ := ih hl.2 (fun r' hr' => helem r' (List.mem_cons_of_mem r hr')) hok.2
    refine ⟨hfailed.trans (invoke_ids P d C r w).1, ?_, ?_⟩
    · intro r' hr'
      rcases List.mem_cons.mp hr' with rfl | hr'
      · rw [List.foldl_cons, hids r' hl.1]
        exact invoke_ids_of_headOk P d (helem r' List.mem_cons_self) hok.1
      · exact hsome r' hr'
    · intro r' hr'
      rw [List.mem_cons, not_or] at hr'
      rw [List.foldl_cons, hids r' hr'.2, (invoke_ids P d C r w).2 r' hr'.1]

/-! ### Runs -/

variable (T : Tables)

/-- No assertion has failed, and every element of a state that is marked as invoked has an id. -/
structure Stored (s : St (Impl δ ι)) : Prop where
  assertion : s.env.assertionFailed = false
  ids : ∀ i ∈ T.states, i ∈ s.invocations → ∀ r ∈ (T.state i).invoke, (s.env.invokeIds r).isSome = true

/-- The invocations that the rounds for these states start evaluate their start. -/
def startsOk : List TreePath → St (Impl δ ι) → Bool
  | [], _ => true
  | i :: l, s =>
    (!(decide (i ∈ s.configuration ∧ i ∉ s.invocations)) || headsOk P d s.configuration (T.state i).invoke s.env) &&
      startsOk l (manageInvocation T (callbacks P d) s i)

variable {T}

theorem Stored.congr {s s' : St (Impl δ ι)} (h : Stored T s) (hI : s'.invocations = s.invocations)
    (hids : s'.env.invokeIds = s.env.invokeIds) (hfailed : s'.env.assertionFailed = s.env.assertionFailed) : Stored T s' :=
  ⟨hfailed.trans h.assertion, by rw [hI, hids]; exact h.ids⟩

theorem Stored.cancels (hT : OwnInvokes T) {s : St (Impl δ ι)} (h : Stored T s) {i : TreePath} (hi : i ∈ T.states)
    (hmarked : i ∈ s.invocations) :
    Stored T { each (FastMicroStep.uninvoke (callbacks P d)) (T.state i).invoke s with
      invocations := s.invocations.erase i } := by
  have henv := each_env (f := FastMicroStep.uninvoke (callbacks P d)) (g := fun _ r w => uninvoke r w)
    (fun _ _ => rfl) (fun _ _ => rfl) (T.state i).invoke s
  obtain ⟨hfailed, hids⟩ := foldl_uninvoke_ids (hT.nodup i) (h.ids i hi hmarked)
  rw [← henv] at hfailed hids
  refine ⟨hfailed.trans h.assertion, ?_⟩
  intro j hj hmarked r hr
  rw [Finset.mem_erase] at hmarked
  change ((each _ _ s).env.invokeIds r).isSome = true
  rw [hids r fun hr' => hmarked.1 (hT.owner j i r hr hr')]
  exact h.ids j hj hmarked.2 r hr

theorem Stored.starts (hT : OwnInvokes T) {s : St (Impl δ ι)} (h : Stored T s) {i : TreePath}
    (helem : ∀ r ∈ (T.state i).invoke, (invokeElem? d r).isSome = true)
    (hok : headsOk P d s.configuration (T.state i).invoke s.env = true) :
    Stored T { each (FastMicroStep.invoke (callbacks P d)) (T.state i).invoke s with
      invocations := insert i s.invocations } := by
  have henv := each_env (f := FastMicroStep.invoke (callbacks P d)) (g := invoke P d)
    (fun _ _ => rfl) (fun _ _ => rfl) (T.state i).invoke s
  obtain ⟨hfailed, hsome, hids⟩ := foldl_invoke_ids P d (hT.nodup i) helem hok
  rw [← henv] at hfailed hsome hids
  refine ⟨hfailed.trans h.assertion, ?_⟩
  intro j hj hmarked r hr
  change ((each _ _ s).env.invokeIds r).isSome = true
  by_cases hr' : r ∈ (T.state i).invoke
  · exact hsome r hr'
  · rw [hids r hr']
    rcases Finset.mem_insert.mp hmarked with rfl | hmarked
    · exact absurd hr hr'
    · exact h.ids j hj hmarked r hr

theorem foldl_manageInvocation_stored (hT : OwnInvokes T)
    (helem : ∀ i, ∀ r ∈ (T.state i).invoke, (invokeElem? d r).isSome = true) {l : List TreePath} (hl : ∀ i ∈ l, i ∈ T.states)
    {s : St (Impl δ ι)} (h : Stored T s) (hok : startsOk P d T l s = true) :
    Stored T (l.foldl (manageInvocation T (callbacks P d)) s) := by
  induction l generalizing s with
  | nil => exact h
  | cons i l ih =>
    rw [startsOk, Bool.and_eq_true] at hok
    refine ih (fun j hj => hl j (List.mem_cons_of_mem i hj)) ?_ hok.2
    have hi := hl i List.mem_cons_self
    by_cases hC : i ∈ s.configuration
    · by_cases hI : i ∈ s.invocations
      · simpa [manageInvocation, hC, hI] using h
      · have hheads : headsOk P d s.configuration (T.state i).invoke s.env = true := by simpa [hC, hI] using hok.1
        simpa [manageInvocation, hC, hI] using h.starts P d hT (helem i) hheads
    · by_cases hI : i ∈ s.invocations
      · simpa [manageInvocation, hC, hI] using h.cancels P d hT hi hI
      · simpa [manageInvocation, hC, hI] using h

theorem selectAndStep_stored (hcontents : T.Contents) {s : St (Impl δ ι)} (h : Stored T s) :
    Stored T (selectAndStep T (callbacks P d) s).2 := by
  have hrelated : Related (fun w w' => w = w' ∧ HasIds s.env.invokeIds s.env.assertionFailed w) s.calls s.calls s s :=
    ⟨rfl, ⟨rfl, rfl, rfl⟩, [], by simp, by simp⟩
  have hkept := (hrelated.selectAndStep hcontents (callbacks_agree P d _ _) rfl).2.env.2
  exact h.congr (selectAndStep_invocations T _ s) hkept.1 hkept.2

theorem completeState_stored (hT : OwnInvokes T) (hcontents : T.Contents) {s : St (Impl δ ι)} (h : Stored T s) {i : TreePath}
    (hi : i ∈ T.states) : Stored T (completeState T (callbacks P d) s i) := by
  have hrelated : Related (fun w w' => w = w' ∧ HasIds s.env.invokeIds s.env.assertionFailed w) s.calls s.calls s s :=
    ⟨rfl, ⟨rfl, rfl, rfl⟩, [], by simp, by simp⟩
  have hcontent := (hrelated.each fun r hr _ _ h => h.process (callbacks_agree P d _ _) r (hcontents.onExit i r hr)).env.2
  have hleft : Stored T (each (FastMicroStep.process (callbacks P d)) (T.state i).onExit s) :=
    h.congr (by rw [each_process_toMicro]) hcontent.1 hcontent.2
  have hstored : Stored T (if i ∈ s.configuration then
      each (FastMicroStep.process (callbacks P d)) (T.state i).onExit s else s) := by
    split
    · exact hleft
    · exact h
  rw [completeState]
  generalize (if i ∈ s.configuration then
    each (FastMicroStep.process (callbacks P d)) (T.state i).onExit s else s) = s₁ at hstored
  simp only
  split
  · exact hstored.cancels P d hT hi (by assumption)
  · exact hstored

theorem complete_stored (hT : OwnInvokes T) (hcontents : T.Contents) {s : St (Impl δ ι)} (h : Stored T s) :
    Stored T (complete T (callbacks P d) s) := by
  have hcompleted : Stored T (T.states.reverse.foldl (completeState T (callbacks P d)) (emit .beforeCompletion s)) :=
    List.foldl_invariant (Stored T) (fun _ i hi h => completeState_stored P d hT hcontents h (List.mem_reverse.mp hi))
      (h.congr rfl rfl rfl)
  exact hcompleted.congr rfl rfl rfl

variable (T)

/-- The step starts no invocation whose `typeexpr`, `srcexpr` or `idlocation` cannot be evaluated. -/
def HeadsEvaluate (s : St (Impl δ ι)) : Prop :=
  Drains (callbacks P d) s → startsOk P d T T.states
    { s with event := (dequeueInternal P s.env).1, env := (dequeueInternal P s.env).2 } = true

variable {T}

theorem dequeueExternal_ids (C : Finset TreePath) (w : Impl δ ι) :
    (dequeueExternal P C w).2.invokeIds = w.invokeIds ∧ (dequeueExternal P C w).2.assertionFailed = w.assertionFailed := by
  simp only [dequeueExternal]
  split
  · simp only [deliver]
    split
    · exact ⟨rfl, rfl⟩
    · split
      · exact ⟨rfl, rfl⟩
      · exact ⟨rfl, rfl⟩
  · exact ⟨rfl, rfl⟩

theorem step_stored (hT : OwnInvokes T) (hcontents : T.Contents)
    (helem : ∀ i, ∀ r ∈ (T.state i).invoke, (invokeElem? d r).isSome = true) {s : St (Impl δ ι)} (h : Stored T s) (hok : HeadsEvaluate P d T s) : Stored T (step T (callbacks P d) s).2 := by
  have hdrained : Drains (callbacks P d) s → Stored T (drained T (callbacks P d) s) := by
    intro hd
    have hdequeued : Stored T { s with event := (dequeueInternal P s.env).1, env := (dequeueInternal P s.env).2 } :=
      h.congr rfl rfl rfl
    exact foldl_manageInvocation_stored P d hT helem (fun _ hi => hi) hdequeued (hok hd)
  have hasked : AsksExternal (callbacks P d) s → ∀ event w r,
      (callbacks P d).dequeueExternal s.configuration (drained T (callbacks P d) s).env = (r, w) →
      Stored T (dequeued event w (drained T (callbacks P d) s)) := by
    intro ha event w r hd
    have hids := dequeueExternal_ids P s.configuration (drained T (callbacks P d) s).env
    change dequeueExternal P s.configuration (drained T (callbacks P d) s).env = (r, w) at hd
    rw [hd] at hids
    exact (hdrained ha.toDrains).congr rfl hids.1 hids.2
  have harises := phase_arises T (callbacks P d) s
  rw [step_eq_phase]
  generalize phase T (callbacks P d) s = phase at harises
  cases harises with
  | finished => exact h
  | completion => exact complete_stored P d hT hcontents h
  | start =>
    have hrelated : Related (fun w w' => w = w' ∧ HasIds s.env.invokeIds s.env.assertionFailed w) s.calls s.calls s s :=
      ⟨rfl, ⟨rfl, rfl, rfl⟩, [], by simp, by simp⟩
    have hstart := (hrelated.update (fun m => { m with flags := { m.flags with spontaneous := true, initialized := true } })
      fun _ _ => rfl).emit .beforeMicroStep
    have hkept := (hstart.microstep hcontents (callbacks_agree P d _ _) (T.state []).completion ∅ ∅).env.2
    exact h.congr (by rw [Phase.finish, microstep_toMicro]; rfl) hkept.1 hkept.2
  | eventless => exact selectAndStep_stored P d hcontents (h.congr rfl rfl rfl)
  | internal => exact selectAndStep_stored P d hcontents (h.congr rfl rfl rfl)
  | stable hd => exact (hdrained hd).congr rfl rfl rfl
  | thrown ha w u hd => exact hasked ha _ w _ hd
  | external ha event w hd he => exact selectAndStep_stored P d hcontents ((hasked ha event w _ hd).congr rfl rfl rfl)
  | unblocked ha event w hd he =>
    rw [Phase.finish]
    split
    · exact (hasked ha event w _ hd).congr rfl rfl rfl
    · exact hasked ha event w _ hd

/-- The runs of the interpreter in which all invocations evaluate their start. Nothing outside of the steps touches
the ids. -/
inductive EvaluatingRun : St (Impl δ ι) → Prop where
  | init (w : Impl δ ι) (hw : w.assertionFailed = false) : EvaluatingRun { env := w }
  | step {s : St (Impl δ ι)} (hs : EvaluatingRun s) (h : HeadsEvaluate P (resortStates d) (FastMicroStep.init d) s) :
      EvaluatingRun (step (FastMicroStep.init d) (sorted P d) s).2
  | environment {s : St (Impl δ ι)} (w : Impl δ ι) (hs : EvaluatingRun s) (hids : w.invokeIds = s.env.invokeIds)
      (hfailed : w.assertionFailed = s.env.assertionFailed) : EvaluatingRun { s with env := w }
  | cancel {s : St (Impl δ ι)} (hs : EvaluatingRun s) : EvaluatingRun (markAsCancelled s)

theorem invokeElem?_isSome {d : Document β} {i : TreePath} {r : Ref} (hr : r ∈ ((tables d).state i).invoke) :
    (invokeElem? d r).isSome = true := by
  obtain ⟨k, hk, rfl⟩ := List.mem_map.mp hr
  rw [List.mem_range] at hk
  rw [invokeElem?]
  cases he : d.elem? i with
  | none => simp [he] at hk
  | some e =>
    rw [he, Option.elim_some] at hk
    simp [hk]

/-- In such a run `uninvoke` finds an id for every element it is called for. -/
theorem uninvoke_finds_id {s : St (Impl δ ι)} (hs : EvaluatingRun P d s) : s.env.assertionFailed = false := by
  have hstored : Stored (FastMicroStep.init d) s := by
    induction hs with
    | init w hw => exact ⟨hw, by simp⟩
    | step _ h ih =>
      exact step_stored P (resortStates d) (ownInvokes_tables _) (tables_contents _)
        (fun _ _ hr => invokeElem?_isSome hr) ih h
    | environment w _ hids hfailed ih => exact ih.congr rfl hids hfailed
    | cancel _ ih => exact ih.congr rfl rfl rfl
  exact hstored.assertion

instance (T : Tables) (s : St (Impl δ ι)) : Decidable (HeadsEvaluate P d T s) := inferInstanceAs (Decidable (_ → _))

theorem EvaluatingRun.steps {s : St (Impl δ ι)} (hs : EvaluatingRun P d s) (n : Nat)
    (h : ∀ k < n, HeadsEvaluate P (resortStates d) (FastMicroStep.init d)
      (steps (FastMicroStep.init d) (sorted P d) k s)) :
    EvaluatingRun P d (steps (FastMicroStep.init d) (sorted P d) n s) := by
  induction n generalizing s with
  | zero => exact hs
  | succ n ih => exact ih (hs.step (h 0 n.succ_pos)) fun k hk => h (k + 1) (Nat.succ_lt_succ hk)

/-- An invocation whose type is an expression, in a state that is left for an event. -/
def typedInvocation (typeexpr : String) : Document Unit where
  tree :=
    { root := { tag := .scxml }
      kids := .cons
        { tag := .state, id := some "a", invoke := [{ typeexpr := some typeexpr }]
          transitions := [{ target := some ["b"], event := some "e" }] } .nil
        (.cons { tag := .state, id := some "b" } .nil .nil) }

/-- The run up to the end of the second macrostep, in which the invocation is cancelled. -/
def typedRun (typeexpr : String) : St (Impl String Unit) :=
  steps (FastMicroStep.init (typedInvocation typeexpr)) (sorted lastEvent (typedInvocation typeexpr)) 6
    { env := { dataModel := "", externalQueue := [{ name := "e" }] } }

/-- The type cannot be evaluated, and the assertion fails when the state is left. -/
theorem uninvoke_without_id :
    Reachable (FastMicroStep.init (typedInvocation "!")) (sorted lastEvent (typedInvocation "!")) (typedRun "!") ∧
      (typedRun "!").env.assertionFailed = true :=
  ⟨(Reachable.init _).steps _ _ 6, by decide +kernel⟩

theorem uninvoke_finds_id_typed :
    (typedRun "x").env.assertionFailed = false ∧
      past [0] (.invoke [0] 0) (typedRun "x").calls = [.invoked, .exited, .uninvoked] :=
  ⟨uninvoke_finds_id lastEvent (typedInvocation "x")
    (EvaluatingRun.steps lastEvent (typedInvocation "x") (.init _ rfl) 6 (by decide +kernel)), by decide +kernel⟩

end Interpreter

end Uscxml
