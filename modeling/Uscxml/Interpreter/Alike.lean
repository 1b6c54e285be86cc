import Uscxml.FastMicroStep.Simulation
import Uscxml.Interpreter.Session

/-!
# Interpreters that behave alike

When is a difference between two interpreters never seen? `D` relates the states of two data models that answer alike
from then on. `_currEvent` is read by an empty `<finalize>` only, behind the `dequeueExternal` that sets it.
-/

namespace Uscxml

variable {α δ ι β : Type}

def Answered (R : δ → δ → Prop) (x x' : α × δ) : Prop := x.1 = x'.1 ∧ R x.2 x'.2

theorem Answered.exists {R : δ → δ → Prop} {x x' : α × δ} (h : Answered R x x') :
    ∃ a w w', x = (a, w) ∧ x' = (a, w') ∧ R w w' :=
  ⟨x.1, x.2, x'.2, rfl, Prod.ext h.1.symm rfl, h.2⟩

/-- Related data models, and equal members but for `_currEvent`. -/
structure Session.Alike (D : δ → δ → Prop) (s s' : Session δ ι) : Prop where
  dataModel : D s.dataModel s'.dataModel
  internalQueue : s.internalQueue = s'.internalQueue
  externalQueue : s.externalQueue = s'.externalQueue
  delayQueue : s.delayQueue = s'.delayQueue
  delayedEventTargets : s.delayedEventTargets = s'.delayedEventTargets
  invokers : s.invokers = s'.invokers
  issued : s.issued = s'.issued

structure Impl.Alike (D : δ → δ → Prop) (w w' : Impl δ ι) : Prop where
  session : w.toSession.Alike D w'.toSession
  finalize : w.finalize = w'.finalize
  autoForwarders : w.autoForwarders = w'.autoForwarders
  invokeIds : w.invokeIds = w'.invokeIds

/-- Related data models answer alike and stay related, whatever is asked of them. -/
structure Platform.Respects (P : Platform δ ι) (D : δ → δ → Prop) : Prop where
  evalAsBool : ∀ C expr dm dm', D dm dm' → Answered D (P.evalAsBool C expr dm) (P.evalAsBool C expr dm')
  evalAsData : ∀ C expr dm dm', D dm dm' → Answered D (P.evalAsData C expr dm) (P.evalAsData C expr dm')
  elementAsEvaluatedData : ∀ C text dm dm', D dm dm' →
    Answered D (P.elementAsEvaluatedData C text dm) (P.elementAsEvaluatedData C text dm')
  assign : ∀ C location data dm dm', D dm dm' → Answered D (P.assign C location data dm) (P.assign C location data dm')
  setEvent : ∀ event dm dm', D dm dm' → D (P.setEvent event dm) (P.setEvent event dm')
  init : ∀ C r dm dm', D dm dm' → Answered D (P.init C r dm) (P.init C r dm')
  process : ∀ C block (s s' : Session δ ι), s.Alike D s' → (block.isContent = true ∨ s.currEvent = s'.currEvent) →
    Answered (Session.Alike D) (P.process C block s) (P.process C block s')
  doneData : ∀ C r (s s' : Session δ ι), s.Alike D s' → Answered (Session.Alike D) (P.doneData C r s) (P.doneData C r s')

theorem Session.Alike.refl {D : δ → δ → Prop} {s : Session δ ι} (h : D s.dataModel s.dataModel) : s.Alike D s :=
  ⟨h, rfl, rfl, rfl, rfl, rfl, rfl⟩

namespace Interpreter

section

variable {P : Platform δ ι} {d : Document β} {D : δ → δ → Prop} {w w' : Impl δ ι}

theorem alike_withDataModel (h : w.Alike D w') {dm dm' : δ} (hdm : D dm dm') :
    Impl.Alike D { w with dataModel := dm } { w' with dataModel := dm' } :=
  ⟨{ h.session with dataModel := hdm }, h.finalize, h.autoForwarders, h.invokeIds⟩

theorem alike_withSession (h : w.Alike D w') {s s' : Session δ ι} (hs : s.Alike D s') :
    Impl.Alike D { w with toSession := s } { w' with toSession := s' } := ⟨hs, h.finalize, h.autoForwarders, h.invokeIds⟩

theorem enqueueInternal_alike (event : Event) (h : w.Alike D w') :
    (enqueueInternal event w).Alike D (enqueueInternal event w') :=
  ⟨{ h.session with internalQueue := congrArg (· ++ [event]) h.session.internalQueue }, h.finalize, h.autoForwarders,
    h.invokeIds⟩

theorem enqueueExternal_alike (event : Event) (h : w.Alike D w') :
    (enqueueExternal event w).Alike D (enqueueExternal event w') :=
  ⟨{ h.session with externalQueue := congrArg (· ++ [event]) h.session.externalQueue }, h.finalize, h.autoForwarders,
    h.invokeIds⟩

/-! ### Queues and conditions -/

theorem dequeueInternal_alike (hP : P.Respects D) (h : w.Alike D w') :
    Answered (Impl.Alike D) (dequeueInternal P w) (dequeueInternal P w') := by
  simp only [dequeueInternal, Answered, ← h.session.internalQueue]
  refine ⟨trivial, ⟨{ h.session with internalQueue := rfl, dataModel := ?_ }, h.finalize, h.autoForwarders, h.invokeIds⟩⟩
  dsimp only
  split
  · exact hP.setEvent _ _ _ h.session.dataModel
  · exact h.session.dataModel

theorem autoForward_alike (event : Event) (h : w.Alike D w') : (autoForward P event w).Alike D (autoForward P event w') := by
  refine ⟨{ h.session with invokers := ?_ }, h.finalize, h.autoForwarders, h.invokeIds⟩
  simp only [autoForward, h.autoForwarders, h.session.invokers]

theorem process_alike (hP : P.Respects D) (C : Finset TreePath) (block : Ref) (h : w.Alike D w')
    (hblock : block.isContent = true ∨ w.currEvent = w'.currEvent) :
    Answered (Impl.Alike D) (process P C block w) (process P C block w') := by
  obtain ⟨hthrown, hsession⟩ := hP.process C block _ _ h.session hblock
  exact ⟨hthrown, alike_withSession h hsession⟩

theorem deliver_alike (hP : P.Respects D) (C : Finset TreePath) (event : Event) (h : w.Alike D w')
    (hcurr : w.currEvent = w'.currEvent) : Answered (Impl.Alike D) (deliver P C event w) (deliver P C event w') := by
  have hset := alike_withDataModel h (hP.setEvent event _ _ h.session.dataModel)
  have hfinalize : finalizeOf event { w with dataModel := P.setEvent event w.dataModel } =
      finalizeOf event { w' with dataModel := P.setEvent event w'.dataModel } := by
    simp only [finalizeOf, h.finalize]
  simp only [deliver, hfinalize]
  split
  · exact ⟨rfl, autoForward_alike event hset⟩
  · rename_i block _
    obtain ⟨hthrown, hprocessed⟩ := process_alike hP C block hset (.inr hcurr)
    simp only [hthrown]
    split
    · exact ⟨rfl, hprocessed⟩
    · exact ⟨rfl, autoForward_alike event hprocessed⟩

theorem dequeueExternal_alike (hP : P.Respects D) (C : Finset TreePath) (h : w.Alike D w') :
    Answered (Impl.Alike D) (dequeueExternal P C w) (dequeueExternal P C w') := by
  have hdequeued : ∀ (event : Event) (queue : List Event),
      Impl.Alike D { w with currEvent := event, externalQueue := queue }
        { w' with currEvent := event, externalQueue := queue } := fun event queue =>
    ⟨{ h.session with externalQueue := rfl }, h.finalize, h.autoForwarders, h.invokeIds⟩
  simp only [dequeueExternal, ← h.session.externalQueue]
  split
  · exact deliver_alike hP C _ (hdequeued _ _) rfl
  · exact ⟨rfl, hdequeued _ _⟩

theorem isTrue_alike (hP : P.Respects D) (C : Finset TreePath) (expr : String) (h : w.Alike D w') :
    Answered (Impl.Alike D) (isTrue P C expr w) (isTrue P C expr w') := by
  obtain ⟨r, dm, dm', hr, hr', hdm⟩ := (hP.evalAsBool C expr _ _ h.session.dataModel).exists
  have hset := alike_withDataModel h hdm
  simp only [isTrue, hr, hr']
  cases r with
  | ok b => exact ⟨rfl, hset⟩
  | error e => exact ⟨rfl, enqueueInternal_alike e hset⟩

theorem initData_alike (hP : P.Respects D) (C : Finset TreePath) (r : Ref) (h : w.Alike D w') :
    (initData P C r w).Alike D (initData P C r w') := by
  obtain ⟨r, dm, dm', hr, hr', hdm⟩ := (hP.init C r _ _ h.session.dataModel).exists
  have hset := alike_withDataModel h hdm
  simp only [initData, hr, hr']
  cases r with
  | ok u => exact hset
  | error e => exact enqueueInternal_alike e hset

theorem raiseDoneEvent_alike (hP : P.Respects D) (C : Finset TreePath) (state : TreePath) (doneData : Option Ref)
    (h : w.Alike D w') : (raiseDoneEvent P d C state doneData w).Alike D (raiseDoneEvent P d C state doneData w') := by
  simp only [raiseDoneEvent]
  cases doneData with
  | none => exact enqueueInternal_alike _ h
  | some r =>
    obtain ⟨fill, s, s', hfill, hfill', hsession⟩ := (hP.doneData C r _ _ h.session).exists
    simp only [hfill, hfill']
    exact enqueueInternal_alike _ (alike_withSession h hsession)

/-! ### Invocations -/

theorem evalAttr_alike (hP : P.Respects D) (C : Finset TreePath) (expr plain : Option String) (default : String)
    (h : w.Alike D w') : Answered (Impl.Alike D) (evalAttr P C expr plain default w) (evalAttr P C expr plain default w') := by
  cases expr with
  | none => exact ⟨rfl, h⟩
  | some expr =>
    obtain ⟨hanswer, hdm⟩ := hP.evalAsData C expr _ _ h.session.dataModel
    exact ⟨congrArg (Except.map Data.atom) hanswer, alike_withDataModel h hdm⟩

theorem invokeId_alike (hP : P.Respects D) (C : Finset TreePath) (stateId : String) (e : InvokeElem β) (h : w.Alike D w') :
    Answered (Impl.Alike D) (invokeId P C stateId e w) (invokeId P C stateId e w') := by
  rw [invokeId, invokeId]
  cases e.id with
  | some id => exact ⟨rfl, h⟩
  | none =>
    have hissued : Impl.Alike D { w with issued := w.issued + 1 } { w' with issued := w'.issued + 1 } :=
      ⟨{ h.session with issued := congrArg (· + 1) h.session.issued }, h.finalize, h.autoForwarders, h.invokeIds⟩
    simp only [h.session.issued] at hissued ⊢
    cases e.idlocation with
    | none => exact ⟨rfl, hissued⟩
    | some location =>
      obtain ⟨hanswer, hdm⟩ := hP.assign C location (Data.ofText (stateId ++ "." ++ P.uuid w'.issued)) _ _
        h.session.dataModel
      exact ⟨congrArg (Except.map fun _ => _) hanswer, alike_withDataModel hissued hdm⟩

theorem invokeHead_alike (hP : P.Respects D) (C : Finset TreePath) (stateId : String) (e : InvokeElem β)
    (h : w.Alike D w') : Answered (Impl.Alike D) (invokeHead P C stateId e w) (invokeHead P C stateId e w') := by
  rw [invokeHead, invokeHead]
  obtain ⟨type, w₁, w₁', htype, htype', h₁⟩ :=
    (evalAttr_alike hP C e.typeexpr e.type "http://www.w3.org/TR/scxml/" h).exists
  rw [htype, htype']
  cases type with
  | error err => exact ⟨rfl, h₁⟩
  | ok type =>
    obtain ⟨source, w₂, w₂', hsource, hsource', h₂⟩ := (evalAttr_alike hP C e.srcexpr e.src "" h₁).exists
    simp only [hsource, hsource']
    cases source with
    | error err => exact ⟨rfl, h₂⟩
    | ok source =>
      obtain ⟨id, w₃, w₃', hid, hid', h₃⟩ := (invokeId_alike hP C stateId e h₂).exists
      simp only [hid, hid']
      cases id with
      | error err => exact ⟨rfl, h₃⟩
      | ok id => exact ⟨rfl, h₃⟩

theorem evalAll_alike {l : List (String × (δ → Except Event Data × δ))}
    (hl : ∀ e ∈ l, ∀ dm dm', D dm dm' → Answered D (e.2 dm) (e.2 dm')) {dm dm' : δ} (hdm : D dm dm') :
    Answered D (evalAll l dm) (evalAll l dm') := by
  induction l generalizing dm dm' with
  | nil => exact ⟨rfl, hdm⟩
  | cons e l ih =>
    obtain ⟨name, eval⟩ := e
    obtain ⟨value, dm₁, dm₁', hvalue, hvalue', h₁⟩ := (hl (name, eval) List.mem_cons_self dm dm' hdm).exists
    dsimp only at hvalue hvalue'
    simp only [evalAll, hvalue, hvalue']
    cases value with
    | error err => exact ⟨rfl, h₁⟩
    | ok value =>
      obtain ⟨values, dm₂, dm₂', hvalues, hvalues', h₂⟩ := (ih (fun e he => hl e (List.mem_cons_of_mem _ he)) h₁).exists
      simp only [hvalues, hvalues']
      cases values with
      | error err => exact ⟨rfl, h₂⟩
      | ok values => exact ⟨rfl, h₂⟩

theorem evalParam_alike (hP : P.Respects D) (C : Finset TreePath) (p : ParamElem) {dm dm' : δ} (hdm : D dm dm') :
    Answered D (evalParam P C p dm) (evalParam P C p dm') := by
  rw [evalParam]
  cases p.expr with
  | some expr => exact hP.evalAsData C expr dm dm' hdm
  | none =>
    cases p.location with
    | some location => exact hP.evalAsData C location dm dm' hdm
    | none => exact hP.elementAsEvaluatedData C p.text dm dm' hdm

theorem invokeArguments_alike (hP : P.Respects D) (C : Finset TreePath) (e : InvokeElem β) (event : Event) {dm dm' : δ}
    (hdm : D dm dm') : Answered D (invokeArguments P C e event dm) (invokeArguments P C e event dm') := by
  have hnames : ∀ x ∈ e.namelist.map fun name => (name, P.evalAsData C name), ∀ dm dm', D dm dm' →
      Answered D (x.2 dm) (x.2 dm') := by
    intro x hx
    obtain ⟨name, -, rfl⟩ := List.mem_map.mp hx
    exact hP.evalAsData C name
  have hparams : ∀ x ∈ e.params.map fun p => (p.name, evalParam P C p), ∀ dm dm', D dm dm' →
      Answered D (x.2 dm) (x.2 dm') := by
    intro x hx
    obtain ⟨p, -, rfl⟩ := List.mem_map.mp hx
    exact fun _ _ => evalParam_alike hP C p
  rw [invokeArguments, invokeArguments]
  obtain ⟨namelist, dm₁, dm₁', hnamelist, hnamelist', h₁⟩ := (evalAll_alike hnames hdm).exists
  rw [hnamelist, hnamelist']
  cases namelist with
  | error err => exact ⟨rfl, h₁⟩
  | ok namelist =>
    obtain ⟨params, dm₂, dm₂', hp, hp', h₂⟩ := (evalAll_alike hparams h₁).exists
    simp only [hp, hp']
    cases params with
    | error err => exact ⟨rfl, h₂⟩
    | ok params =>
      cases e.content with
      | none => exact ⟨rfl, h₂⟩
      | some text =>
        obtain ⟨data, dm₃, dm₃', hdata, hdata', h₃⟩ := (hP.elementAsEvaluatedData C text _ _ h₂).exists
        simp only [hdata, hdata']
        cases data with
        | error err => exact ⟨rfl, h₃⟩
        | ok data => exact ⟨rfl, h₃⟩

theorem startInvoker_alike (type source : String) (r : Ref) (e : InvokeElem β) (event : Event) (h : w.Alike D w') :
    (startInvoker P type source r e event w).Alike D (startInvoker P type source r e event w') := by
  rw [startInvoker, startInvoker]
  split
  · exact h
  · rename_i invoker _
    dsimp only
    split
    · refine ⟨{ h.session with invokers := ?_ }, ?_, h.autoForwarders, h.invokeIds⟩
      · simp only [h.session.invokers]
      · simp only [h.finalize]
    · refine ⟨{ h.session with invokers := ?_ }, ?_, ?_, h.invokeIds⟩
      · simp only [h.session.invokers]
      · simp only [h.finalize]
      · simp only [h.autoForwarders]

theorem invokeTail_alike (hP : P.Respects D) (C : Finset TreePath) (type source id : String) (r : Ref) (e : InvokeElem β)
    (h : w.Alike D w') : (invokeTail P C type source id r e w).Alike D (invokeTail P C type source id r e w') := by
  obtain ⟨event, dm, dm', hevent, hevent', hdm⟩ :=
    (invokeArguments_alike hP C e { invokeid := id } h.session.dataModel).exists
  rw [invokeTail, invokeTail, hevent, hevent']
  cases event with
  | error err => exact alike_withDataModel h hdm
  | ok event => exact startInvoker_alike type source r e event (alike_withDataModel h hdm)

theorem invoke_alike (hP : P.Respects D) (C : Finset TreePath) (r : Ref) (h : w.Alike D w') :
    (invoke P d C r w).Alike D (invoke P d C r w') := by
  rw [invoke, invoke]
  split
  · exact h
  · rename_i stateId e _
    obtain ⟨head, w₁, w₁', hhead, hhead', h₁⟩ := (invokeHead_alike hP C stateId e h).exists
    rw [hhead, hhead']
    cases head with
    | error err => exact h₁
    | ok head =>
      refine invokeTail_alike hP C _ _ _ r e ⟨h₁.session, h₁.finalize, h₁.autoForwarders, ?_⟩
      simp only [h₁.invokeIds]

theorem uninvoke_alike (r : Ref) (h : w.Alike D w') : (uninvoke r w).Alike D (uninvoke r w') := by
  rw [uninvoke, uninvoke, h.invokeIds]
  split
  · exact ⟨h.session, h.finalize, h.autoForwarders, rfl⟩
  · rename_i id _
    dsimp only
    rw [h.session.invokers]
    split
    · exact ⟨{ h.session with invokers := rfl }, congrArg (Function.update · id none) h.finalize,
        congrArg (Function.update · id false) h.autoForwarders, rfl⟩
    · exact ⟨h.session, h.finalize, h.autoForwarders, congrArg (Function.update · r none) h.invokeIds⟩

/-- The callbacks do not tell interpreters that are alike from each other. -/
theorem callbacks_simulates (hP : P.Respects D) : (callbacks P d).Simulates (callbacks P d) (Impl.Alike D) where
  isMatched _ _ _ _ h := ⟨rfl, h⟩
  isTrue C expr _ _ h := isTrue_alike hP C expr h
  raiseDoneEvent C state doneData _ _ h := raiseDoneEvent_alike hP C state doneData h
  initData C r _ _ h := initData_alike hP C r h
  process C r _ _ hr h := (process_alike hP C r h (.inl hr)).2
  dequeueInternal _ _ h := dequeueInternal_alike hP h
  dequeueExternal C _ _ h := dequeueExternal_alike hP C h
  invoke C r _ _ h := invoke_alike hP C r h
  uninvoke _ r _ _ h := uninvoke_alike r h

end

end Interpreter

end Uscxml
