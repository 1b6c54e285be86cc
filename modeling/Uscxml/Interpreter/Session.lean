import Uscxml.FastMicroStep.Step

/-!
# The interpreter behind the microstepper

`InterpreterImpl` answers the callbacks of the microstepper from its queues, its data model and its invokers, and
hands blocks of executable content and `<invoke>` elements to `BasicContentExecutor`. The data model, the
invokers and the effect of single blocks are parameters; `δ` is the state of the data model and `ι` that of an
invoker. Maps are functions to `Option`.
-/

namespace Uscxml

structure Timeval where
  sec : Int := 0
  usec : Int := 0
  deriving DecidableEq, Repr

namespace BasicDelayedEventQueue

/-- `callbackData`, less the timer of libevent. -/
structure CallbackData where
  userData : Event := {}
  eventUUID : String := ""
  added : Timeval := {}
  due : Timeval := {}

end BasicDelayedEventQueue

/-- The members of `InterpreterImpl` that executable content can change. `delayQueue` is the `_callbackData` of the
delayed queue, by the uuids of the events, and `issued` counts the uuids handed out. -/
structure Session (δ ι : Type) where
  dataModel : δ
  currEvent : Event := {}
  internalQueue : List Event := []
  externalQueue : List Event := []
  delayQueue : String → Option BasicDelayedEventQueue.CallbackData := fun _ => none
  delayedEventTargets : String → Option (String × String × String) := fun _ => none
  invokers : String → Option ι := fun _ => none
  issued : Nat := 0

/-- `InterpreterImpl`. `invokeIds` is the user data in which `BasicContentExecutor` keeps the id of an `<invoke>`,
and `assertionFailed` records that its assertion about that id has failed. -/
structure Impl (δ ι : Type) extends Session δ ι where
  finalize : String → Option Ref := fun _ => none
  autoForwarders : String → Bool := fun _ => false
  invokeIds : Ref → Option String := fun _ => none
  assertionFailed : Bool := false

/-- What stands behind the interpreter: the data model, the factory's invokers and executable content. Its errors are
`ErrorEvent`s; an exception of another kind, which nothing here catches, is the subject of `ContentErrors`. Expressions
can ask for the configuration. -/
structure Platform (δ ι : Type) where
  nameMatch : String → String → Bool
  evalAsBool : Finset TreePath → String → δ → Except Event Bool × δ
  evalAsData : Finset TreePath → String → δ → Except Event Data × δ
  elementAsEvaluatedData : Finset TreePath → String → δ → Except Event Data × δ
  assign : Finset TreePath → String → Data → δ → Except Event Unit × δ
  setEvent : Event → δ → δ
  init : Finset TreePath → Ref → δ → Except Event Unit × δ
  /-- A block of executable content; `true` when an error has left it, which is in the internal queue then. -/
  process : Finset TreePath → Ref → Session δ ι → Bool × Session δ ι
  /-- What a `<donedata>` adds to a done event; errors go to the internal queue. -/
  doneData : Finset TreePath → Ref → Session δ ι → (Event → Event) × Session δ ι
  /-- The invoker of a type, when the source can be resolved. -/
  createInvoker : String → String → Except Event ι
  startInvoker : ι → String → Event → Except Event ι
  eventFromSCXML : ι → Event → ι
  uuid : Nat → String

namespace Interpreter

variable {δ ι β : Type} (P : Platform δ ι) (d : Document β)

/-! ### Queues and conditions -/

/-- `BasicEventQueue::dequeue`: without an event in time the nameless one. -/
def dequeue : List Event → Event × List Event
  | [] => ({}, [])
  | event :: queue => (event, queue)

def enqueueInternal (event : Event) (w : Impl δ ι) : Impl δ ι := { w with internalQueue := w.internalQueue ++ [event] }

def enqueueExternal (event : Event) (w : Impl δ ι) : Impl δ ι := { w with externalQueue := w.externalQueue ++ [event] }

def dequeueInternal (w : Impl δ ι) : Event × Impl δ ι :=
  let (event, queue) := dequeue w.internalQueue
  (event,
    { w with
      currEvent := event
      internalQueue := queue
      dataModel := if event.toBool then P.setEvent event w.dataModel else w.dataModel })

def finalizeOf (event : Event) (w : Impl δ ι) : Option Ref := if event.invokeid = "" then none else w.finalize event.invokeid

def process (C : Finset TreePath) (block : Ref) (w : Impl δ ι) : Bool × Impl δ ι :=
  let (thrown, session) := P.process C block w.toSession
  (thrown, { w with toSession := session })

def autoForward (event : Event) (w : Impl δ ι) : Impl δ ι :=
  { w with
    invokers := fun id => if w.autoForwarders id then (w.invokers id).map (P.eventFromSCXML · event) else w.invokers id }

/-- The event of `dequeueExternal` with everything that goes with it. -/
def deliver (C : Finset TreePath) (event : Event) (w : Impl δ ι) : Except Unit Event × Impl δ ι :=
  let w := { w with dataModel := P.setEvent event w.dataModel }
  match finalizeOf event w with
  | none => (.ok event, autoForward P event w)
  | some block =>
    let (thrown, w) := process P C block w
    if thrown then (.error (), w) else (.ok event, autoForward P event w)

def dequeueExternal (C : Finset TreePath) (w : Impl δ ι) : Except Unit Event × Impl δ ι :=
  let (event, queue) := dequeue w.externalQueue
  let w := { w with currEvent := event, externalQueue := queue }
  if event.toBool then deliver P C event w else (.ok event, w)

/-- `isTrue`: an error makes a condition false and goes to the internal queue. -/
def isTrue (C : Finset TreePath) (expr : String) (w : Impl δ ι) : Bool × Impl δ ι :=
  let (result, dm) := P.evalAsBool C expr w.dataModel
  let w := { w with dataModel := dm }
  match result with
  | .ok b => (b, w)
  | .error e => (false, enqueueInternal e w)

def initData (C : Finset TreePath) (data : Ref) (w : Impl δ ι) : Impl δ ι :=
  let (result, dm) := P.init C data w.dataModel
  let w := { w with dataModel := dm }
  match result with
  | .ok _ => w
  | .error e => enqueueInternal e w

/-- `BasicContentExecutor::raiseDoneEvent`. A state without an id is named by its path in the document. -/
def raiseDoneEvent (C : Finset TreePath) (state : TreePath) (doneData : Option Ref) (w : Impl δ ι) : Impl δ ι :=
  let doneEvent : Event := { name := "done.state." ++ (d.id? state).getD (toString state) }
  match doneData with
  | none => enqueueInternal doneEvent w
  | some r =>
    let (fill, session) := P.doneData C r w.toSession
    enqueueInternal (fill doneEvent) { w with toSession := session }

/-! ### Invocations -/

/-- The `<invoke>` a pointer stands for, with the id of its state. -/
def invokeElem? : Ref → Option (String × InvokeElem β)
  | .invoke state index => ((d.elem? state).bind fun e => e.invoke[index]?).map fun e => ((d.id? state).getD "", e)
  | _ => none

def evalAttr (C : Finset TreePath) (expr plain : Option String) (default : String) (w : Impl δ ι) :
    Except Event String × Impl δ ι :=
  match expr with
  | none => (.ok (plain.getD default), w)
  | some expr =>
    let (result, dm) := P.evalAsData C expr w.dataModel
    (result.map Data.atom, { w with dataModel := dm })

/-- The id of an invocation; a new one is made up from the id of the state and assigned to `idlocation`. -/
def invokeId (C : Finset TreePath) (stateId : String) (e : InvokeElem β) (w : Impl δ ι) : Except Event String × Impl δ ι :=
  match e.id with
  | some id => (.ok id, w)
  | none =>
    let id := stateId ++ "." ++ P.uuid w.issued
    let w := { w with issued := w.issued + 1 }
    match e.idlocation with
    | none => (.ok id, w)
    | some location =>
      let (result, dm) := P.assign C location (Data.ofText id) w.dataModel
      (result.map fun _ => id, { w with dataModel := dm })

/-- The start of `BasicContentExecutor::invoke`: type, source and id, before the id is kept. -/
def invokeHead (C : Finset TreePath) (stateId : String) (e : InvokeElem β) (w : Impl δ ι) :
    Except Event (String × String × String) × Impl δ ι :=
  match evalAttr P C e.typeexpr e.type "http://www.w3.org/TR/scxml/" w with
  | (.error err, w) => (.error err, w)
  | (.ok type, w) =>
    match evalAttr P C e.srcexpr e.src "" w with
    | (.error err, w) => (.error err, w)
    | (.ok source, w) =>
      match invokeId P C stateId e w with
      | (.error err, w) => (.error err, w)
      | (.ok id, w) => (.ok (type, source, id), w)

/-- Evaluate named expressions one after the other up to the first error. -/
def evalAll : List (String × (δ → Except Event Data × δ)) → δ → Except Event (List (String × Data)) × δ
  | [], dm => (.ok [], dm)
  | (name, eval) :: rest, dm =>
    match eval dm with
    | (.error err, dm) => (.error err, dm)
    | (.ok value, dm) =>
      match evalAll rest dm with
      | (.error err, dm) => (.error err, dm)
      | (.ok values, dm) => (.ok ((name, value) :: values), dm)

def evalParam (C : Finset TreePath) (p : ParamElem) : δ → Except Event Data × δ :=
  match p.expr, p.location with
  | some expr, _ => P.evalAsData C expr
  | none, some location => P.evalAsData C location
  | none, none => P.elementAsEvaluatedData C p.text

/-- `processNameLists`, `processParams` and the `<content>` of an `<invoke>`. -/
def invokeArguments (C : Finset TreePath) (e : InvokeElem β) (event : Event) (dm : δ) : Except Event Event × δ :=
  match evalAll (e.namelist.map fun name => (name, P.evalAsData C name)) dm with
  | (.error err, dm) => (.error err, dm)
  | (.ok namelist, dm) =>
    match evalAll (e.params.map fun p => (p.name, evalParam P C p)) dm with
    | (.error err, dm) => (.error err, dm)
    | (.ok params, dm) =>
      match e.content with
      | none => (.ok { event with namelist := namelist, params := params }, dm)
      | some text =>
        match P.elementAsEvaluatedData C text dm with
        | (.error err, dm) => (.error err, dm)
        | (.ok data, dm) => (.ok { event with namelist := namelist, params := params, data := data }, dm)

/-- `InterpreterImpl::invoke`: the invoker is in the map when its start fails. -/
def startInvoker (type source : String) (r : Ref) (e : InvokeElem β) (event : Event) (w : Impl δ ι) : Impl δ ι :=
  match P.createInvoker type source with
  | .error _ => w
  | .ok invoker =>
    let w :=
      { w with
        finalize := Function.update w.finalize event.invokeid (if e.finalize.isSome then some r else none)
        invokers := Function.update w.invokers event.invokeid (some invoker) }
    match P.startInvoker invoker source event with
    | .error _ => w
    | .ok invoker =>
      { w with
        invokers := Function.update w.invokers event.invokeid (some invoker)
        autoForwarders :=
          if e.autoforward then Function.update w.autoForwarders event.invokeid true else w.autoForwarders }

/-- The rest of `BasicContentExecutor::invoke`, when the id is kept. -/
def invokeTail (C : Finset TreePath) (type source id : String) (r : Ref) (e : InvokeElem β) (w : Impl δ ι) : Impl δ ι :=
  match invokeArguments P C e { invokeid := id } w.dataModel with
  | (.error _, dm) => { w with dataModel := dm }
  | (.ok event, dm) => startInvoker P type source r e event { w with dataModel := dm }

/-- `BasicContentExecutor::invoke`. Its errors end in the microstepper. -/
def invoke (C : Finset TreePath) (r : Ref) (w : Impl δ ι) : Impl δ ι :=
  match invokeElem? d r with
  | none => w
  | some (stateId, e) =>
    match invokeHead P C stateId e w with
    | (.error _, w) => w
    | (.ok (type, source, id), w) =>
      invokeTail P C type source id r e { w with invokeIds := Function.update w.invokeIds r (some id) }

/-- `BasicContentExecutor::uninvoke` with `InterpreterImpl::uninvoke`. -/
def uninvoke (r : Ref) (w : Impl δ ι) : Impl δ ι :=
  match w.invokeIds r with
  | none => { w with assertionFailed := true }
  | some id =>
    let w :=
      if (w.invokers id).isSome then
        { w with
          autoForwarders := Function.update w.autoForwarders id false
          finalize := Function.update w.finalize id none
          invokers := Function.update w.invokers id none }
      else w
    { w with invokeIds := Function.update w.invokeIds r none }

/-- The callbacks of the microstepper. -/
def callbacks : Callbacks (Impl δ ι) where
  dequeueInternal := dequeueInternal P
  dequeueExternal := dequeueExternal P
  isMatched event descriptor w := (P.nameMatch descriptor event.name, w)
  raiseDoneEvent := raiseDoneEvent P d
  isTrue := isTrue P
  initData := initData P
  process C block w := (process P C block w).2
  invoke := invoke P d
  uninvoke _ := uninvoke

/-- The callbacks for the document as the microstepper has sorted it. -/
def sorted : Callbacks (Impl δ ι) := callbacks P (resortStates d)

/-- A data model that only knows the name of the last event, with which it compares conditions: `!` is no expression,
content does nothing and every invoker starts. -/
def lastEvent : Platform String Unit where
  nameMatch descriptor name := descriptor = name
  evalAsBool _ expr dm := (.ok (expr = dm), dm)
  evalAsData _ expr dm := (if expr = "!" then .error { name := "error.execution" } else .ok (Data.ofText expr), dm)
  elementAsEvaluatedData _ text dm := (.ok (Data.ofText text), dm)
  assign _ _ _ dm := (.ok (), dm)
  setEvent event _ := event.name
  init _ _ dm := (.ok (), dm)
  process _ _ session := (false, session)
  doneData _ _ session := (id, session)
  createInvoker _ _ := .ok ()
  startInvoker _ _ _ := .ok ()
  eventFromSCXML _ _ := ()
  uuid n := toString n

end Interpreter

end Uscxml
