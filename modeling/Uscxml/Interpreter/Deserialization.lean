import Uscxml.Interpreter.Serialization

/-!
# Reading a saved state back

`InterpreterImpl::deserialize` with its checks in their order. They stand between the loads: the queues are filled before
the MD5 hashes are compared, and the data model has its values before the microstepper looks for its fields.
-/

namespace Uscxml

namespace Interpreter

variable {δ ι β : Type}

/-- How `deserialize` can fail: something is thrown, or `fromJSON` has no defined behaviour. -/
inductive Failure where
  | thrown (fault : Fault)
  | undefined

/-- The entry of a map that was filled in this order. -/
def lastValue {κ α : Type} [DecidableEq κ] (l : List (κ × α)) (key : κ) : Option α :=
  ((l.filter fun e => e.1 = key).getLast?).map (·.2)

/-- The events of `BasicEventQueue::deserialize`. -/
def externalEvents (state : Data) : List Event :=
  (((state.at? "externalQueue").bind (·.at? "BasicEventQueue")).elim [] Data.array).map fun event => Event.fromData event.2

/-- The items `BasicDelayedEventQueue::deserialize` goes through, with their numbers. -/
def delayedItems (state : Data) : List (Data × Nat) :=
  ((state.at? "delayQueue").elim [] BasicDelayedEventQueue.items).zipIdx

/-- What both queues hold afterwards. The calls of `enqueueDelayed` read the clock one after the other. -/
def loadQueues (clock : Nat → Timeval) (state : Data) (w : Impl δ ι) : Impl δ ι :=
  { w with
    externalQueue := w.externalQueue ++ externalEvents state
    delayQueue := ((delayedItems state).foldl (fun q item => BasicDelayedEventQueue.reenqueue (clock item.2) q item.1)
      { callbackData := w.delayQueue }).callbackData }

section

variable (P : Platform δ ι) (S : Storage δ ι β) (clock : Nat → Timeval)

/-- The values of the `<data>` elements, up to the first one the data model throws at. -/
def loadData (datamodel : Data) : List String → δ → Except Fault Unit × δ
  | [], dm => (.ok (), dm)
  | id :: ids, dm =>
    match datamodel.at? id with
    | none => loadData datamodel ids dm
    | some value =>
      match S.init id value dm with
      | (.error fault, dm) => (.error fault, dm)
      | (.ok _, dm) => loadData datamodel ids dm

/-- The state of the running invokers, up to the first one that throws. -/
def loadInvokers (d : Document β) (state : Data) : List Ref → Impl δ ι → Except Fault Unit × Impl δ ι
  | [], w => (.ok (), w)
  | r :: refs, w =>
    match runningInvoker w r, (state.at? "invoker").bind (·.at? (S.xPathForNode d r)) with
    | some (id, invoker), some data =>
      match S.deserialize data invoker with
      | (.error fault, invoker) => (.error fault, { w with invokers := Function.update w.invokers id (some invoker) })
      | (.ok _, invoker) => loadInvokers d state refs { w with invokers := Function.update w.invokers id (some invoker) }
    | _, _ => loadInvokers d state refs w

def loadSet (d : Document β) (encodedState : Data) (key : String) : Finset TreePath :=
  FastMicroStep.ofBits d.states (FastMicroStep.fromBase64 ((encodedState.at? key).elim "" Data.atom))

/-- `FastMicroStep::deserialize` with the fields it asks for. -/
def deserializeMicro (d : Document β) (encodedState : Data) (s : St (Impl δ ι)) : St (Impl δ ι) :=
  let T := FastMicroStep.tables d
  let s :=
    { s with
      configuration := loadSet d encodedState "configuration"
      invocations := loadSet d encodedState "invocations"
      history := loadSet d encodedState "histories"
      initializedData := loadSet d encodedState "intializedData" }
  let s := T.states.foldl (fun s i =>
    if i ∈ s.invocations then FastMicroStep.each (FastMicroStep.invoke (callbacks P d)) (T.state i).invoke s else s) s
  { s with flags := { s.flags with initialized := true } }

/-- The key of the first of these members that is missing. -/
def missing? (data : Data) (keys : List String) : Option String := keys.find? fun key => (data.at? key).isNone

/-- The fields `FastMicroStep::deserialize` asks for. -/
def microFields : List String := ["configuration", "invocations", "histories", "intializedData"]

/-- `FastMicroStep::deserialize` and the invokers behind it. -/
def loadMicro (m : Machine δ ι β) (state : Data) : Except Fault Unit × Machine δ ι β :=
  let encodedState := (state.at? "microstepper").getD Data.empty
  match missing? encodedState microFields with
  | some _ => (.error (.error (Data.platformError "Data does not contain required fields for deserialization ")), m)
  | none =>
    let s := deserializeMicro P m.document encodedState m.micro
    match loadInvokers S m.document state (invokeRefs m.document) s.env with
    | (result, w) => (result, { m with micro := { s with env := w } })

/-- What `InterpreterImpl::deserialize` does behind the comparison of the hashes. -/
def loadValues (m : Machine δ ι β) (state : Data) : Except Fault Unit × Machine δ ι β :=
  match loadData S ((state.at? "datamodel").getD Data.empty) (dataIds m.document) m.micro.env.dataModel with
  | (.error fault, dm) => (.error fault, { m with micro := { m.micro with env := { m.micro.env with dataModel := dm } } })
  | (.ok _, dm) => loadMicro P S { m with micro := { m.micro with env := { m.micro.env with dataModel := dm } } } state

/-- What it throws for a missing member. -/
def missingError (key : String) : Event :=
  Data.platformError
    (if key = "microstepper" then "No microstepper information in serialized state"
    else if key = "url" then "No url information in serialized state"
    else "No MD5 hash in serialized state")

/-- What it does with a text that was parsed. -/
def loadState (m : Machine δ ι β) (state : Data) : Except Fault Unit × Machine δ ι β :=
  match missing? state ["microstepper", "url", "md5"] with
  | some key => (.error (.error (missingError key)), m)
  | none =>
    let m := { m with micro := { m.micro with env := loadQueues clock state m.micro.env } }
    if (state.at? "md5").elim "" Data.atom ≠ S.md5 m.document then
      (.error (.error (Data.platformError "MD5 hash mismatch in serialized state")), m)
    else loadValues P S m state

/-- `InterpreterImpl::deserialize`. -/
def deserialize (m : Machine δ ι β) (encodedState : List Char) : Except Failure Unit × Machine δ ι β :=
  match Data.fromJSON encodedState with
  | .error (.thrown e) => (.error (.thrown (.error e)), init m)
  | .error .emptyStack => (.error .undefined, init m)
  | .ok state =>
    match loadState P S clock (init m) state with
    | (.error fault, m) => (.error (.thrown fault), m)
    | (.ok _, m) => (.ok (), m)

end

/-! ### What the loads leave alone -/

def SameQueues (w w' : Impl δ ι) : Prop := w'.externalQueue = w.externalQueue ∧ w'.delayQueue = w.delayQueue

theorem SameQueues.trans {w w' w'' : Impl δ ι} (h : SameQueues w w') (h' : SameQueues w' w'') : SameQueues w w'' :=
  ⟨h'.1.trans h.1, h'.2.trans h.2⟩

section

variable (P : Platform δ ι)

variable (S : Storage δ ι β)

end

/-! ### Where nothing is lost -/

def delayedEvent (clock : Nat → Timeval) (item : Data × Nat) : String × BasicDelayedEventQueue.CallbackData :=
  let event := Event.fromData ((item.1.at? "event").getD Data.empty)
  let delay := BasicDelayedEventQueue.delayOf (strToNat ((item.1.at? "delay").elim "" Data.atom))
  (event.uuid, { userData := event, eventUUID := event.uuid, added := clock item.2, due := delay.add (clock item.2) })

/-- The events of a text that wait already: none for the external queue, and the delayed ones under their uuids, since the
same time and until the same time. -/
structure Waiting (clock : Nat → Timeval) (state : Data) (w : Impl δ ι) : Prop where
  external : externalEvents state = []
  delayed : ∀ uuid data,
    lastValue ((delayedItems state).map (delayedEvent clock)) uuid = some data → w.delayQueue uuid = some data

/-- The checks and calls of `deserialize` that can throw, in their order. -/
inductive Check where
  | keys | md5 | values | fields | invokers
  deriving DecidableEq, Repr

section

variable (P : Platform δ ι) (S : Storage δ ι β) (clock : Nat → Timeval) (m : Machine δ ι β) (state : Data)

/-- The values the data model has when the microstepper is asked. -/
def loadedData : Except Fault Unit × δ :=
  loadData S ((state.at? "datamodel").getD Data.empty) (dataIds m.document) m.micro.env.dataModel

/-- The microstepper when the invokers are asked. -/
def restarted : St (Impl δ ι) :=
  deserializeMicro P m.document ((state.at? "microstepper").getD Data.empty)
    { m.micro with env := { loadQueues clock state m.micro.env with dataModel := (loadedData S m state).2 } }

def failing? : Option Check :=
  if (missing? state ["microstepper", "url", "md5"]).isSome then some .keys
  else if (state.at? "md5").elim "" Data.atom ≠ S.md5 m.document then some .md5
  else if (loadedData S m state).1.toBool = false then some .values
  else if (missing? ((state.at? "microstepper").getD Data.empty) microFields).isSome then some .fields
  else if (loadInvokers S m.document state (invokeRefs m.document) (restarted P S clock m state).env).1.toBool = false then
    some .invokers
  else none

/-- The sets of a text are those of the microstepper, and starting its invocations anew leaves the data model alone. -/
structure MicroSettled : Prop where
  configuration : loadSet m.document ((state.at? "microstepper").getD Data.empty) "configuration" = m.micro.configuration
  invocations : loadSet m.document ((state.at? "microstepper").getD Data.empty) "invocations" = m.micro.invocations
  history : loadSet m.document ((state.at? "microstepper").getD Data.empty) "histories" = m.micro.history
  initializedData : loadSet m.document ((state.at? "microstepper").getD Data.empty) "intializedData" = m.micro.initializedData
  dataModel : (restarted P S clock m state).env.dataModel = m.micro.env.dataModel

/-- Nothing fails behind a load that changes something. -/
def Settled : Prop :=
  match failing? P S clock m state with
  | none | some .keys => True
  | some .md5 => Waiting clock state m.micro.env
  | some .values | some .fields => Waiting clock state m.micro.env ∧ (loadedData S m state).2 = m.micro.env.dataModel
  | some .invokers => Waiting clock state m.micro.env ∧ MicroSettled P S clock m state

end

section

variable {P : Platform δ ι} {S : Storage δ ι β} {clock : Nat → Timeval} {m : Machine δ ι β} {state : Data}

end

/-- A storage for the data model that only knows the last event. -/
def memory : Storage String Unit Unit where
  md5 _ := ""
  baseURL := ""
  xPathForNode _ _ := ""
  init _ value _ := (.ok (), value.atom)
  serialize _ := Data.empty
  deserialize _ invoker := (.ok (), invoker)

end Interpreter

end Uscxml
