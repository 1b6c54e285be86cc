import Uscxml.Interpreter.Lifecycle
import Uscxml.Interpreter.QueueSerialization
import Uscxml.FastMicroStep.Bitset
import Uscxml.FastMicroStep.Invocations

/-!
# Saving

`InterpreterImpl::serialize` writes the sets of the microstepper, the values of the `<data>` elements, the state of the
invokers and, of the events that wait, their data, all as JSON. The flags of the microstepper, the internal queue and the
routes of delayed events are not written.
-/

namespace Uscxml

/-! ### What a run of the microstepper keeps -/

namespace FastMicroStep

variable {ω : Type} (T : Tables) (cb : Callbacks ω)

/-- The sets have bits for the states of the table only, and a stable interpreter remembers no configurations. -/
structure Sane (m : Micro) : Prop where
  configuration : ∀ i ∈ m.configuration, i ∈ T.states
  invocations : ∀ i ∈ m.invocations, i ∈ T.states
  history : ∀ i ∈ m.history, i ∈ T.states
  initializedData : ∀ i ∈ m.initializedData, i ∈ T.states
  flags : m.flags = {} ∨ m.flags.initialized = true
  stable : m.flags.stable = true → m.microstepConfigurations = ∅

/-- The flags of an interpreter that rests, and the invocations of its configuration. -/
structure Rested (m : Micro) : Prop where
  flags : m.flags = { initialized := true, stable := true }
  invocations : ∀ i ∈ T.states, i ∈ m.invocations ↔ i ∈ m.configuration

variable {T cb}

theorem Sane.withEvent {m : Micro} (h : Sane T m) (event : Event) : Sane T { m with event := event } :=
  ⟨h.configuration, h.invocations, h.history, h.initializedData, h.flags, h.stable⟩

theorem Runs.initialized {s : St ω} (h : Runs s) (hs : Sane T s.toMicro) : s.flags.initialized = true := by
  refine hs.flags.resolve_left fun hflags => ?_
  have hpristine := h.pristine
  rw [Flags.pristine, hflags] at hpristine
  simp at hpristine

end FastMicroStep

/-! ### Reachable interpreters -/

namespace Interpreter

open FastMicroStep (Sane Rested)

variable {δ ι β : Type}

/-- What holds of every interpreter that can be reached: the sets of the microstepper belong to its document, there is
nothing in them before the first step, and it rests after a step without an event. -/
structure Kept (m : Machine δ ι β) : Prop where
  sane : Sane (FastMicroStep.tables m.document) m.micro.toMicro
  blank : m.isInitialized = false → ∀ T, Sane T m.micro.toMicro
  rested : m.state = .idle ∨ m.state = .macrostepped →
    m.isInitialized = true ∧ Rested (FastMicroStep.tables m.document) m.micro.toMicro

variable {P : Platform δ ι} {eventFromSCXML : String → String → Event → Session δ ι → Session δ ι} {m : Machine δ ι β}

/-- What saving and reading back need beyond a `Platform`. `DataModel::init` and `InvokerImpl::deserialize` can throw, and
leave something behind when they do. -/
structure Storage (δ ι β : Type) where
  md5 : Document β → String
  baseURL : String
  xPathForNode : Document β → Ref → String
  init : String → Data → δ → Except Fault Unit × δ
  serialize : ι → Data
  deserialize : Data → ι → Except Fault Unit × ι

def dataIds (d : Document β) : List String := d.states.flatMap fun p => ((d.elem? p).elim [] (·.data)).filterMap (·.id)

def invokeRefs (d : Document β) : List Ref := d.states.flatMap fun p => ((FastMicroStep.tables d).state p).invoke

def runningInvoker (w : Impl δ ι) (r : Ref) : Option (String × ι) :=
  (w.invokeIds r).bind fun id => (w.invokers id).map fun invoker => (id, invoker)

/-- `FastMicroStep::serialize`. -/
def microData (m : Machine δ ι β) : Data :=
  let encode (set : Finset TreePath) := Data.ofText (FastMicroStep.toBase64 (FastMicroStep.bitsOf m.document.states set))
  let encodedState := Data.put "configuration" (encode m.micro.configuration) Data.empty
  let encodedState := Data.put "invocations" (encode m.micro.invocations) encodedState
  let encodedState := Data.put "histories" (encode m.micro.history) encodedState
  Data.put "intializedData" (encode m.micro.initializedData) encodedState

section

variable (P : Platform δ ι) (S : Storage δ ι β)

/-- The values `InterpreterImpl::serialize` asks the data model for. -/
def dataValues (m : Machine δ ι β) : Except Event (List (String × Data)) :=
  (evalAll ((dataIds m.document).map fun id => (id, P.evalAsData m.micro.configuration id)) m.micro.env.dataModel).1

/-- The state of an invoker, if it runs, under the path of its element. -/
def putInvoker (m : Machine δ ι β) (serialized : Data) (r : Ref) : Data :=
  match runningInvoker m.micro.env r with
  | none => serialized
  | some (_, invoker) =>
    Data.modify (fun _ => S.serialize invoker) [.key "invoker", .key (S.xPathForNode m.document r)] serialized

/-- The `serialized` of `InterpreterImpl::serialize`, when it has the values. -/
def stateData (m : Machine δ ι β) (values : List (String × Data)) : Data :=
  let serialized := Data.put "md5" (.ofText (S.md5 m.document)) Data.empty
  let serialized := Data.put "url" (.ofText S.baseURL) serialized
  let serialized := Data.put "microstepper" (microData m) serialized
  let serialized := values.foldl
    (fun serialized value => Data.modify (fun _ => value.2) [.key "datamodel", .key value.1] serialized) serialized
  let serialized := (invokeRefs m.document).foldl (putInvoker S m) serialized
  let serialized := Data.put "externalQueue" (BasicEventQueue.serialize m.micro.env.externalQueue) serialized
  Data.put "delayQueue" (BasicDelayedEventQueue.serialize { callbackData := m.micro.env.delayQueue }).1 serialized

/-- `InterpreterImpl::serialize`; an error gives nothing. -/
def serialize (m : Machine δ ι β) : Option (List Char) :=
  if m.state = .idle ∨ m.state = .macrostepped ∨ m.state = .finished then
    match dataValues P m with
    | .error _ => none
    | .ok values => some (stateData S m values).toJSON
  else none

end

end Interpreter

end Uscxml
