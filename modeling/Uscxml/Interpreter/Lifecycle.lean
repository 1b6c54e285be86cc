import Uscxml.Interpreter.Alike

/-!
# The life of an interpreter

`InterpreterImpl` from its creation on: the first `step` initialises it, later ones are those of the microstepper, and
`reset` leads back to the start. Between steps events arrive, timers fire and the interpreter can be cancelled. What is
seen of it are the results of the steps, the configurations and the calls to monitors.
-/

namespace Uscxml

/-- `InterpreterImpl` with its document, which `FastMicroStep::init` sorts in place. -/
structure Machine (δ ι β : Type) where
  document : Document β
  isInitialized : Bool := false
  state : InterpreterState := .instantiated
  micro : St (Impl δ ι)

inductive Input where
  | step
  | receive (event : Event)
  | cancel
  | expire (uuid : String)
  | reset

/-- What is seen of it: the result of a step, the configuration and the calls made meanwhile. -/
structure Output where
  result : Option StepResult
  configuration : Finset TreePath
  calls : List Call

namespace Interpreter

variable {δ ι β : Type}

/-- An interpreter as it is created, with the number of uuids that were handed out before. -/
def fresh (d : Document β) (dataModel : δ) (issued : Nat) : Machine δ ι β where
  document := d
  micro := { env := { dataModel, issued } }

/-- `InterpreterImpl::reset`. -/
def reset (m : Machine δ ι β) : Machine δ ι β :=
  { m with
    isInitialized := false
    state := .instantiated
    micro :=
      { FastMicroStep.reset m.micro with
        env := { m.micro.env with delayQueue := fun _ => none } } }

/-- `InterpreterImpl::cancel`. -/
def cancel (m : Machine δ ι β) : Machine δ ι β :=
  { m with micro := { FastMicroStep.markAsCancelled m.micro with env := enqueueExternal {} m.micro.env } }

/-- `InterpreterImpl::enqueueExternal`. -/
def receive (event : Event) (m : Machine δ ι β) : Machine δ ι β :=
  { m with micro := { m.micro with env := enqueueExternal event m.micro.env } }

section

variable (P : Platform δ ι)
/- The I/O processors: what the delivery of an event to a target does to the session. -/
variable (eventFromSCXML : String → String → Event → Session δ ι → Session δ ι)

/-- `InterpreterImpl::eventReady`. The route of an event that has none is empty. -/
def eventReady (event : Event) (uuid : String) (w : Impl δ ι) : Impl δ ι :=
  let (_, type, target) := (w.delayedEventTargets uuid).getD ("", "", "")
  let type := if type = "" then "http://www.w3.org/TR/scxml/#SCXMLEventProcessor" else type
  { w with
    toSession := eventFromSCXML type target event
      { w.toSession with delayedEventTargets := Function.update w.delayedEventTargets uuid none } }

/-- `BasicDelayedEventQueue::timerCallback`. -/
def timerCallback (uuid : String) (w : Impl δ ι) : Impl δ ι :=
  match w.delayQueue uuid with
  | none => w
  | some data =>
    eventReady eventFromSCXML data.userData uuid { w with delayQueue := Function.update w.delayQueue uuid none }

def expire (uuid : String) (m : Machine δ ι β) : Machine δ ι β :=
  { m with micro := { m.micro with env := timerCallback eventFromSCXML uuid m.micro.env } }

/-- `InterpreterImpl::init`, as far as something is left to do. -/
def init (m : Machine δ ι β) : Machine δ ι β :=
  if m.isInitialized then m else { m with document := resortStates m.document, isInitialized := true }

/-- `InterpreterImpl::step`. An error that leaves the microstepper leaves the state as it was. -/
def step (m : Machine δ ι β) : StepResult × Machine δ ι β :=
  if m.isInitialized then
    let (r, s) := FastMicroStep.step (FastMicroStep.tables m.document) (callbacks P m.document) m.micro
    match r with
    | .returned state => (r, { m with micro := s, state := state })
    | .thrown => (r, { m with micro := s })
  else (.returned .initialized, { init m with state := .initialized })

def respond (m : Machine δ ι β) : Input → Option StepResult × Machine δ ι β
  | .step => ((step P m).1, (step P m).2)
  | .receive event => (none, receive event m)
  | .cancel => (none, cancel m)
  | .expire uuid => (none, expire eventFromSCXML uuid m)
  | .reset => (none, reset m)

def output (m : Machine δ ι β) (input : Input) : Output :=
  let (result, m') := respond P eventFromSCXML m input
  ⟨result, m'.micro.configuration, m'.micro.calls.drop m.micro.calls.length⟩

def outputs : List Input → Machine δ ι β → List Output
  | [], _ => []
  | input :: inputs, m => output P eventFromSCXML m input :: outputs inputs (respond P eventFromSCXML m input).2

def after (inputs : List Input) (m : Machine δ ι β) : Machine δ ι β :=
  inputs.foldl (fun m input => (respond P eventFromSCXML m input).2) m

end

/-! ### Machines that behave alike -/

/-- The I/O processors do not tell sessions that are alike from each other. -/
def Delivers (D : δ → δ → Prop) (eventFromSCXML : String → String → Event → Session δ ι → Session δ ι) : Prop :=
  ∀ type target event s s', s.Alike D s' → (eventFromSCXML type target event s).Alike D (eventFromSCXML type target event s')

/-- Nothing that a step ever reads differs. Documents may differ as long as both are still to be sorted. -/
structure Alike (D : δ → δ → Prop) (m m' : Machine δ ι β) : Prop where
  isInitialized : m.isInitialized = m'.isInitialized
  micro : m.micro.toMicro = { m'.micro.toMicro with event := m.micro.event }
  env : m.micro.env.Alike D m'.micro.env
  document : m.isInitialized = true → m.document = m'.document
  sorted : resortStates m.document = resortStates m'.document

section

variable {P : Platform δ ι} {eventFromSCXML : String → String → Event → Session δ ι → Session δ ι} {D : δ → δ → Prop}
  {m m' : Machine δ ι β}

theorem timerCallback_alike (hio : Delivers D eventFromSCXML) (uuid : String) {w w' : Impl δ ι} (h : w.Alike D w') :
    (timerCallback eventFromSCXML uuid w).Alike D (timerCallback eventFromSCXML uuid w') := by
  rw [timerCallback, timerCallback, h.session.delayQueue]
  split
  · exact h
  · simp only [eventReady, h.session.delayedEventTargets]
    refine alike_withSession h (hio _ _ _ _ _ ?_)
    exact { h.session with delayQueue := rfl, delayedEventTargets := rfl }

theorem init_alike (h : Alike D m m') : Alike D (init m) (init m') := by
  rw [init, init, h.isInitialized]
  split
  · exact h
  · exact { h with isInitialized := rfl, document := fun _ => h.sorted, sorted := congrArg resortStates h.sorted }

/-- The steps of machines that are alike have the same result and make the same calls. -/
theorem step_alike (hP : P.Respects D) (h : Alike D m m') :
    (step P m).1 = (step P m').1 ∧ Alike D (step P m).2 (step P m').2 ∧
      ∃ l, (step P m).2.micro.calls = m.micro.calls ++ l ∧ (step P m').2.micro.calls = m'.micro.calls ++ l := by
  have hrelated : FastMicroStep.Related (Impl.Alike D) m.micro.calls m'.micro.calls m.micro m'.micro :=
    ⟨h.micro, h.env, [], by simp, by simp⟩
  by_cases hinit : m.isInitialized = true
  · obtain ⟨hresult, hmicro⟩ := hrelated.step (FastMicroStep.tables_contents m.document)
      (callbacks_simulates (d := m.document) hP)
    have hinit' : m'.isInitialized = true := h.isInitialized ▸ hinit
    simp only [step, hinit, hinit', if_true, ← h.document hinit, ← hresult]
    split
    · exact ⟨rfl, ⟨rfl, hmicro.micro, hmicro.env, fun _ => rfl, rfl⟩, hmicro.calls⟩
    · exact ⟨rfl, ⟨rfl, hmicro.micro, hmicro.env, fun _ => rfl, rfl⟩, hmicro.calls⟩
  · have hinit' : m'.isInitialized ≠ true := h.isInitialized ▸ hinit
    rw [step, step, if_neg hinit, if_neg hinit']
    refine ⟨rfl, { init_alike h with }, [], ?_, ?_⟩
    · simp [init, hinit]
    · simp [init, hinit']

/-- Inputs other than steps call nobody. -/
theorem output_of_quiet {n n' : Machine δ ι β} (h : Alike D n n') (hcalls : n.micro.calls = m.micro.calls)
    (hcalls' : n'.micro.calls = m'.micro.calls) :
    (⟨none, n.micro.configuration, n.micro.calls.drop m.micro.calls.length⟩ : Output) =
      ⟨none, n'.micro.configuration, n'.micro.calls.drop m'.micro.calls.length⟩ := by
  have hconfiguration : n.micro.configuration = n'.micro.configuration := by rw [h.micro]
  rw [hconfiguration, hcalls, hcalls', List.drop_length, List.drop_length]

theorem respond_alike (hP : P.Respects D) (hio : Delivers D eventFromSCXML) (h : Alike D m m') (input : Input) :
    output P eventFromSCXML m input = output P eventFromSCXML m' input ∧
      Alike D (respond P eventFromSCXML m input).2 (respond P eventFromSCXML m' input).2 := by
  cases input with
  | step =>
    obtain ⟨hresult, hnext, l, hl, hl'⟩ := step_alike hP h
    have hconfiguration : (step P m).2.micro.configuration = (step P m').2.micro.configuration := by rw [hnext.micro]
    refine ⟨?_, hnext⟩
    simp only [output, respond, hresult, hconfiguration, hl, hl', List.drop_left]
  | receive event =>
    have hnext : Alike D (receive event m) (receive event m') := { h with env := enqueueExternal_alike event h.env }
    exact ⟨output_of_quiet hnext rfl rfl, hnext⟩
  | cancel =>
    have hnext : Alike D (cancel m) (cancel m') := by
      refine { h with micro := ?_, env := enqueueExternal_alike {} h.env }
      show { m.micro.toMicro with isCancelled := true } = _
      rw [h.micro]
      rfl
    exact ⟨output_of_quiet hnext rfl rfl, hnext⟩
  | expire uuid =>
    have hnext : Alike D (expire eventFromSCXML uuid m) (expire eventFromSCXML uuid m') :=
      { h with env := timerCallback_alike hio uuid h.env }
    exact ⟨output_of_quiet hnext rfl rfl, hnext⟩
  | reset =>
    have hnext : Alike D (reset m) (reset m') := by
      refine ⟨rfl, ?_, ?_, fun h => absurd h Bool.false_ne_true, h.sorted⟩
      · have hconfigurations : m.micro.microstepConfigurations = m'.micro.microstepConfigurations := by rw [h.micro]
        show ({ microstepConfigurations := m.micro.microstepConfigurations, event := m.micro.event } : Micro) =
          { microstepConfigurations := m'.micro.microstepConfigurations, event := m.micro.event }
        rw [hconfigurations]
      · exact ⟨{ h.env.session with delayQueue := rfl }, h.env.finalize, h.env.autoForwarders, h.env.invokeIds⟩
    exact ⟨output_of_quiet hnext rfl rfl, hnext⟩

theorem outputs_alike (hP : P.Respects D) (hio : Delivers D eventFromSCXML) (inputs : List Input) (h : Alike D m m') :
    outputs P eventFromSCXML inputs m = outputs P eventFromSCXML inputs m' := by
  induction inputs generalizing m m' with
  | nil => rfl
  | cons input inputs ih =>
    obtain ⟨houtput, hnext⟩ := respond_alike hP hio h input
    rw [outputs, outputs, houtput, ih hnext]

/-! ### Reset -/

/-- What a reset leaves as it is does not differ from a new interpreter: the queues are empty, there are no invokers, no
routes of delayed events and no remembered configurations, the data model is as a new one, and sorting the document
again leads to what sorting it once does. -/
structure Clean (D : δ → δ → Prop) (dataModel : δ) (d : Document β) (m : Machine δ ι β) : Prop where
  dataModel : D m.micro.env.dataModel dataModel
  internalQueue : m.micro.env.internalQueue = []
  externalQueue : m.micro.env.externalQueue = []
  delayedEventTargets : m.micro.env.delayedEventTargets = fun _ => none
  invokers : m.micro.env.invokers = fun _ => none
  finalize : m.micro.env.finalize = fun _ => none
  autoForwarders : m.micro.env.autoForwarders = fun _ => false
  invokeIds : m.micro.env.invokeIds = fun _ => none
  microstepConfigurations : m.micro.microstepConfigurations = ∅
  document : resortStates m.document = resortStates d

theorem Clean.reset_alike {dataModel : δ} {d : Document β} (h : Clean D dataModel d m) :
    Alike D (reset m) (fresh d dataModel m.micro.env.issued) where
  isInitialized := rfl
  micro := by
    show ({ microstepConfigurations := m.micro.microstepConfigurations, event := m.micro.event } : Micro) =
      { event := m.micro.event }
    rw [h.microstepConfigurations]
  env := ⟨⟨h.dataModel, h.internalQueue, h.externalQueue, rfl, h.delayedEventTargets, h.invokers, rfl⟩, h.finalize,
    h.autoForwarders, h.invokeIds⟩
  document := fun h => absurd h Bool.false_ne_true
  sorted := h.document

/-- After the reset of such an interpreter nothing tells it from a new one, whatever happens to the two. -/
theorem reset_equals_fresh (hP : P.Respects D) (hio : Delivers D eventFromSCXML) {dataModel : δ} {d : Document β}
    (h : Clean D dataModel d m) (inputs : List Input) :
    outputs P eventFromSCXML inputs (reset m) =
      outputs P eventFromSCXML inputs (fresh d dataModel m.micro.env.issued) :=
  outputs_alike hP hio inputs h.reset_alike

end

def leaving : Document Unit where
  tree :=
    { root := { tag := .scxml }
      kids := .cons { tag := .state, id := some "a", transitions := [{ target := some ["b"], event := some "e" }] } .nil
        (.cons { tag := .state, id := some "b" } .nil .nil) }

/-- The I/O processor that puts every event into the external queue. -/
def loopback (_ _ : String) (event : Event) (s : Session String Unit) : Session String Unit :=
  { s with externalQueue := s.externalQueue ++ [event] }

theorem lastEvent_respects : lastEvent.Respects Eq where
  evalAsBool _ _ _ _ h := ⟨by rw [h], h⟩
  evalAsData _ _ _ _ h := ⟨by rw [h], h⟩
  elementAsEvaluatedData _ _ _ _ h := ⟨by rw [h], h⟩
  assign _ _ _ _ _ h := ⟨rfl, h⟩
  setEvent _ _ _ _ := rfl
  init _ _ _ _ h := ⟨rfl, h⟩
  process _ _ _ _ h _ := ⟨rfl, h⟩
  doneData _ _ _ _ h := ⟨rfl, h⟩

theorem loopback_delivers : Delivers Eq loopback := fun _ _ event _ _ h =>
  { h with externalQueue := congrArg (· ++ [event]) h.externalQueue }

/-- An event that waits at the reset is processed after it. -/
theorem reset_keeps_event :
    outputs lastEvent loopback [.step, .step, .step, .step, .step]
        (reset (after lastEvent loopback [.step, .step, .receive { name := "e" }] (fresh leaving "" 0))) ≠
      outputs lastEvent loopback [.step, .step, .step, .step, .step] (fresh leaving "" 0) := by
  intro h
  exact absurd (congrArg (List.map Output.result) h) (by decide +kernel)

theorem reset_equals_fresh_leaving :
    outputs lastEvent loopback [.step, .step, .receive { name := "e" }, .step, .step, .step]
        (reset (after lastEvent loopback [.step, .step, .step, .step] (fresh leaving "" 0))) =
      outputs lastEvent loopback [.step, .step, .receive { name := "e" }, .step, .step, .step] (fresh leaving "" 0) :=
  reset_equals_fresh lastEvent_respects loopback_delivers
    ⟨by decide +kernel, rfl, rfl, rfl, rfl, rfl, rfl, rfl, by decide +kernel, by decide +kernel⟩ _

end Interpreter

end Uscxml
