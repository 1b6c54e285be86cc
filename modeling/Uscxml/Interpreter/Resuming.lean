import Uscxml.Interpreter.CacheFiles
import Uscxml.Interpreter.Deserialization

/-!
# Resuming

An interpreter is saved, and a new one of the same document reads the text. The invocations are started anew, the flags of
the microstepper are those of an interpreter that has been started, and the data model gets the values of the `<data>`
elements as they come back from JSON.
-/

namespace Uscxml

namespace Interpreter

open FastMicroStep (Rested)

variable {δ ι β : Type}

/-- The values of the `<data>` elements when they are read again: `fromJSON` counts the items of all arrays through. -/
def readValues (values : List (String × Data)) : Data := .mk "" false (Data.renumberMembers 0 (Data.mapOf values)).1 []

/-- What is read of the values of the data model, and the data model that gets it. -/
structure DataKept (P : Platform δ ι) (S : Storage δ ι β) (D : δ → δ → Prop) (dataModel : δ) (m : Machine δ ι β)
    (values values' : List (String × Data)) (dm : δ) : Prop where
  evaluated : dataValues P m = .ok values
  written : Data.SameTexts values values'
  readable : ∀ value ∈ values', Data.Clean value.1 ∧ Data.Restored value.2
  loaded : loadData S (readValues values') (dataIds m.document) dataModel = (.ok (), dm)
  alike : D m.micro.env.dataModel dm

/-- Nothing is lost when the interpreter is saved: it has not finished and is not cancelled, no event waits in any queue,
no invocation runs, the data model has a value for every `<data>` and is restored by what is read of them, no text has
characters that JSON loses, and the document is the one that a new interpreter sorts. -/
structure Resumable (P : Platform δ ι) (S : Storage δ ι β) (D : δ → δ → Prop) (d : Document β) (dataModel : δ)
    (m : Machine δ ι β) : Prop where
  running : m.state ≠ .finished
  cancelled : m.micro.isCancelled = false
  internalQueue : m.micro.env.internalQueue = []
  externalQueue : m.micro.env.externalQueue = []
  delayQueue : m.micro.env.delayQueue = fun _ => none
  delayedEventTargets : m.micro.env.delayedEventTargets = fun _ => none
  invokers : m.micro.env.invokers = fun _ => none
  finalize : m.micro.env.finalize = fun _ => none
  autoForwarders : m.micro.env.autoForwarders = fun _ => false
  invokeIds : m.micro.env.invokeIds = fun _ => none
  invocations : ∀ i ∈ m.micro.invocations, ((FastMicroStep.tables m.document).state i).invoke = []
  data : ∃ values values' dm, DataKept P S D dataModel m values values' dm
  clean : Data.Clean (S.md5 m.document) ∧ Data.Clean S.baseURL
  document : m.document = resortStates d

/-- The interpreter that `deserialize` makes of such a text. -/
def resumed (m : Machine δ ι β) (dm : δ) : Machine δ ι β where
  document := m.document
  isInitialized := true
  micro :=
    { flags := { initialized := true }
      configuration := m.micro.configuration
      invocations := m.micro.invocations
      history := m.micro.history
      initializedData := m.micro.initializedData
      env := { dataModel := dm, issued := m.micro.env.issued } }

section

variable {P : Platform δ ι} {eventFromSCXML : String → String → Event → Session δ ι → Session δ ι} {S : Storage δ ι β}
  {D : δ → δ → Prop} {d : Document β} {dataModel : δ} {m : Machine δ ι β}

/-! ### The text -/

/-- The member for the values of the data model, which is there when there are values. -/
def datamodelMember (values : List (String × Data)) (datamodel : Data) : List (String × Data) :=
  if values = [] then [] else [("datamodel", datamodel)]

/-- What is written when no event waits and no invocation runs, with what stands for an empty queue. -/
def quietState (S : Storage δ ι β) (m : Machine δ ι β) (queue : Data) (datamodel : List (String × Data)) : Data :=
  .mk "" false
    (datamodel ++ [("delayQueue", queue), ("externalQueue", queue), ("md5", .ofText (S.md5 m.document)),
      ("microstepper", microData m), ("url", .ofText S.baseURL)]) []

theorem foldl_put (values members : List (String × Data)) :
    values.foldl (fun data value => Data.put value.1 value.2 data) (.mk "" false members []) =
      .mk "" false (values.foldl (fun map value => Data.alter value.1 (fun _ => value.2) map) members) [] := by
  induction values generalizing members with
  | nil => rfl
  | cons value values ih => exact ih _

theorem foldl_modify (key : String) (values : List (String × Data)) (data : Data) :
    values.foldl (fun data value => Data.modify (fun _ => value.2) [.key key, .key value.1] data) data =
      if values = [] then data
      else Data.alterAt (fun member => values.foldl (fun data value => Data.put value.1 value.2 data) member) (.key key) data := by
  induction values using List.reverseRecOn with
  | nil => rfl
  | append_singleton values value ih =>
    have hne : values ++ [value] ≠ [] := by simp
    rw [List.foldl_append, ih, if_neg hne, List.foldl_cons, List.foldl_nil]
    obtain ⟨atom, verbatim, members, items⟩ := data
    split
    · rename_i h
      subst h
      rfl
    · show Data.mk atom verbatim (Data.alter key _ (Data.alter key _ members)) items = _
      rw [Data.alter_alter]
      simp only [List.foldl_append, List.foldl_cons, List.foldl_nil]
      rfl

theorem runningInvoker_of_none {w : Impl δ ι} (h : w.invokers = fun _ => none) (r : Ref) : runningInvoker w r = none := by
  simp [runningInvoker, h]

theorem stateData_eq (hexternal : m.micro.env.externalQueue = []) (hinvokers : m.micro.env.invokers = fun _ => none)
    (values : List (String × Data)) :
    stateData S m values =
      quietState S m Data.empty (datamodelMember values (.mk "" false (Data.mapOf values) [])) := by
  have hnone : ∀ serialized : Data, (invokeRefs m.document).foldl (putInvoker S m) serialized = serialized := by
    intro serialized
    induction invokeRefs m.document with
    | nil => rfl
    | cons r refs ih =>
      rw [List.foldl_cons, putInvoker, runningInvoker_of_none hinvokers r]
      exact ih
  rw [stateData]
  simp only [hnone, hexternal, foldl_modify]
  by_cases h : values = []
  · rw [if_pos h, datamodelMember, if_pos h]
    rfl
  · have hvalues := foldl_put values []
    rw [if_neg h, datamodelMember, if_neg h, Data.mapOf, ← hvalues]
    rfl

theorem toJSON_quietState {values values' : List (String × Data)} (h : Data.SameTexts values values') :
    (quietState S m Data.empty (datamodelMember values (.mk "" false (Data.mapOf values) []))).toJSON =
      (quietState S m (.mk "null" false [] []) (datamodelMember values' (.mk "" false (Data.mapOf values') []))).toJSON := by
  refine Data.toText_compound (fun n => ?_) 1
  have hempty : Data.empty.toText n = (Data.mk "null" false [] []).toText n := by
    simp [Data.empty, Data.toText]
  have hmember : (datamodelMember values (.mk "" false (Data.mapOf values) [])).map (fun m => (m.1, m.2.toText n)) =
      (datamodelMember values' (.mk "" false (Data.mapOf values') [])).map fun m => (m.1, m.2.toText n) := by
    have hnil : values = [] ↔ values' = [] := by
      rw [← List.map_eq_nil_iff (f := fun m => (m.1, m.2.toText n)), h n, List.map_eq_nil_iff]
    by_cases hv : values = []
    · rw [datamodelMember, datamodelMember, if_pos hv, if_pos (hnil.mp hv)]
    · rw [datamodelMember, datamodelMember, if_neg hv, if_neg (mt hnil.mpr hv)]
      simp [Data.toText_compound h.mapOf n]
  rw [List.map_append, List.map_append, hmember]
  simp only [List.map_cons, List.map_nil, hempty]

theorem microData_eq (m : Machine δ ι β) :
    microData m = .mk "" false
      [("configuration", .ofText (FastMicroStep.toBase64 (FastMicroStep.bitsOf m.document.states m.micro.configuration))),
        ("histories", .ofText (FastMicroStep.toBase64 (FastMicroStep.bitsOf m.document.states m.micro.history))),
        ("intializedData", .ofText (FastMicroStep.toBase64 (FastMicroStep.bitsOf m.document.states m.micro.initializedData))),
        ("invocations", .ofText (FastMicroStep.toBase64 (FastMicroStep.bitsOf m.document.states m.micro.invocations)))] [] :=
  rfl

theorem restored_microData (m : Machine δ ι β) : Data.Restored (microData m) := by
  rw [microData_eq]
  refine Data.restored_compound false (List.cons_ne_nil _ _) ?_ ?_ ?_
  · simp only [List.forall_mem_cons]
    exact ⟨Data.clean_of_all "configuration" (by decide +kernel), Data.clean_of_all "histories" (by decide +kernel),
      Data.clean_of_all "intializedData" (by decide +kernel), Data.clean_of_all "invocations" (by decide +kernel),
      List.forall_mem_nil _⟩
  · have hsorted : (["configuration", "histories", "intializedData", "invocations"] : List String).Pairwise (· < ·) := by
      decide +kernel
    exact List.pairwise_map.mp hsorted
  · simp only [List.forall_mem_cons]
    exact ⟨Data.restored_text (FastMicroStep.toBase64_clean _), Data.restored_text (FastMicroStep.toBase64_clean _),
      Data.restored_text (FastMicroStep.toBase64_clean _), Data.restored_text (FastMicroStep.toBase64_clean _),
      List.forall_mem_nil _⟩

theorem uncounted_microData (m : Machine δ ι β) : Data.Uncounted (microData m) := by
  rw [microData_eq]
  refine Data.uncounted_compound (List.cons_ne_nil _ _) ?_
  simp only [List.forall_mem_cons]
  exact ⟨Data.uncounted_text _, Data.uncounted_text _, Data.uncounted_text _, Data.uncounted_text _, List.forall_mem_nil _⟩

theorem fromJSON_quietState {values : List (String × Data)}
    (hvalues : ∀ value ∈ values, Data.Clean value.1 ∧ Data.Restored value.2)
    (hclean : Data.Clean (S.md5 m.document) ∧ Data.Clean S.baseURL) :
    Data.fromJSON
        (quietState S m (.mk "null" false [] []) (datamodelMember values (.mk "" false (Data.mapOf values) []))).toJSON =
      .ok (quietState S m (.mk "null" false [] []) (datamodelMember values (readValues values))) := by
  generalize hrest : [("delayQueue", Data.mk "null" false [] []), ("externalQueue", .mk "null" false [] []),
    ("md5", .ofText (S.md5 m.document)), ("microstepper", microData m), ("url", .ofText S.baseURL)] = rest
  have hne : rest ≠ [] := by
    rw [← hrest]
    exact List.cons_ne_nil _ _
  have hkeys : rest.map (·.1) = ["delayQueue", "externalQueue", "md5", "microstepper", "url"] := by
    rw [← hrest]
    rfl
  have hcleanKeys : ∀ key ∈ "datamodel" :: rest.map (·.1), Data.Clean key := by
    rw [hkeys]
    simp only [List.forall_mem_cons]
    exact ⟨Data.clean_of_all _ (by decide +kernel), Data.clean_of_all _ (by decide +kernel),
      Data.clean_of_all _ (by decide +kernel), Data.clean_of_all _ (by decide +kernel),
      Data.clean_of_all _ (by decide +kernel), Data.clean_of_all _ (by decide +kernel), List.forall_mem_nil _⟩
  have hsorted : ("datamodel" :: rest.map (·.1)).Pairwise (· < ·) := by
    rw [hkeys]
    decide +kernel
  have hrestored : ∀ member ∈ rest, Data.Restored member.2 := by
    rw [← hrest]
    simp only [List.forall_mem_cons]
    exact ⟨Data.restored_null, Data.restored_null, Data.restored_text hclean.1, restored_microData m,
      Data.restored_text hclean.2, List.forall_mem_nil _⟩
  have huncounted : ∀ member ∈ rest, Data.Uncounted member.2 := by
    rw [← hrest]
    simp only [List.forall_mem_cons]
    exact ⟨fun index => Data.renumber_atom index "null" false, fun index => Data.renumber_atom index "null" false,
      Data.uncounted_text _, uncounted_microData m, Data.uncounted_text _, List.forall_mem_nil _⟩
  have hread : ∀ members : List (String × Data), members ≠ [] → (∀ member ∈ members, Data.Clean member.1) →
      members.Pairwise (·.1 < ·.1) → (∀ member ∈ members, Data.Restored member.2) →
      Data.fromJSON (Data.mk "" false members []).toJSON = .ok (.mk "" false (Data.renumberMembers 0 members).1 []) := by
    intro members hne hclean hsorted hmembers
    have hrestored := Data.restored_compound false hne hclean hsorted hmembers
    rw [hrestored.readable.fromJSON_eq (.inl hne) (Data.bracketed_compound false hne 1) (hrestored.noNul 1),
      Data.renumber_compound 0 false hne]
  by_cases hnil : values = []
  · rw [quietState, quietState, datamodelMember, datamodelMember, if_pos hnil, if_pos hnil, hrest, List.nil_append,
      hread rest hne (fun member hmember => hcleanKeys _ (List.mem_cons_of_mem _ (List.mem_map_of_mem hmember)))
        (List.pairwise_map.mp (List.pairwise_cons.mp hsorted).2) hrestored,
      Data.renumberMembers_uncounted huncounted]
  · have hmap : Data.mapOf values ≠ [] := mt Data.mapOf_eq_nil_iff.mp hnil
    have hdata : Data.Restored (.mk "" false (Data.mapOf values) []) :=
      Data.restored_compound false hmap (fun value hvalue => (hvalues value (Data.mem_mapOf hvalue)).1)
        (Data.mapOf_sorted values) fun value hvalue => (hvalues value (Data.mem_mapOf hvalue)).2
    have hsorted' : ((("datamodel", Data.mk "" false (Data.mapOf values) []) :: rest).map (·.1)).Pairwise (· < ·) := hsorted
    rw [quietState, quietState, datamodelMember, datamodelMember, if_neg hnil, if_neg hnil, hrest, List.singleton_append,
      hread _ (List.cons_ne_nil _ _)
        (List.forall_mem_cons.mpr ⟨hcleanKeys _ List.mem_cons_self,
          fun member hmember => hcleanKeys _ (List.mem_cons_of_mem _ (List.mem_map_of_mem hmember))⟩)
        (List.pairwise_map.mp hsorted')
        (List.forall_mem_cons.mpr ⟨hdata, hrestored⟩),
      Data.renumberMembers, Data.renumber_compound 0 false hmap]
    simp only [Data.renumberMembers_uncounted huncounted]
    rfl

/-! ### Reading it -/

/-- No queue gets anything from such a text. -/
theorem loadQueues_quietState (clock : Nat → Timeval) (values : List (String × Data)) (datamodel : Data) (w : Impl δ ι) :
    loadQueues clock (quietState S m (.mk "null" false [] []) (datamodelMember values datamodel)) w = w := by
  have hevents : externalEvents (quietState S m (.mk "null" false [] []) (datamodelMember values datamodel)) = [] ∧
      delayedItems (quietState S m (.mk "null" false [] []) (datamodelMember values datamodel)) = [] := by
    rw [datamodelMember]
    split <;> exact ⟨rfl, rfl⟩
  rw [loadQueues, hevents.1, hevents.2, List.append_nil]
  rfl

/-- Without invocations `deserialize` calls no invoker. -/
theorem foldl_invoke_of_none {T : Tables} (cb : Callbacks (Impl δ ι)) {s : St (Impl δ ι)}
    (h : ∀ i ∈ s.invocations, (T.state i).invoke = []) (l : List TreePath) :
    l.foldl (fun s i => if i ∈ s.invocations then FastMicroStep.each (FastMicroStep.invoke cb) (T.state i).invoke s else s) s =
      s := by
  induction l with
  | nil => rfl
  | cons i l ih =>
    rw [List.foldl_cons]
    split
    · rename_i hi
      rw [h i hi]
      exact ih
    · exact ih

theorem deserializeMicro_of_none (encodedState : Data) {C I H X : Finset TreePath}
    (hC : loadSet d encodedState "configuration" = C) (hI : loadSet d encodedState "invocations" = I)
    (hH : loadSet d encodedState "histories" = H) (hX : loadSet d encodedState "intializedData" = X)
    (h : ∀ i ∈ I, ((FastMicroStep.tables d).state i).invoke = []) (s : St (Impl δ ι)) :
    deserializeMicro P d encodedState s =
      { s with
        configuration := C, invocations := I, history := H, initializedData := X
        flags := { s.flags with initialized := true } } := by
  have hstates : (FastMicroStep.tables d).states = d.states := rfl
  have hnone := foldl_invoke_of_none (callbacks P d)
    (s := { s with configuration := C, invocations := I, history := H, initializedData := X }) h d.states
  simp only [deserializeMicro, hstates, hC, hI, hH, hX, hnone]

theorem loadInvokers_of_none {w : Impl δ ι} (h : w.invokers = fun _ => none) (state : Data) (refs : List Ref) :
    loadInvokers S d state refs w = (.ok (), w) := by
  induction refs with
  | nil => rfl
  | cons r refs ih =>
    rw [loadInvokers, runningInvoker_of_none h r]
    exact ih

theorem loadSet_microData (hm : Kept m) (hsize : m.document.states.length < 2 ^ 64) :
    loadSet m.document (microData m) "configuration" = m.micro.configuration ∧
      loadSet m.document (microData m) "invocations" = m.micro.invocations ∧
      loadSet m.document (microData m) "histories" = m.micro.history ∧
      loadSet m.document (microData m) "intializedData" = m.micro.initializedData := by
  have hread : ∀ set : Finset TreePath, (∀ i ∈ set, i ∈ m.document.states) →
      FastMicroStep.ofBits m.document.states
        (FastMicroStep.fromBase64 (FastMicroStep.toBase64 (FastMicroStep.bitsOf m.document.states set))) = set :=
    fun set hset => FastMicroStep.ofBits_fromBase64 hsize hset
  exact ⟨hread _ hm.sane.configuration, hread _ hm.sane.invocations, hread _ hm.sane.history, hread _ hm.sane.initializedData⟩

theorem deserialize_serialize (hm : Kept m) (hsize : (resortStates d).states.length < 2 ^ 64)
    (hstate : m.state = .idle ∨ m.state = .macrostepped) (h : Resumable P S D d dataModel m)
    {values values' : List (String × Data)} {dm : δ} (hdata : DataKept P S D dataModel m values values' dm)
    (clock : Nat → Timeval) :
    ∃ encodedState, serialize P S m = some encodedState ∧
      deserialize P S clock (fresh d dataModel m.micro.env.issued) encodedState = (.ok (), resumed m dm) := by
  have hpermitted : m.state = .idle ∨ m.state = .macrostepped ∨ m.state = .finished := by
    rcases hstate with hstate | hstate
    · exact .inl hstate
    · exact .inr (.inl hstate)
  have hjson : Data.fromJSON (stateData S m values).toJSON =
      .ok (quietState S m (.mk "null" false [] []) (datamodelMember values' (readValues values'))) := by
    rw [stateData_eq h.externalQueue h.invokers, toJSON_quietState hdata.written,
      fromJSON_quietState hdata.readable h.clean]
  refine ⟨(stateData S m values).toJSON, by rw [serialize, if_pos hpermitted, hdata.evaluated], ?_⟩
  generalize hstate' : quietState S m (.mk "null" false [] []) (datamodelMember values' (readValues values')) = state at hjson
  have hqueues : ∀ w : Impl δ ι, loadQueues clock state w = w := by
    rw [← hstate']
    exact loadQueues_quietState clock values' _
  have hparts : missing? state ["microstepper", "url", "md5"] = none ∧
      (state.at? "md5").elim "" Data.atom = S.md5 m.document ∧ (state.at? "microstepper").getD Data.empty = microData m ∧
      (state.at? "datamodel").getD Data.empty = readValues values' := by
    rw [← hstate', datamodelMember]
    split
    · rename_i hnil
      rw [hnil]
      exact ⟨rfl, rfl, rfl, rfl⟩
    · exact ⟨rfl, rfl, rfl, rfl⟩
  obtain ⟨hkeys, hmd5, hmicro, hmodel⟩ := hparts
  rw [← h.document] at hsize
  obtain ⟨hC, hI, hH, hX⟩ := loadSet_microData hm hsize
  have hfields : missing? (microData m) microFields = none := rfl
  have hrestart := fun s : St (Impl δ ι) =>
    deserializeMicro_of_none (P := P) (microData m) hC hI hH hX h.invocations s
  simp only [deserialize, hjson, init, fresh, Bool.false_eq_true, if_false, ← h.document, loadState, hkeys, hqueues, hmd5,
    ne_eq, not_true_eq_false, loadValues, hmodel, hdata.loaded, loadMicro, hmicro, hfields, hrestart]
  rw [loadInvokers_of_none rfl]
  rfl

/-- The state of the resumed interpreter behind its first step: it has come to rest once more. -/
def rested (m : Machine δ ι β) : Machine δ ι β :=
  { m with
    state := .macrostepped
    micro :=
      { m.micro with
        event := {}
        microstepConfigurations := ∅
        flags := { m.micro.flags with stable := true }
        env := { m.micro.env with currEvent := {} }
        calls := m.micro.calls ++ [.onStableConfiguration] } }

end

end Interpreter

end Uscxml
