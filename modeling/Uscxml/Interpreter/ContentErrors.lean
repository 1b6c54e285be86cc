import Uscxml.Interpreter.ContentExecutor
import Uscxml.Interpreter.Session
import Uscxml.FastMicroStep.Invocations
import Uscxml.FastMicroStep.Simulation

/-!
# Errors in executable content

The interpreter with `BasicContentExecutor` behind it. The blocks of a document are forests of elements; what they throw is
kept beside the data model, so that a step can be asked what it has met. `InterpreterImpl::isTrue` and `initData` catch
an `ErrorEvent` and nothing else, the microstepper catches whatever leaves a block. Executable content puts events into
the internal queue and takes none out.
-/

namespace Uscxml

/-- A data model with what has been thrown, and the number of exceptions that have left a step. -/
structure Logged (δ : Type) where
  state : δ
  faults : List Fault := []
  escapes : Nat := 0

/-- All that is kept beside the data model. -/
def Logged.kept {δ : Type} (m : Logged δ) : List Fault × Nat := (m.faults, m.escapes)

variable {α δ ι : Type}

/-- What an element can do to a session: the internal queue grows. -/
def Grows (s s' : Session (Logged δ) ι) : Prop :=
  s.internalQueue <+: s'.internalQueue ∧ s'.dataModel.kept = s.dataModel.kept

abbrev SessionOp (δ ι γ : Type) := { g : Session (Logged δ) ι → γ × Session (Logged δ) ι // ∀ s, Grows s (g s).2 }

/-- The elements of executable content, and what the data model does for it, for conditions and for `<data>`. -/
structure Elements (α δ ι : Type) where
  execute : Finset TreePath → α → SessionOp δ ι (Except Fault Unit)
  enterElement : Finset TreePath → String → SessionOp δ ι (Except Fault Unit)
  processChildren : String → Session (Logged δ) ι → Bool
  exitElement : Finset TreePath → String → SessionOp δ ι (Except Fault Unit)
  evalAsBool : Finset TreePath → String → δ → Except Fault Bool × δ
  assign : Finset TreePath → String → Data → δ → Except Fault Unit × δ
  init : Finset TreePath → Ref → δ → Except Fault Unit × δ
  getLength : Finset TreePath → String → δ → Except Fault Nat × δ
  setForeach : Finset TreePath → String → String → String → Nat → δ → Except Fault Unit × δ
  doneData : Finset TreePath → Ref → SessionOp δ ι (Event → Event)

namespace Interpreter

/-- The blocks of a document: its elements below a handler, a `<finalize>` or alone. -/
abbrev Content (α : Type) := Forest (ContentKind α)

variable (B : Platform δ ι) (E : Elements α δ ι) (d : Document (Content α))

def onModel {γ : Type} (g : δ → γ × δ) (s : Session (Logged δ) ι) : γ × Session (Logged δ) ι :=
  ((g s.dataModel.state).1, { s with dataModel := { s.dataModel with state := (g s.dataModel.state).2 } })

def contentCallbacks (C : Finset TreePath) : ContentCallbacks α (Session (Logged δ) ι) where
  execute a := (E.execute C a).1
  evalAsBool cond := onModel (E.evalAsBool C cond)
  getLength array := onModel (E.getLength C array)
  setForeach item array index n := onModel (E.setForeach C item array index n)
  assign name data := onModel (E.assign C name data)
  enterElement name := (E.enterElement C name).1
  processChildren := E.processChildren
  exitElement name := (E.exitElement C name).1
  getCurrentEvent s := s.currEvent
  enqueueInternal e s := { s with internalQueue := s.internalQueue ++ [e] }

def block? : Ref → Option (ContentBlock α)
  | .onEntry p k => ((d.elem? p).bind fun e => e.onEntry[k]?).map .handler
  | .onExit p k => ((d.elem? p).bind fun e => e.onExit[k]?).map .handler
  | .transition p k => ((d.trans? (p, k)).bind (·.content)).map .handler
  | .script k =>
    match d.tree.root.script[k]? with
    | some (.cons kind kids _) => some (.element kind kids)
    | _ => none
  | .invoke p k =>
    (d.elem? p).bind fun e => e.invoke[k]?.bind fun i => i.finalize.map (.finalize i.namelist)
  | _ => none

/-- `process` with what is thrown in it. -/
def processBlock (C : Finset TreePath) (block : ContentBlock α) (s : Session (Logged δ) ι) : Bool × Session (Logged δ) ι :=
  let o := ContentExecutor.process (contentCallbacks E C) block s
  (match o.result with
    | .ok _ => false
    | .error _ => true,
    { o.state with
      dataModel := { o.state.dataModel with faults := o.state.dataModel.faults ++ ContentExecutor.faultsOf o.notes } })

/-- An evaluation outside of executable content. An exception that is no `ErrorEvent` leaves the step, so that it does not
matter what the evaluation returns then. -/
def logging {γ : Type} (default : γ) (g : δ → Except Fault γ × δ) (m : Logged δ) : Except Event γ × Logged δ :=
  match g m.state with
  | (.ok a, state) => (.ok a, { m with state := state })
  | (.error (.error e), state) => (.error e, { m with state := state, faults := m.faults ++ [.error e] })
  | (.error .other, state) => (.ok default, { state := state, faults := m.faults ++ [.other], escapes := m.escapes + 1 })

def unlogged {γ : Type} (g : δ → γ × δ) (m : Logged δ) : γ × Logged δ := ((g m.state).1, { m with state := (g m.state).2 })

/-- The platform of an interpreter with this executor: `B` names, evaluates expressions and invokes. What an assignment to an
`idlocation` throws ends in the microstepper, whatever it is. -/
def contentPlatform : Platform (Logged δ) ι where
  nameMatch := B.nameMatch
  evalAsBool C expr := logging false (E.evalAsBool C expr)
  evalAsData C expr := unlogged (B.evalAsData C expr)
  elementAsEvaluatedData C text := unlogged (B.elementAsEvaluatedData C text)
  assign C location data := unlogged fun dm =>
    ((E.assign C location data dm).1.mapError fun f => f.error?.getD {}, (E.assign C location data dm).2)
  setEvent event m := { m with state := B.setEvent event m.state }
  init C r := logging () (E.init C r)
  process C r s :=
    match block? d r with
    | none => (false, s)
    | some block => processBlock E C block s
  doneData C r := (E.doneData C r).1
  createInvoker := B.createInvoker
  startInvoker := B.startInvoker
  eventFromSCXML := B.eventFromSCXML
  uuid := B.uuid

/-! ### What is done with an error -/

/-- The internal queue grows, and what it grows by has the errors that were met. Without other exceptions none leaves. -/
def Accounts (w w' : Session (Logged δ) ι) : Prop :=
  ∃ q l, w'.internalQueue = w.internalQueue ++ q ∧ w'.dataModel.faults = w.dataModel.faults ++ l ∧
    (l.filterMap Fault.error?).Sublist q ∧ (Fault.other ∉ l → w'.dataModel.escapes = w.dataModel.escapes)

theorem Accounts.refl (w : Session (Logged δ) ι) : Accounts w w :=
  ⟨[], [], by simp, by simp, List.Sublist.refl [], fun _ => rfl⟩

theorem Accounts.trans {w w' w'' : Session (Logged δ) ι} (h : Accounts w w') (h' : Accounts w' w'') : Accounts w w'' := by
  obtain ⟨q, l, hq, hl, hsub, hescapes⟩ := h
  obtain ⟨q', l', hq', hl', hsub', hescapes'⟩ := h'
  refine ⟨q ++ q', l ++ l', by rw [hq', hq, List.append_assoc], by rw [hl', hl, List.append_assoc], ?_, ?_⟩
  · rw [List.filterMap_append]
    exact hsub.append hsub'
  · intro hnot
    rw [List.mem_append, not_or] at hnot
    exact (hescapes' hnot.2).trans (hescapes hnot.1)

theorem Accounts.congr {w w₁ w₂ : Session (Logged δ) ι} (h : Accounts w w₁) (hq : w₂.internalQueue = w₁.internalQueue)
    (hl : w₂.dataModel.kept = w₁.dataModel.kept) : Accounts w w₂ := by
  obtain ⟨q, l, hq', hl', hsub, hescapes⟩ := h
  obtain ⟨hfaults, hcount⟩ := Prod.mk.inj hl
  exact ⟨q, l, hq.trans hq', hfaults.trans hl', hsub, fun hnot => hcount.trans (hescapes hnot)⟩

theorem Grows.accounts {w w' : Session (Logged δ) ι} (h : Grows w w') : Accounts w w' := by
  obtain ⟨⟨q, hq⟩, hl⟩ := h
  obtain ⟨hfaults, hcount⟩ := Prod.mk.inj hl
  exact ⟨q, [], hq.symm, by rw [hfaults, List.append_nil], List.nil_sublist q, fun _ => hcount⟩

/-- The internal queue grows, and what it grows by has the errors that were reported. -/
def Enqueues {γ : Type} : Traced.Spec Thrown ContentNote (Session (Logged δ) ι) γ := fun s _ l s' =>
  ∃ q, s'.internalQueue = s.internalQueue ++ q ∧ s'.dataModel.kept = s.dataModel.kept ∧
    (ContentExecutor.reportsOf l).Sublist q

theorem Enqueues.goOn {γ γ' : Type} {s s' s'' : Session (Logged δ) ι} {r : Except Thrown γ} {r' : Except Thrown γ'}
    {l l' : List ContentNote} (h : Enqueues s r l s') (h' : Enqueues s' r' l' s'') : Enqueues s r' (l ++ l') s'' := by
  obtain ⟨q, hq, hl, hsub⟩ := h
  obtain ⟨q', hq', hl', hsub'⟩ := h'
  refine ⟨q ++ q', by rw [hq', hq, List.append_assoc], hl'.trans hl, ?_⟩
  rw [ContentExecutor.reportsOf_append]
  exact hsub.append hsub'

theorem enqueues_chains : (Enqueues (δ := δ) (ι := ι)).Chains where
  nothing s := ⟨[], by simp, rfl, List.Sublist.refl []⟩
  goOn _ _ _ _ _ _ h h' := h.goOn h'

theorem enqueues_bind {γ : Type} {x : ContentExecutor.Run (Session (Logged δ) ι) γ}
    {k : γ → ContentExecutor.Run (Session (Logged δ) ι) Unit} (hx : x.Meets Enqueues) (hk : ∀ a, (k a).Meets Enqueues) :
    (x.bind k).Meets Enqueues :=
  hx.bind hk (fun _ _ _ _ h => h) fun _ _ _ _ _ _ _ h h' => h.goOn h'

theorem raising_enqueues {γ : Type} (p : TreePath) {g : Session (Logged δ) ι → Except Fault γ × Session (Logged δ) ι}
    (hg : ∀ s, Grows s (g s).2) : (ContentExecutor.raising p g).Meets Enqueues := by
  intro s
  obtain ⟨⟨q, hq⟩, hl⟩ := hg s
  rw [ContentExecutor.raising]
  rcases hgs : g s with ⟨(e | _) | a, s'⟩
  · rw [hgs] at hq hl
    exact ⟨q, hq.symm, hl, List.nil_sublist q⟩
  · rw [hgs] at hq hl
    exact ⟨q, hq.symm, hl, List.nil_sublist q⟩
  · rw [hgs] at hq hl
    exact ⟨q, hq.symm, hl, List.nil_sublist q⟩

theorem onModel_grows {γ : Type} (g : δ → γ × δ) (s : Session (Logged δ) ι) : Grows s (onModel g s).2 :=
  ⟨List.prefix_refl _, rfl⟩

variable {E} in
theorem isTrue_enqueues {C : Finset TreePath} (p : TreePath) (cond : String) :
    (ContentExecutor.isTrue (contentCallbacks E C) p cond).Meets Enqueues := by
  intro s
  simp only [ContentExecutor.isTrue, contentCallbacks, onModel]
  rcases E.evalAsBool C cond s.dataModel.state with ⟨(e | _) | b, state⟩
  · exact ⟨[e], rfl, rfl, List.Sublist.refl [e]⟩
  · exact ⟨[], by simp, rfl, List.Sublist.refl []⟩
  · exact ⟨[], by simp, rfl, List.Sublist.refl []⟩

variable {E} in
theorem guarded_enqueues {C : Finset TreePath} (p : TreePath) {x : ContentExecutor.Run (Session (Logged δ) ι) Unit}
    (h : x.Meets Enqueues) : (ContentExecutor.guarded (contentCallbacks E C) p x).Meets Enqueues := by
  intro s
  have hs := h s
  rw [ContentExecutor.guarded]
  generalize x s = o at hs
  rcases o with ⟨(e | e | _) | _, l, s'⟩
  · obtain ⟨q, hq, hl, hsub⟩ := hs
    refine ⟨q ++ [e], ?_, hl, ?_⟩
    · show s'.internalQueue ++ [e] = s.internalQueue ++ (q ++ [e])
      rw [show s'.internalQueue = s.internalQueue ++ q from hq, List.append_assoc]
    · show (ContentExecutor.reportsOf (l ++ [.report e, .after p])).Sublist (q ++ [e])
      rw [ContentExecutor.reportsOf_append]
      exact hsub.append (List.Sublist.refl [e])
  · exact hs
  · exact hs
  · obtain ⟨q, hq, hl, hsub⟩ := hs
    refine ⟨q, hq, hl, ?_⟩
    show (ContentExecutor.reportsOf (l ++ [.after p])).Sublist q
    rw [ContentExecutor.reportsOf_append]
    simpa [ContentExecutor.reportsOf] using hsub

theorem enqueues_rules (C : Finset TreePath) :
    ContentExecutor.Rules (contentCallbacks E C) (fun _ => Enqueues) fun _ => Enqueues where
  sequence _ := enqueues_chains
  branch _ := enqueues_chains
  below _ _ h := h
  element p a := raising_enqueues p (E.execute C a).2
  exit p name := raising_enqueues p (E.exitElement C name).2
  enter p name := raising_enqueues p (E.enterElement C name).2
  iteration p _ _ _ _ := raising_enqueues p (onModel_grows _)
  length p _ _ hk := enqueues_bind (raising_enqueues p (onModel_grows _)) hk
  condition _ p cond _ hk := enqueues_bind (isTrue_enqueues p cond) hk
  assertion _ s := ⟨[], by simp, rfl, List.Sublist.refl []⟩
  guard P k _ h := guarded_enqueues (P ++ [k]) h

theorem assignNames_enqueues (C : Finset TreePath) (names : List String) :
    (ContentExecutor.assignNames (contentCallbacks E C) names).Meets Enqueues := by
  induction names with
  | nil => exact Traced.meets_pure enqueues_chains.nothing
  | cons name names ih =>
    refine enqueues_bind ?_ fun _ => ih
    intro s
    have hassign := fun data => raising_enqueues [] (onModel_grows (ι := ι) (E.assign C name data)) s
    simp only
    split
    · exact hassign _
    · exact hassign _
    · exact enqueues_chains.nothing s

theorem process_enqueues (C : Finset TreePath) (block : ContentBlock α) :
    (ContentExecutor.process (contentCallbacks E C) block).Meets Enqueues := by
  have hrules := enqueues_rules E C
  have hall := fun kids => hrules.all (p := []) (hrules.children [] 0 kids)
  cases block with
  | handler kids =>
    intro s
    have hs := hall kids s
    rw [ContentExecutor.process, ContentExecutor.sliced]
    generalize Traced.all ((ContentExecutor.children (contentCallbacks E C) [] 0 kids).map (·.run)) s = o at hs
    rcases o with ⟨(e | e | _) | _, l, s'⟩
    · exact hs
    · exact hs
    · exact hs
    · exact hs
  | finalize namelist kids =>
    cases kids with
    | nil => exact assignNames_enqueues E C namelist
    | cons kind kids next => exact hall (.cons kind kids next)
  | element kind kids => exact guarded_enqueues [] (hrules.processElement (hrules.children [] 0 kids) kind)

/-- The errors of a block are in the queue, unless one has left an empty `<finalize>`. -/
theorem processBlock_accounts (C : Finset TreePath) (block : ContentBlock α) (s : Session (Logged δ) ι)
    (h : (∀ names, block ≠ .finalize names .nil) ∨ (processBlock E C block s).1 = false) :
    Accounts s (processBlock E C block s).2 := by
  obtain ⟨q, hq, hl, hsub⟩ := process_enqueues E C block s
  have herrors : ContentExecutor.errorsOf (ContentExecutor.process (contentCallbacks E C) block s).notes =
      ContentExecutor.reportsOf (ContentExecutor.process (contentCallbacks E C) block s).notes := by
    by_cases hblock : ∀ names, block ≠ .finalize names .nil
    · exact ContentExecutor.process_reported _ block s hblock
    obtain ⟨names, rfl⟩ := not_forall_not.mp hblock
    have hreturned : (ContentExecutor.process (contentCallbacks E C) (.finalize names .nil) s).result = .ok () := by
      have hthrown := h.resolve_left hblock
      simp only [processBlock] at hthrown
      split at hthrown
      · assumption
      · cases hthrown
    have hnotes := ContentExecutor.assignNames_errors (contentCallbacks E C) names s hreturned
    show ContentExecutor.errorsOf (ContentExecutor.assignNames (contentCallbacks E C) names s).notes =
      ContentExecutor.reportsOf (ContentExecutor.assignNames (contentCallbacks E C) names s).notes
    rw [hnotes]
    rfl
  obtain ⟨hfaults, hcount⟩ := Prod.mk.inj hl
  refine ⟨q, ContentExecutor.faultsOf (ContentExecutor.process (contentCallbacks E C) block s).notes, hq, ?_, ?_, ?_⟩
  · simp only [processBlock]
    rw [hfaults]
  · rw [ContentExecutor.filterMap_faultsOf, herrors]
    exact hsub
  · exact fun _ => hcount

/-! ### The interpreter -/

theorem logging_kept {γ : Type} (default : γ) (g : δ → Except Fault γ × δ) (m : Logged δ) :
    match (logging default g m).1 with
    | .ok _ => ∃ l, (logging default g m).2.faults = m.faults ++ l ∧ l.filterMap Fault.error? = [] ∧
        (Fault.other ∉ l → (logging default g m).2.escapes = m.escapes)
    | .error e => (logging default g m).2.kept = (m.faults ++ [.error e], m.escapes) := by
  rw [logging]
  rcases g m.state with ⟨(e | _) | a, state⟩
  · rfl
  · exact ⟨[.other], rfl, rfl, fun h => absurd (List.mem_singleton_self _) h⟩
  · exact ⟨[], by simp, rfl, fun _ => rfl⟩

theorem Accounts.of_logging {γ : Type} {b : γ} {g : δ → Except Fault γ × δ} {w w' : Session (Logged δ) ι}
    (hmodel : w'.dataModel = (logging b g w.dataModel).2)
    (hqueue : w'.internalQueue = w.internalQueue ++
      match (logging b g w.dataModel).1 with
      | .ok _ => []
      | .error e => [e]) : Accounts w w' := by
  have hkept := logging_kept b g w.dataModel
  rw [← hmodel] at hkept
  cases hanswer : (logging b g w.dataModel).1 with
  | ok a =>
    rw [hanswer] at hkept hqueue
    obtain ⟨l, hfaults, hnone, hcount⟩ := hkept
    exact ⟨[], l, hqueue, hfaults, by rw [hnone], hcount⟩
  | error e =>
    rw [hanswer] at hkept hqueue
    obtain ⟨hfaults, hcount⟩ := Prod.mk.inj hkept
    exact ⟨[e], [.error e], hqueue, hfaults, List.Sublist.refl [e], fun _ => hcount⟩

theorem isTrue_accounts (C : Finset TreePath) (expr : String) (w : Impl (Logged δ) ι) :
    Accounts w.toSession (isTrue (contentPlatform B E d) C expr w).2.toSession := by
  refine Accounts.of_logging (b := false) (g := E.evalAsBool C expr) ?_ ?_
  · simp only [isTrue, contentPlatform]
    cases (logging false (E.evalAsBool C expr) w.dataModel).1 with
    | ok b => rfl
    | error e => rfl
  · simp only [isTrue, contentPlatform]
    cases (logging false (E.evalAsBool C expr) w.dataModel).1 with
    | ok b => exact (List.append_nil _).symm
    | error e => rfl

theorem initData_accounts (C : Finset TreePath) (r : Ref) (w : Impl (Logged δ) ι) :
    Accounts w.toSession (initData (contentPlatform B E d) C r w).toSession := by
  refine Accounts.of_logging (b := ()) (g := E.init C r) ?_ ?_
  · simp only [initData, contentPlatform]
    cases (logging () (E.init C r) w.dataModel).1 with
    | ok b => rfl
    | error e => rfl
  · simp only [initData, contentPlatform]
    cases (logging () (E.init C r) w.dataModel).1 with
    | ok b => exact (List.append_nil _).symm
    | error e => rfl

theorem raiseDoneEvent_accounts {β : Type} (d' : Document β) (C : Finset TreePath) (state : TreePath)
    (doneData : Option Ref) (w : Impl (Logged δ) ι) :
    Accounts w.toSession (raiseDoneEvent (contentPlatform B E d) d' C state doneData w).toSession := by
  cases doneData with
  | none => exact ⟨[_], [], rfl, by simp [raiseDoneEvent, enqueueInternal], List.nil_sublist _, fun _ => rfl⟩
  | some r =>
    have hgrows := Grows.accounts ((E.doneData C r).2 w.toSession)
    refine hgrows.trans ⟨[_], [], rfl, ?_, List.nil_sublist _, fun _ => rfl⟩
    simp [raiseDoneEvent, enqueueInternal, contentPlatform]

theorem process_accounts (C : Finset TreePath) (r : Ref) (w : Impl (Logged δ) ι)
    (h : r.isContent = true ∨ (process (contentPlatform B E d) C r w).1 = false) :
    Accounts w.toSession (process (contentPlatform B E d) C r w).2.toSession := by
  simp only [process, contentPlatform] at h ⊢
  cases hblock : block? d r with
  | none => exact Accounts.refl _
  | some block =>
    rw [hblock] at h
    refine processBlock_accounts E C block w.toSession (h.imp_left fun hr names heq => ?_)
    subst heq
    cases r with
    | onEntry p k =>
      obtain ⟨_, _, hkind⟩ := Option.map_eq_some_iff.mp hblock
      cases hkind
    | onExit p k =>
      obtain ⟨_, _, hkind⟩ := Option.map_eq_some_iff.mp hblock
      cases hkind
    | transition p k =>
      obtain ⟨_, _, hkind⟩ := Option.map_eq_some_iff.mp hblock
      cases hkind
    | script k =>
      simp only [block?] at hblock
      split at hblock
      · cases hblock
      · cases hblock
    | _ => cases hr

/-! ### Invocations -/

def Keeps (queue : List Event) (kept : List Fault × Nat) (w : Impl (Logged δ) ι) : Prop :=
  w.internalQueue = queue ∧ w.dataModel.kept = kept

section

variable {queue : List Event} {kept : List Fault × Nat} {β : Type} {w : Impl (Logged δ) ι}

theorem evalAttr_keeps (C : Finset TreePath) (expr plain : Option String) (default : String) (h : Keeps queue kept w) :
    Keeps queue kept (evalAttr (contentPlatform B E d) C expr plain default w).2 := by
  cases expr with
  | none => exact h
  | some expr => exact h

theorem invokeId_keeps (C : Finset TreePath) (stateId : String) (e : InvokeElem β) (h : Keeps queue kept w) :
    Keeps queue kept (invokeId (contentPlatform B E d) C stateId e w).2 := by
  rw [invokeId]
  split
  · exact h
  · simp only
    split
    · exact h
    · exact h

theorem invokeHead_keeps (C : Finset TreePath) (stateId : String) (e : InvokeElem β) (h : Keeps queue kept w) :
    Keeps queue kept (invokeHead (contentPlatform B E d) C stateId e w).2 := by
  have htype := evalAttr_keeps B E d C e.typeexpr e.type "http://www.w3.org/TR/scxml/" h
  rw [invokeHead]
  generalize evalAttr (contentPlatform B E d) C e.typeexpr e.type "http://www.w3.org/TR/scxml/" w = answer at htype
  rcases answer with ⟨_ | type, w₁⟩
  · exact htype
  have hsource := evalAttr_keeps B E d C e.srcexpr e.src "" htype
  simp only
  generalize evalAttr (contentPlatform B E d) C e.srcexpr e.src "" w₁ = answer at hsource
  rcases answer with ⟨_ | source, w₂⟩
  · exact hsource
  have hid := invokeId_keeps B E d C stateId e hsource
  simp only
  generalize invokeId (contentPlatform B E d) C stateId e w₂ = answer at hid
  rcases answer with ⟨_ | id, w₃⟩
  · exact hid
  · exact hid

theorem evalAll_kept {l : List (String × (Logged δ → Except Event Data × Logged δ))}
    (h : ∀ x ∈ l, ∀ m, (x.2 m).2.kept = m.kept) (m : Logged δ) : (evalAll l m).2.kept = m.kept := by
  induction l generalizing m with
  | nil => rfl
  | cons x l ih =>
    obtain ⟨name, eval⟩ := x
    have hx : (eval m).2.kept = m.kept := h (name, eval) List.mem_cons_self m
    have hrest := ih fun x hx => h x (List.mem_cons_of_mem _ hx)
    simp only [evalAll]
    rcases hm : eval m with ⟨_ | value, m₁⟩
    · rw [hm] at hx
      exact hx
    · rw [hm] at hx
      have hm₁ := (hrest m₁).trans hx
      simp only
      generalize evalAll l m₁ = answer at hm₁
      rcases answer with ⟨_ | values, m₂⟩
      · exact hm₁
      · exact hm₁

theorem evalParam_kept (C : Finset TreePath) (p : ParamElem) (m : Logged δ) :
    (evalParam (contentPlatform B E d) C p m).2.kept = m.kept := by
  obtain ⟨name, expr, location, text⟩ := p
  cases expr with
  | some expr => rfl
  | none =>
    cases location with
    | some location => rfl
    | none => rfl

theorem invokeArguments_kept (C : Finset TreePath) (e : InvokeElem β) (event : Event) (m : Logged δ) :
    (invokeArguments (contentPlatform B E d) C e event m).2.kept = m.kept := by
  have hnames := evalAll_kept (l := e.namelist.map fun name => (name, (contentPlatform B E d).evalAsData C name))
    (by
      intro x hx m
      obtain ⟨name, -, rfl⟩ := List.mem_map.mp hx
      rfl) m
  have hparams := evalAll_kept (l := e.params.map fun p => (p.name, evalParam (contentPlatform B E d) C p))
    (by
      intro x hx m
      obtain ⟨p, -, rfl⟩ := List.mem_map.mp hx
      exact evalParam_kept B E d C p m)
  rw [invokeArguments]
  generalize evalAll (e.namelist.map fun name => (name, (contentPlatform B E d).evalAsData C name)) m = answer at hnames
  rcases answer with ⟨_ | names, m₁⟩
  · exact hnames
  have hparams := (hparams m₁).trans hnames
  simp only
  generalize evalAll (e.params.map fun p => (p.name, evalParam (contentPlatform B E d) C p)) m₁ = answer at hparams
  rcases answer with ⟨_ | params, m₂⟩
  · exact hparams
  simp only
  cases e.content with
  | none => exact hparams
  | some text =>
    simp only [contentPlatform, unlogged]
    rcases B.elementAsEvaluatedData C text m₂.state with ⟨_ | data, state⟩
    · exact hparams
    · exact hparams

theorem invokeTail_keeps (C : Finset TreePath) (type source id : String) (r : Ref) (e : InvokeElem β)
    (h : Keeps queue kept w) : Keeps queue kept (invokeTail (contentPlatform B E d) C type source id r e w) := by
  have hkept := invokeArguments_kept B E d C e { invokeid := id } w.dataModel
  rw [invokeTail]
  generalize invokeArguments (contentPlatform B E d) C e { invokeid := id } w.dataModel = answer at hkept
  rcases answer with ⟨_ | event, m⟩
  · exact ⟨h.1, hkept.trans h.2⟩
  · simp only [startInvoker]
    rcases (contentPlatform B E d).createInvoker type source with _ | invoker
    · exact ⟨h.1, hkept.trans h.2⟩
    · simp only
      rcases (contentPlatform B E d).startInvoker invoker source event with _ | invoker
      · exact ⟨h.1, hkept.trans h.2⟩
      · exact ⟨h.1, hkept.trans h.2⟩

theorem invoke_keeps (d' : Document β) (C : Finset TreePath) (r : Ref) (h : Keeps queue kept w) :
    Keeps queue kept (invoke (contentPlatform B E d) d' C r w) := by
  rw [invoke]
  cases invokeElem? d' r with
  | none => exact h
  | some e =>
    obtain ⟨stateId, e⟩ := e
    have hhead := invokeHead_keeps B E d C stateId e h
    simp only
    generalize invokeHead (contentPlatform B E d) C stateId e w = answer at hhead
    rcases answer with ⟨_ | ⟨type, source, id⟩, w₁⟩
    · exact hhead
    · exact invokeTail_keeps B E d C type source id r e (w := { w₁ with invokeIds := _ }) hhead

theorem uninvoke_keeps (r : Ref) (h : Keeps queue kept w) : Keeps queue kept (uninvoke r w) := by
  rw [uninvoke]
  split
  · exact h
  · simp only
    split
    · exact h
    · exact h

end

/-! ### Steps -/

open FastMicroStep

/-- The callbacks without those that take events out of the queues. -/
def withoutQueues (cb : Callbacks (Impl (Logged δ) ι)) : Callbacks (Impl (Logged δ) ι) :=
  { cb with
    dequeueInternal := fun w => ({}, w)
    dequeueExternal := fun _ w => (.ok {}, w) }

theorem callbacks_accounts {β : Type} (d' : Document β) (w₀ : Session (Logged δ) ι) :
    (callbacks (contentPlatform B E d) d').Agree (callbacks (contentPlatform B E d) d')
      fun w w' => w = w' ∧ Accounts w₀ w.toSession where
  isMatched _ _ _ _ h := ⟨rfl, h⟩
  isTrue C expr w w' h := by
    obtain ⟨rfl, h⟩ := h
    exact ⟨rfl, rfl, h.trans (isTrue_accounts B E d C expr w)⟩
  raiseDoneEvent C state doneData w w' h := by
    obtain ⟨rfl, h⟩ := h
    exact ⟨rfl, h.trans (raiseDoneEvent_accounts B E d d' C state doneData w)⟩
  initData C r w w' h := by
    obtain ⟨rfl, h⟩ := h
    exact ⟨rfl, h.trans (initData_accounts B E d C r w)⟩
  process C r w w' hr h := by
    obtain ⟨rfl, h⟩ := h
    exact ⟨rfl, h.trans (process_accounts B E d C r w (.inl hr))⟩

theorem withoutQueues_accounts {β : Type} (d' : Document β) (w₀ : Session (Logged δ) ι) :
    (withoutQueues (callbacks (contentPlatform B E d) d')).Simulates (withoutQueues (callbacks (contentPlatform B E d) d'))
      fun w w' => w = w' ∧ Accounts w₀ w.toSession where
  isMatched := (callbacks_accounts B E d d' w₀).isMatched
  isTrue := (callbacks_accounts B E d d' w₀).isTrue
  raiseDoneEvent := (callbacks_accounts B E d d' w₀).raiseDoneEvent
  initData := (callbacks_accounts B E d d' w₀).initData
  process := (callbacks_accounts B E d d' w₀).process
  dequeueInternal _ _ h := ⟨rfl, h⟩
  dequeueExternal _ _ _ h := ⟨rfl, h⟩
  invoke C r w w' h := by
    obtain ⟨rfl, h⟩ := h
    have hkeeps := invoke_keeps B E d d' C r (w := w) ⟨rfl, rfl⟩
    exact ⟨rfl, h.congr hkeeps.1 hkeeps.2⟩
  uninvoke C r w w' h := by
    obtain ⟨rfl, h⟩ := h
    have hkeeps := uninvoke_keeps r (w := w) ⟨rfl, rfl⟩
    exact ⟨rfl, h.congr hkeeps.1 hkeeps.2⟩

section

variable {T : Tables} (hT : T.Contents) {β : Type} (d' : Document β) {w₀ : Session (Logged δ) ι} {s : St (Impl (Logged δ) ι)}

theorem related_of_accounts (h : Accounts w₀ s.env.toSession) :
    Related (fun w w' => w = w' ∧ Accounts w₀ w.toSession) s.calls s.calls s s :=
  ⟨rfl, ⟨rfl, h⟩, [], by simp, by simp⟩

include hT

theorem microstep_accounts (targetSet X : Finset TreePath) (transSet : Finset TransId)
    (h : Accounts w₀ s.env.toSession) :
    Accounts w₀ (microstep T (callbacks (contentPlatform B E d) d') targetSet X transSet s).env.toSession :=
  ((related_of_accounts h).microstep hT (callbacks_accounts B E d d' w₀) targetSet X transSet).env.2

theorem selectAndStep_accounts (h : Accounts w₀ s.env.toSession) :
    Accounts w₀ (selectAndStep T (callbacks (contentPlatform B E d) d') s).2.env.toSession :=
  ((related_of_accounts h).selectAndStep hT (callbacks_accounts B E d d' w₀) rfl).2.env.2

theorem complete_accounts (h : Accounts w₀ s.env.toSession) :
    Accounts w₀ (complete T (callbacks (contentPlatform B E d) d') s).env.toSession :=
  ((related_of_accounts h).complete hT (withoutQueues_accounts B E d d' w₀)).env.2

omit hT in
theorem manageInvocations_accounts (h : Accounts w₀ s.env.toSession) :
    Accounts w₀ (manageInvocations T (callbacks (contentPlatform B E d) d') s).env.toSession :=
  ((related_of_accounts h).manageInvocations (withoutQueues_accounts B E d d' w₀)).env.2

end

/-! ### Events from outside -/

section

variable {δ : Type} (P : Platform δ ι)

def arriving (event : Event) (queue : List Event) (w : Impl δ ι) : Impl δ ι :=
  { w with currEvent := event, externalQueue := queue, dataModel := P.setEvent event w.dataModel }

def finalized (C : Finset TreePath) (event : Event) (w : Impl δ ι) : Impl δ ι :=
  match finalizeOf event w with
  | none => w
  | some block => (process P C block w).2

/-- An error leaves the `<finalize>` for an event. -/
def finalizeThrows (C : Finset TreePath) (event : Event) (w : Impl δ ι) : Bool :=
  match finalizeOf event w with
  | none => false
  | some block => (process P C block w).1

theorem dequeueExternal_cons {C : Finset TreePath} {event : Event} {queue : List Event} {w : Impl δ ι}
    (hw : w.externalQueue = event :: queue) (he : event.toBool = true) :
    dequeueExternal P C w =
      if finalizeThrows P C event (arriving P event queue w) then
        (.error (), finalized P C event (arriving P event queue w))
      else (.ok event, autoForward P event (finalized P C event (arriving P event queue w))) := by
  have hdeliver : dequeueExternal P C w =
      match finalizeOf event (arriving P event queue w) with
      | none => (.ok event, autoForward P event (arriving P event queue w))
      | some block =>
        if (process P C block (arriving P event queue w)).1 then (.error (), (process P C block (arriving P event queue w)).2)
        else (.ok event, autoForward P event (process P C block (arriving P event queue w)).2) := by
    simp only [dequeueExternal, hw, dequeue, he, if_true]
    rfl
  rw [hdeliver, finalizeThrows, finalized]
  cases finalizeOf event (arriving P event queue w) with
  | none => rfl
  | some block => rfl

end

section

variable {d}
variable (cb : Callbacks (Impl (Logged δ) ι)) (P : Platform (Logged δ) ι) (T : Tables)

/-- The step takes an event from outside, and an error leaves the `<finalize>` that belongs to it. -/
def FinalizeFails (s : St (Impl (Logged δ) ι)) : Prop :=
  AsksExternal cb s ∧
    (match (drained T cb s).env.externalQueue with
    | [] => false
    | event :: queue => event.toBool && finalizeThrows P s.configuration event (arriving P event queue (drained T cb s).env)) =
      true

def met (s : St (Impl (Logged δ) ι)) : List Fault :=
  (step T cb s).2.env.dataModel.faults.drop s.env.dataModel.faults.length

/-- What is asked of a step: it returns, what it meets are errors that are among the events it puts into the internal queue,
and the event it takes from outside is forwarded, reported and offered to the transitions. -/
structure Contained (s : St (Impl (Logged δ) ι)) : Prop where
  returns : (step T cb s).1 ≠ .thrown ∧ (step T cb s).2.env.dataModel.escapes = s.env.dataModel.escapes
  enqueued : ∃ k ≤ 1, ∃ q, ∃ l : List Event, (step T cb s).2.env.internalQueue = s.env.internalQueue.drop k ++ q ∧
    met cb T s = l.map Fault.error ∧ l.Sublist q
  offered : AsksExternal cb s → ∀ event queue, (drained T cb s).env.externalQueue = event :: queue → event.toBool = true →
    step T cb s = selectAndStep T cb (processing event (dequeued event
      (autoForward P event (finalized P s.configuration event (arriving P event queue (drained T cb s).env)))
      (drained T cb s)))

variable {cb P T}

theorem step_of_asks {s : St (Impl (Logged δ) ι)} (ha : AsksExternal cb s) :
    step T cb s = (phaseExternal cb (drained T cb s)).finish T cb s := by
  have hphase : phase T cb s = phaseExternal cb (drained T cb s) := by
    simp only [phase, ha.finished, ha.topLevelFinal, ha.pristine, ha.spontaneous, ha.internal, Bool.false_eq_true, if_false]
    rfl
  rw [step_eq_phase, hphase]

theorem step_of_external {β : Type} {d' : Document β} {s : St (Impl (Logged δ) ι)} (ha : AsksExternal (callbacks P d') s)
    {event : Event} {queue : List Event} (hqueue : (drained T (callbacks P d') s).env.externalQueue = event :: queue)
    (he : event.toBool = true) :
    step T (callbacks P d') s =
      if finalizeThrows P s.configuration event (arriving P event queue (drained T (callbacks P d') s).env) then
        (.thrown, dequeued (drained T (callbacks P d') s).event
          (finalized P s.configuration event (arriving P event queue (drained T (callbacks P d') s).env))
          (drained T (callbacks P d') s))
      else selectAndStep T (callbacks P d') (processing event (dequeued event
        (autoForward P event (finalized P s.configuration event
          (arriving P event queue (drained T (callbacks P d') s).env))) (drained T (callbacks P d') s))) := by
  have hconf : (drained T (callbacks P d') s).configuration = s.configuration := by rw [drained_toMicro]
  have hflags : (drained T (callbacks P d') s).flags = s.flags := by rw [drained_toMicro]
  have hdequeue : (callbacks P d').dequeueExternal s.configuration (drained T (callbacks P d') s).env = _ :=
    dequeueExternal_cons P (C := s.configuration) hqueue he
  rw [step_of_asks ha, phaseExternal, hflags, ha.stable, hconf, hdequeue]
  by_cases hthrows : finalizeThrows P s.configuration event
      (arriving P event queue (drained T (callbacks P d') s).env) = true
  · simp only [if_pos hthrows]
    rfl
  · simp only [if_neg hthrows, he]
    rfl

theorem dequeueInternal_takes (d : Document (Content α)) (w : Impl (Logged δ) ι) :
    (dequeueInternal (contentPlatform B E d) w).2.internalQueue = w.internalQueue.drop 1 ∧
      (dequeueInternal (contentPlatform B E d) w).2.dataModel.kept = w.dataModel.kept := by
  refine ⟨?_, ?_⟩
  · simp only [dequeueInternal]
    cases w.internalQueue with
    | nil => rfl
    | cons event queue => rfl
  · simp only [dequeueInternal]
    split
    · rfl
    · rfl

theorem dequeueExternal_accounts (d : Document (Content α)) {C : Finset TreePath} {event : Event} {w w' : Impl (Logged δ) ι}
    (h : dequeueExternal (contentPlatform B E d) C w = (.ok event, w')) : Accounts w.toSession w'.toSession := by
  cases hqueue : w.externalQueue with
  | nil =>
    simp only [dequeueExternal, hqueue, dequeue] at h
    obtain ⟨-, rfl⟩ := Prod.mk.inj h
    exact (Accounts.refl _).congr rfl rfl
  | cons event' queue =>
    cases he : event'.toBool with
    | false =>
      simp only [dequeueExternal, hqueue, dequeue, he] at h
      obtain ⟨-, rfl⟩ := Prod.mk.inj h
      exact (Accounts.refl _).congr rfl rfl
    | true =>
      rw [dequeueExternal_cons _ hqueue he] at h
      split at h
      · cases h
      · rename_i hthrows
        obtain ⟨-, rfl⟩ := Prod.mk.inj h
        have harrived : Accounts w.toSession (arriving (contentPlatform B E d) event' queue w).toSession :=
          (Accounts.refl _).congr rfl rfl
        refine Accounts.congr (harrived.trans ?_) rfl rfl
        rw [finalizeThrows] at hthrows
        rw [finalized]
        cases hblock : finalizeOf event' (arriving (contentPlatform B E d) event' queue w) with
        | none => exact Accounts.refl _
        | some block =>
          rw [hblock] at hthrows
          exact process_accounts B E d C block _ (.inr (by simpa using hthrows))

variable {B E}

/-- What a step has put into the internal queue behind the event it may have taken from it. -/
theorem Accounts.taken {w₀ w : Session (Logged δ) ι} {w₁ : Session (Logged δ) ι} {k : Nat} (h : Accounts w₁ w) (hk : k ≤ 1)
    (hqueue : w₁.internalQueue = w₀.internalQueue.drop k) (hkept : w₁.dataModel.kept = w₀.dataModel.kept) :
    ∃ k ≤ 1, ∃ q l, w.internalQueue = w₀.internalQueue.drop k ++ q ∧ w.dataModel.faults = w₀.dataModel.faults ++ l ∧
      (l.filterMap Fault.error?).Sublist q ∧ (Fault.other ∉ l → w.dataModel.escapes = w₀.dataModel.escapes) := by
  obtain ⟨q, l, hq, hl, hsub, hescapes⟩ := h
  obtain ⟨hfaults, hcount⟩ := Prod.mk.inj hkept
  exact ⟨k, hk, q, l, hqueue ▸ hq, hfaults ▸ hl, hsub, fun hnot => (hescapes hnot).trans hcount⟩

theorem step_enqueues (hT : T.Contents) (d : Document (Content α)) {β : Type} (d' : Document β) {s : St (Impl (Logged δ) ι)}
    (h : (step T (callbacks (contentPlatform B E d) d') s).1 ≠ .thrown) :
    ∃ k ≤ 1, ∃ q l,
      (step T (callbacks (contentPlatform B E d) d') s).2.env.internalQueue = s.env.internalQueue.drop k ++ q ∧
      (step T (callbacks (contentPlatform B E d) d') s).2.env.dataModel.faults = s.env.dataModel.faults ++ l ∧
      (l.filterMap Fault.error?).Sublist q ∧
      (Fault.other ∉ l →
        (step T (callbacks (contentPlatform B E d) d') s).2.env.dataModel.escapes = s.env.dataModel.escapes) := by
  obtain ⟨htaken, hkept⟩ := dequeueInternal_takes B E d s.env
  have hstart : Accounts s.env.toSession s.env.toSession := Accounts.refl _
  have hinternal : Accounts (dequeueInternal (contentPlatform B E d) s.env).2.toSession
      (dequeueInternal (contentPlatform B E d) s.env).2.toSession := Accounts.refl _
  have hdrained : Accounts (dequeueInternal (contentPlatform B E d) s.env).2.toSession
      (drained T (callbacks (contentPlatform B E d) d') s).env.toSession :=
    manageInvocations_accounts B E d d' (s := { s with event := _, env := _ }) hinternal
  have harises := phase_arises T (callbacks (contentPlatform B E d) d') s
  rw [step_eq_phase] at h ⊢
  generalize phase T (callbacks (contentPlatform B E d) d') s = phase at harises h ⊢
  cases harises with
  | finished => exact hstart.taken (Nat.zero_le 1) rfl rfl
  | completion =>
    have hend := complete_accounts B E d hT d' hstart
    exact hend.taken (Nat.zero_le 1) rfl rfl
  | start =>
    rw [Phase.finish]
    have hend := microstep_accounts B E d hT d' (s := emit .beforeMicroStep
      { s with flags := { s.flags with spontaneous := true, initialized := true } }) (T.state []).completion ∅ ∅ hstart
    exact hend.taken (Nat.zero_le 1) rfl rfl
  | eventless =>
    rw [Phase.finish]
    have hend := selectAndStep_accounts B E d hT d' (s := { s with event := {} }) hstart
    exact hend.taken (Nat.zero_le 1) rfl rfl
  | internal =>
    rw [Phase.finish]
    have hend := selectAndStep_accounts B E d hT d'
      (s := processing (dequeueInternal (contentPlatform B E d) s.env).1
        { s with env := (dequeueInternal (contentPlatform B E d) s.env).2 }) hinternal
    exact hend.taken (Nat.le_refl 1) htaken hkept
  | stable => exact hdrained.taken (Nat.le_refl 1) htaken hkept
  | thrown => exact absurd rfl h
  | external ha event w hd =>
    have hasked := hdrained.trans (dequeueExternal_accounts B E d hd)
    exact (selectAndStep_accounts B E d hT d' (s := processing _ (dequeued _ _ _)) hasked).taken (Nat.le_refl 1) htaken hkept
  | unblocked ha event w hd =>
    have hasked := hdrained.trans (dequeueExternal_accounts B E d hd)
    rw [Phase.finish]
    split
    · exact hasked.taken (Nat.le_refl 1) htaken hkept
    · exact hasked.taken (Nat.le_refl 1) htaken hkept

theorem map_error_filterMap {l : List Fault} (h : Fault.other ∉ l) : (l.filterMap Fault.error?).map Fault.error = l := by
  induction l with
  | nil => rfl
  | cons f l ih =>
    obtain ⟨hf, hl⟩ := not_or.mp (mt List.mem_cons.mpr h)
    cases f with
    | error e =>
      rw [List.filterMap_cons, Fault.error?, List.map_cons, ih hl]
    | other => exact absurd rfl hf

theorem contained_iff (hT : T.Contents) (d : Document (Content α)) {β : Type} (d' : Document β)
    (s : St (Impl (Logged δ) ι)) :
    Contained (callbacks (contentPlatform B E d) d') (contentPlatform B E d) T s ↔
      ¬ FinalizeFails (callbacks (contentPlatform B E d) d') (contentPlatform B E d) T s ∧
        Fault.other ∉ met (callbacks (contentPlatform B E d) d') T s := by
  constructor
  · intro hs
    obtain ⟨-, -, -, l, -, hmet, -⟩ := hs.enqueued
    refine ⟨?_, by simp [hmet]⟩
    rintro ⟨ha, hfails⟩
    cases hqueue : (drained T (callbacks (contentPlatform B E d) d') s).env.externalQueue with
    | nil => simp [hqueue] at hfails
    | cons event queue =>
      simp only [hqueue, Bool.and_eq_true] at hfails
      apply hs.returns.1
      rw [step_of_external ha hqueue hfails.1, if_pos hfails.2]
  · rintro ⟨hnot, hmet⟩
    have hthrows : AsksExternal (callbacks (contentPlatform B E d) d') s → ∀ event queue,
        (drained T (callbacks (contentPlatform B E d) d') s).env.externalQueue = event :: queue → event.toBool = true →
        ¬ finalizeThrows (contentPlatform B E d) s.configuration event
          (arriving (contentPlatform B E d) event queue (drained T (callbacks (contentPlatform B E d) d') s).env) = true := by
      intro ha event queue hqueue he hthrows
      exact hnot ⟨ha, by simp only [hqueue, he, hthrows, Bool.and_self]⟩
    have hreturns : (step T (callbacks (contentPlatform B E d) d') s).1 ≠ .thrown := by
      have harises := phase_arises T (callbacks (contentPlatform B E d) d') s
      intro hthrown
      rw [step_eq_phase] at hthrown
      generalize phase T (callbacks (contentPlatform B E d) d') s = phase at harises hthrown
      cases harises with
      | thrown ha w u hd =>
        change dequeueExternal (contentPlatform B E d) s.configuration _ = (.error u, w) at hd
        cases hqueue : (drained T (callbacks (contentPlatform B E d) d') s).env.externalQueue with
        | nil => simp [dequeueExternal, hqueue, dequeue, Event.toBool] at hd
        | cons event queue =>
          cases he : event.toBool with
          | false => simp [dequeueExternal, hqueue, dequeue, he] at hd
          | true =>
            rw [dequeueExternal_cons _ hqueue he, if_neg (hthrows ha event queue hqueue he)] at hd
            cases hd
      | unblocked ha event w hd he =>
        rw [Phase.finish] at hthrown
        split at hthrown
        · cases hthrown
        · cases hthrown
      | eventless =>
        rw [Phase.finish, selectAndStep_result] at hthrown
        cases hthrown
      | internal =>
        rw [Phase.finish, selectAndStep_result] at hthrown
        cases hthrown
      | external =>
        rw [Phase.finish, selectAndStep_result] at hthrown
        cases hthrown
      | _ => cases hthrown
    obtain ⟨k, hk, q, l, hq, hfaults, hsub, hescapes⟩ := step_enqueues hT d d' hreturns
    have hl : met (callbacks (contentPlatform B E d) d') T s = l := by rw [met, hfaults, List.drop_left]
    rw [hl] at hmet
    refine ⟨⟨hreturns, hescapes hmet⟩, ⟨k, hk, q, l.filterMap Fault.error?, hq, ?_, hsub⟩, ?_⟩
    · rw [hl, map_error_filterMap hmet]
    intro ha event queue hqueue he
    rw [step_of_external ha hqueue he, if_neg (hthrows ha event queue hqueue he)]

end

/-! ### Runs -/

/-- An exception leaves the step in a condition or in a `<data>`. -/
def Escapes (T : Tables) (cb : Callbacks (Impl (Logged δ) ι)) (s : St (Impl (Logged δ) ι)) : Prop :=
  (step T cb s).2.env.dataModel.escapes ≠ s.env.dataModel.escapes

/-- The runs with the states their steps begin in. Between the steps the environment may change in any way, and behind a step
that an exception has left in the middle nothing is known. -/
inductive StepRun (T : Tables) (cb : Callbacks (Impl (Logged δ) ι)) :
    St (Impl (Logged δ) ι) → List (St (Impl (Logged δ) ι)) → Prop where
  | init (w : Impl (Logged δ) ι) : StepRun T cb { env := w } []
  | step {s : St (Impl (Logged δ) ι)} {starts : List (St (Impl (Logged δ) ι))} : StepRun T cb s starts → ¬ Escapes T cb s →
      StepRun T cb (step T cb s).2 (starts ++ [s])
  | escaped {s : St (Impl (Logged δ) ι)} {starts : List (St (Impl (Logged δ) ι))} (s' : St (Impl (Logged δ) ι)) :
      StepRun T cb s starts → Escapes T cb s → StepRun T cb s' (starts ++ [s])
  | environment {s : St (Impl (Logged δ) ι)} {starts : List (St (Impl (Logged δ) ι))} (w : Impl (Logged δ) ι) :
      StepRun T cb s starts → StepRun T cb { s with env := w } starts
  | cancel {s : St (Impl (Logged δ) ι)} {starts : List (St (Impl (Logged δ) ι))} : StepRun T cb s starts →
      StepRun T cb (markAsCancelled s) starts

/-- The callbacks with the executor behind them, for the document as the microstepper has sorted it. -/
def contentSorted : Callbacks (Impl (Logged δ) ι) := callbacks (contentPlatform B E (resortStates d)) (resortStates d)

/-- Errors stay inside of all steps of a run exactly when none leaves the `<finalize>` of an event from outside and no other
exception is thrown. -/
theorem errors_contained_iff {s : St (Impl (Logged δ) ι)} {starts : List (St (Impl (Logged δ) ι))}
    (hrun : StepRun (FastMicroStep.init d) (contentSorted B E d) s starts) :
    (∀ s ∈ starts, Contained (contentSorted B E d) (contentPlatform B E (resortStates d)) (FastMicroStep.init d) s) ↔
      ∀ s ∈ starts, ¬ FinalizeFails (contentSorted B E d) (contentPlatform B E (resortStates d)) (FastMicroStep.init d) s ∧
        Fault.other ∉ met (contentSorted B E d) (FastMicroStep.init d) s := by
  have hone := contained_iff (B := B) (E := E) (tables_contents (resortStates d)) (resortStates d) (resortStates d)
  induction hrun with
  | init w => simp
  | @step s starts _ _ ih =>
    rw [List.forall_mem_append, List.forall_mem_append, List.forall_mem_singleton, List.forall_mem_singleton]
    exact and_congr ih (hone s)
  | @escaped s starts _ _ _ ih =>
    rw [List.forall_mem_append, List.forall_mem_append, List.forall_mem_singleton, List.forall_mem_singleton]
    exact and_congr ih (hone s)
  | environment w _ ih => exact ih
  | cancel _ ih => exact ih

instance (cb : Callbacks (Impl (Logged δ) ι)) (P : Platform (Logged δ) ι) (T : Tables) (s : St (Impl (Logged δ) ι)) :
    Decidable (FinalizeFails cb P T s) := inferInstanceAs (Decidable (_ ∧ _))

theorem other_mem_iff {l : List Fault} : l.any (·.error?.isNone) = true ↔ Fault.other ∈ l := by
  rw [List.any_eq_true]
  constructor
  · rintro ⟨f, hf, hnone⟩
    cases f with
    | error e => cases hnone
    | other => exact hf
  · exact fun h => ⟨.other, h, rfl⟩

instance (l : List Fault) : Decidable (Fault.other ∈ l) := decidable_of_iff _ other_mem_iff

instance (T : Tables) (cb : Callbacks (Impl (Logged δ) ι)) (s : St (Impl (Logged δ) ι)) : Decidable (Escapes T cb s) :=
  inferInstanceAs (Decidable (_ ≠ _))

theorem StepRun.steps {T : Tables} {cb : Callbacks (Impl (Logged δ) ι)} (w : Impl (Logged δ) ι) {n : Nat}
    (h : ∀ k < n, ¬ Escapes T cb (FastMicroStep.steps T cb k { env := w })) :
    StepRun T cb (FastMicroStep.steps T cb n { env := w })
      ((List.range n).map fun k => FastMicroStep.steps T cb k { env := w }) := by
  induction n with
  | zero => exact .init w
  | succ n ih =>
    rw [List.range_succ, List.map_append, FastMicroStep.steps, Function.iterate_succ_apply']
    exact (ih fun k hk => h k (hk.trans n.lt_succ_self)).step (h n n.lt_succ_self)

def failingElements : Elements String String Unit where
  execute _ a := ⟨fun s => (if a = "!" then .error (.error { name := "error.execution" }) else .ok (), s),
    fun _ => ⟨List.prefix_refl _, rfl⟩⟩
  enterElement _ _ := ⟨fun s => (.ok (), s), fun _ => ⟨List.prefix_refl _, rfl⟩⟩
  processChildren _ _ := true
  exitElement _ _ := ⟨fun s => (.ok (), s), fun _ => ⟨List.prefix_refl _, rfl⟩⟩
  evalAsBool _ expr dm := (.ok (expr = dm), dm)
  assign _ _ _ dm := (.ok (), dm)
  init _ _ dm := (.ok (), dm)
  getLength _ _ dm := (.ok 1, dm)
  setForeach _ _ _ _ _ dm := (.ok (), dm)
  doneData _ _ := ⟨fun s => (id, s), fun _ => ⟨List.prefix_refl _, rfl⟩⟩

def finalizing (a : String) : Document (Content String) where
  tree :=
    { root := { tag := .scxml }
      kids := .cons
        { tag := .state, id := some "a", invoke := [{ id := some "i", finalize := some (.cons (.action a) .nil .nil) }]
          transitions := [{ target := some ["b"], event := some "e" }] } .nil
        (.cons { tag := .state, id := some "b" } .nil .nil) }

def finalizingRun (a : String) (n : Nat) : St (Impl (Logged String) Unit) :=
  steps (FastMicroStep.init (finalizing a)) (contentSorted lastEvent failingElements (finalizing a)) n
    { env := { dataModel := { state := "" }, externalQueue := [{ name := "e", invokeid := "i" }] } }

/-- An error in the `<finalize>` leaves the step, and the event is lost. -/
theorem finalize_error_escapes :
    StepRun (FastMicroStep.init (finalizing "!")) (contentSorted lastEvent failingElements (finalizing "!"))
      (finalizingRun "!" 4) ((List.range 4).map (finalizingRun "!")) ∧
    ¬ ∀ s ∈ (List.range 4).map (finalizingRun "!"), Contained (contentSorted lastEvent failingElements (finalizing "!"))
      (contentPlatform lastEvent failingElements (resortStates (finalizing "!"))) (FastMicroStep.init (finalizing "!")) s := by
  refine ⟨StepRun.steps _ (by decide +kernel), ?_⟩
  intro h
  have hthrown : (step (FastMicroStep.init (finalizing "!")) (contentSorted lastEvent failingElements (finalizing "!"))
      (finalizingRun "!" 3)).1 = .thrown := by decide +kernel
  exact (h (finalizingRun "!" 3) (List.mem_map.mpr ⟨3, by decide, rfl⟩)).returns.1 hthrown

theorem errors_contained_finalizing :
    (finalizingRun "x" 4).configuration = {[], [1]} ∧
      ∀ s ∈ (List.range 4).map (finalizingRun "x"), Contained (contentSorted lastEvent failingElements (finalizing "x"))
        (contentPlatform lastEvent failingElements (resortStates (finalizing "x"))) (FastMicroStep.init (finalizing "x")) s :=
  ⟨by decide +kernel, (errors_contained_iff lastEvent failingElements (finalizing "x")
    (StepRun.steps _ (by decide +kernel))).mpr (by decide +kernel)⟩

/-! ### One microstep -/

/-- Whatever goes wrong in the blocks of a microstep: each error stays in its block, and the microstep makes the same
calls and ends in the same configuration as one with other callbacks. -/
theorem content_error_isolated :
    (∀ (C : Finset TreePath) (kids : Content α) (w : Session (Logged δ) ι),
      ContentExecutor.Isolated (contentCallbacks E C)
        (ContentExecutor.process (contentCallbacks E C) (.handler kids) w)) ∧
    ∀ (ω : Type) (cb : Callbacks ω) (targetSet X : Finset TreePath) (transSet : Finset TransId)
      (m : Micro) (w : Impl (Logged δ) ι) (w' : ω),
      (microstep (FastMicroStep.init d) (contentSorted B E d) targetSet X transSet ⟨m, w, []⟩).calls =
        (microstep (FastMicroStep.init d) cb targetSet X transSet ⟨m, w', []⟩).calls ∧
      (microstep (FastMicroStep.init d) (contentSorted B E d) targetSet X transSet ⟨m, w, []⟩).configuration =
        (microstep (FastMicroStep.init d) cb targetSet X transSet ⟨m, w', []⟩).configuration := by
  refine ⟨fun C kids w => ContentExecutor.handler_isolated _ kids w, ?_⟩
  intro ω cb targetSet X transSet m w w'
  have hpair : (FastMicroStep.init d).states.Pairwise (· < ·) := (resortStates d).tree.preorder_pairwise
  constructor
  · rw [microstep_calls _ _ hpair, microstep_calls _ _ hpair]
  · simp only [microstep_toMicro]

end Interpreter

end Uscxml
