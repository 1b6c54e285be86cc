import Uscxml.Lib.Tracing
import Uscxml.Lib.Forest
import Uscxml.Messages
import Mathlib.Algebra.Group.Nat.Defs

/-!
# `BasicContentExecutor::process`

Executable content is a tree of elements. What a single element does (send an event, assign a value) is a parameter;
the executor is about how the elements are put together and about the way of an error: the element that raises it puts
it into the internal queue and throws on a copy, which is an `Event` and no `ErrorEvent` any more, so that no handler
on the way catches it again. Nor does any of them catch an exception that is no `ErrorEvent` to begin with.
-/

namespace Uscxml

/-- What an exception is thrown as. -/
inductive Thrown where
  | errorEvent (e : Event)
  | event (e : Event)
  | other

/-- The elements that stand in a block. `action` is any of `<raise>`, `<send>`, `<cancel>`, `<assign>`, `<log>` and
`<script>`. -/
inductive ContentKind (α : Type) where
  | action (a : α)
  | ifElem (cond : String)
  | elseifElem (cond : String)
  | elseElem
  | foreachElem (array item index : String)
  | custom (name : String)
  deriving DecidableEq, Repr

/-- What `process` is called with: the `<onentry>`, `<onexit>` or `<transition>` around elements, the `<finalize>` of an
`<invoke>` with that `namelist`, or an element that stands alone, such as a global `<script>`. -/
inductive ContentBlock (α : Type) where
  | handler (kids : Forest (ContentKind α))
  | finalize (namelist : List String) (kids : Forest (ContentKind α))
  | element (kind : ContentKind α) (kids : Forest (ContentKind α))
  deriving DecidableEq, Repr

/-- What happens while content is executed: the monitors are called for the element at a path, an element raises an
error or throws another exception, a condition cannot be evaluated, and an error is put into the internal queue. -/
inductive ContentNote where
  | before (p : TreePath)
  | after (p : TreePath)
  | raised (p : TreePath) (e : Event)
  | escaped (p : TreePath)
  | undecided (p : TreePath) (e : Event)
  | report (e : Event)
  | assertionFailed (p : TreePath)

/-- `ContentExecutorCallbacks`, as far as the executor does not only pass them on, and the elements themselves. -/
structure ContentCallbacks (α σ : Type) where
  execute : α → σ → Except Fault Unit × σ
  evalAsBool : String → σ → Except Fault Bool × σ
  getLength : String → σ → Except Fault Nat × σ
  setForeach : String → String → String → Nat → σ → Except Fault Unit × σ
  assign : String → Data → σ → Except Fault Unit × σ
  enterElement : String → σ → Except Fault Unit × σ
  processChildren : String → σ → Bool
  exitElement : String → σ → Except Fault Unit × σ
  getCurrentEvent : σ → Event
  enqueueInternal : Event → σ → σ

namespace ContentExecutor

variable {α σ : Type} (cb : ContentCallbacks α σ)

abbrev Run (σ γ : Type) := Traced Thrown ContentNote σ γ

/-- A callback for the element at `p` that may throw. -/
def raising {γ : Type} (p : TreePath) (g : σ → Except Fault γ × σ) : Run σ γ := fun s =>
  match g s with
  | (.ok a, s) => ⟨.ok a, [], s⟩
  | (.error (.error e), s) => ⟨.error (.errorEvent e), [.raised p e], s⟩
  | (.error .other, s) => ⟨.error .other, [.escaped p], s⟩

def isTrue (p : TreePath) (cond : String) : Run σ Bool := fun s =>
  match cb.evalAsBool cond s with
  | (.ok b, s) => ⟨.ok b, [], s⟩
  | (.error (.error e), s) => ⟨.ok false, [.undecided p e, .report e], cb.enqueueInternal e s⟩
  | (.error .other, s) => ⟨.error .other, [.escaped p], s⟩

/-- A child element: where it stands, what it is, and what `process` does with it. -/
structure Child (α σ : Type) where
  path : TreePath
  kind : ContentKind α
  run : Run σ Unit

/-- The loop of `processIf`. -/
def ifLoop : Bool → List (Child α σ) → Run σ Unit
  | _, [] => .pure ()
  | blockIsTrue, c :: rest =>
    match c.kind with
    | .elseifElem cond => if blockIsTrue then .pure () else (isTrue cb c.path cond).bind fun b => ifLoop b rest
    | .elseElem => if blockIsTrue then .pure () else ifLoop true rest
    | _ => if blockIsTrue then c.run.bind fun _ => ifLoop blockIsTrue rest else ifLoop blockIsTrue rest

def processIf (p : TreePath) (cond : String) (children : List (Child α σ)) : Run σ Unit :=
  (isTrue cb p cond).bind fun blockIsTrue => ifLoop cb blockIsTrue children

/-- The loop of `processForeach`, `n` iterations before its end. -/
def foreachLoop (p : TreePath) (array item index : String) (children : List (Child α σ)) : Nat → Nat → Run σ Unit
  | 0, _ => .pure ()
  | n + 1, iteration =>
    (raising p (cb.setForeach item array index iteration)).bind fun _ =>
      (Traced.all (children.map (·.run))).bind fun _ => foreachLoop p array item index children n (iteration + 1)

/-- `processForeach`; the number of iterations is a `uint32_t`. -/
def processForeach (p : TreePath) (array item index : String) (children : List (Child α σ)) : Run σ Unit :=
  (raising p (cb.getLength array)).bind fun n => foreachLoop cb p array item index children (n % 2 ^ 32) 0

def processCustom (p : TreePath) (name : String) (children : List (Child α σ)) : Run σ Unit :=
  (raising p (cb.enterElement name)).bind fun _ =>
    Traced.bind (fun s => if cb.processChildren name s then Traced.all (children.map (·.run)) s else ⟨.ok (), [], s⟩)
      fun _ => raising p (cb.exitElement name)

/-- The branches between the two monitor callbacks. -/
def processElement (p : TreePath) (kind : ContentKind α) (children : List (Child α σ)) : Run σ Unit :=
  match kind with
  | .action a => raising p (cb.execute a)
  | .ifElem cond => processIf cb p cond children
  | .foreachElem array item index => processForeach cb p array item index children
  | .custom name => processCustom cb p name children
  | .elseifElem _ | .elseElem => fun s => ⟨.ok (), [.assertionFailed p], s⟩

/-- The monitor callbacks and the handler around an element. -/
def guarded (p : TreePath) (x : Run σ Unit) : Run σ Unit := fun s =>
  match x s with
  | ⟨.ok _, notes, s⟩ => ⟨.ok (), .before p :: (notes ++ [.after p]), s⟩
  | ⟨.error (.errorEvent e), notes, s⟩ =>
    ⟨.error (.event e), .before p :: (notes ++ [.report e, .after p]), cb.enqueueInternal e s⟩
  | ⟨.error t, notes, s⟩ => ⟨.error t, .before p :: notes, s⟩

/-- `process` for the elements below `p`, counted from `k`. -/
def children (p : TreePath) : Nat → Forest (ContentKind α) → List (Child α σ)
  | _, .nil => []
  | k, .cons kind kids next =>
    ⟨p ++ [k], kind, guarded cb (p ++ [k]) (processElement cb (p ++ [k]) kind (children (p ++ [k]) 0 kids))⟩ ::
      children p (k + 1) next

/-- An empty `<finalize>` assigns what the event brings for the names of its invocation. -/
def assignNames : List String → Run σ Unit
  | [] => .pure ()
  | name :: names =>
    Traced.bind (fun s =>
      let event := cb.getCurrentEvent s
      match event.namelist.lookup name, event.data.at? name with
      | some data, _ => raising [] (cb.assign name data) s
      | none, some data => raising [] (cb.assign name data) s
      | none, none => ⟨.ok (), [], s⟩) fun _ => assignNames names

/-- The handler around a block throws a copy of what it catches. -/
def sliced (x : Run σ Unit) : Run σ Unit := fun s =>
  match x s with
  | ⟨.error (.errorEvent e), notes, s⟩ => ⟨.error (.event e), notes, s⟩
  | o => o

def process : ContentBlock α → Run σ Unit
  | .handler kids => sliced (Traced.all ((children cb [] 0 kids).map (·.run)))
  | .finalize _ (.cons kind kids next) => Traced.all ((children cb [] 0 (.cons kind kids next)).map (·.run))
  | .finalize namelist .nil => assignNames cb namelist
  | .element kind kids => guarded cb [] (processElement cb [] kind (children cb [] 0 kids))

/-! ### Rules for a whole block -/

/-- Specifications that all parts of the executor keep: `Q p` of the branch for the element at `p`, and `S p` of the
elements below it. -/
structure Rules (S Q : TreePath → Traced.Spec Thrown ContentNote σ Unit) : Prop where
  sequence : ∀ p, (S p).Chains
  branch : ∀ p, (Q p).Chains
  below : ∀ p {x : Run σ Unit}, x.Meets (S p) → x.Meets (Q p)
  element : ∀ p a, (raising p (cb.execute a)).Meets (Q p)
  exit : ∀ p name, (raising p (cb.exitElement name)).Meets (Q p)
  enter : ∀ p name, (raising p (cb.enterElement name)).Meets (Q p)
  iteration : ∀ p item array index n, (raising p (cb.setForeach item array index n)).Meets (Q p)
  length : ∀ p array {k : Nat → Run σ Unit}, (∀ n, (k n).Meets (Q p)) →
    ((raising p (cb.getLength array)).bind k).Meets (Q p)
  condition : ∀ P p cond {k : Bool → Run σ Unit}, (∀ b, (k b).Meets (S P)) → ((isTrue cb p cond).bind k).Meets (S P)
  assertion : ∀ p s, Q p s (.ok ()) [.assertionFailed p] s
  guard : ∀ P k {x : Run σ Unit}, x.Meets (Q (P ++ [k])) → (guarded cb (P ++ [k]) x).Meets (S P)

namespace Rules

variable {cb} {S Q : TreePath → Traced.Spec Thrown ContentNote σ Unit} (h : Rules cb S Q) {p : TreePath}
  {cs : List (Child α σ)}

include h

theorem all (hcs : ∀ c ∈ cs, c.run.Meets (S p)) : (Traced.all (cs.map (·.run))).Meets (S p) := by
  refine (h.sequence p).all ?_
  intro x hx
  obtain ⟨c, hc, rfl⟩ := List.mem_map.mp hx
  exact hcs c hc

theorem ifLoop (hcs : ∀ c ∈ cs, c.run.Meets (S p)) (blockIsTrue : Bool) : (ifLoop cb blockIsTrue cs).Meets (S p) := by
  induction cs generalizing blockIsTrue with
  | nil => exact Traced.meets_pure (h.sequence p).nothing
  | cons c rest ih =>
    have hdone : (Traced.pure () : Run σ Unit).Meets (S p) := Traced.meets_pure (h.sequence p).nothing
    have hrest := fun b => ih (fun c' hc' => hcs c' (List.mem_cons_of_mem c hc')) b
    have hchild : (if blockIsTrue then c.run.bind fun _ => ContentExecutor.ifLoop cb blockIsTrue rest
        else ContentExecutor.ifLoop cb blockIsTrue rest).Meets (S p) := by
      split
      · exact (h.sequence p).bind (hcs c List.mem_cons_self) (hrest blockIsTrue)
      · exact hrest blockIsTrue
    rw [ContentExecutor.ifLoop]
    cases hk : c.kind with
    | elseifElem cond =>
      simp only
      split
      · exact hdone
      · exact h.condition p c.path cond hrest
    | elseElem =>
      simp only
      split
      · exact hdone
      · exact hrest true
    | action a => exact hchild
    | ifElem cond => exact hchild
    | foreachElem array item index => exact hchild
    | custom name => exact hchild

theorem foreachLoop (hcs : ∀ c ∈ cs, c.run.Meets (S p)) (array item index : String) (n iteration : Nat) :
    (foreachLoop cb p array item index cs n iteration).Meets (Q p) := by
  induction n generalizing iteration with
  | zero => exact Traced.meets_pure (h.branch p).nothing
  | succ n ih =>
    refine (h.branch p).bind (h.iteration p item array index iteration) ((h.branch p).bind (h.below p (h.all hcs)) ?_)
    exact ih (iteration + 1)

theorem processElement (hcs : ∀ c ∈ cs, c.run.Meets (S p)) (kind : ContentKind α) :
    (processElement cb p kind cs).Meets (Q p) := by
  have hassert : Traced.Meets (fun s : σ => ⟨.ok (), [.assertionFailed p], s⟩) (Q p) := h.assertion p
  cases kind with
  | action a => exact h.element p a
  | ifElem cond => exact h.below p (h.condition p p cond fun b => h.ifLoop hcs b)
  | elseifElem cond => exact hassert
  | elseElem => exact hassert
  | foreachElem array item index => exact h.length p array fun n => h.foreachLoop hcs array item index _ 0
  | custom name =>
    have hkids : Traced.Meets (fun s => if cb.processChildren name s then Traced.all (cs.map (·.run)) s
        else ⟨.ok (), [], s⟩) (Q p) := by
      intro s
      beta_reduce
      split
      · exact h.below p (h.all hcs) s
      · exact (h.branch p).nothing s
    exact (h.branch p).bind (h.enter p name) ((h.branch p).bind hkids (h.exit p name))

/-- What is done with the elements below `p`: each is its branch with the handler around it. -/
theorem children_guarded (p : TreePath) (k : Nat) (f : Forest (ContentKind α)) :
    ∀ c ∈ ContentExecutor.children cb p k f, ∃ j, ∃ x : Run σ Unit, x.Meets (Q (p ++ [j])) ∧
      c.run = guarded cb (p ++ [j]) x := by
  induction f generalizing p k with
  | nil => simp [ContentExecutor.children]
  | cons kind kids next ihk ihn =>
    intro c hc
    rw [ContentExecutor.children] at hc
    rcases List.mem_cons.mp hc with rfl | hc
    · refine ⟨k, _, h.processElement ?_ kind, rfl⟩
      intro c hc
      obtain ⟨j, x, hx, hrun⟩ := ihk (p ++ [k]) 0 c hc
      exact hrun ▸ h.guard (p ++ [k]) j hx
    · exact ihn p (k + 1) c hc

theorem children (p : TreePath) (k : Nat) (f : Forest (ContentKind α)) :
    ∀ c ∈ ContentExecutor.children cb p k f, c.run.Meets (S p) := by
  intro c hc
  obtain ⟨j, x, hx, hrun⟩ := h.children_guarded p k f c hc
  exact hrun ▸ h.guard p j hx

end Rules

/-! ### Brackets -/

/-- Every `before` is closed by the `after` of the same element. -/
inductive Balanced : List ContentNote → Prop where
  | nil : Balanced []
  | other {n : ContentNote} {l : List ContentNote} (hb : ∀ p, n ≠ .before p) (ha : ∀ p, n ≠ .after p) :
      Balanced l → Balanced (n :: l)
  | wrap (p : TreePath) {l l' : List ContentNote} : Balanced l → Balanced l' → Balanced (.before p :: (l ++ .after p :: l'))

/-- The number of elements that are open in the end. -/
def net : List ContentNote → Int
  | [] => 0
  | .before _ :: l => net l + 1
  | .after _ :: l => net l - 1
  | _ :: l => net l

def Unraised (l : List ContentNote) : Prop := ∀ p e, .raised p e ∉ l

/-- No exception but an error has been thrown. -/
def Unescaped (l : List ContentNote) : Prop := ∀ p, .escaped p ∉ l

theorem net_append (l l' : List ContentNote) : net (l ++ l') = net l + net l' := by
  induction l with
  | nil => simp [net]
  | cons n l ih =>
    cases n <;> simp only [List.cons_append, net, ih] <;> omega

theorem Balanced.net_eq_zero {l : List ContentNote} (h : Balanced l) : net l = 0 := by
  induction h with
  | nil => rfl
  | @other n l hb ha _ ih =>
    cases n with
    | before p => exact absurd rfl (hb p)
    | after p => exact absurd rfl (ha p)
    | raised p e => exact ih
    | escaped p => exact ih
    | undecided p e => exact ih
    | report e => exact ih
    | assertionFailed p => exact ih
  | wrap p _ _ ih ih' =>
    simp only [net, net_append, ih, ih']
    omega

theorem Balanced.append {l l' : List ContentNote} (h : Balanced l) (h' : Balanced l') : Balanced (l ++ l') := by
  induction h with
  | nil => exact h'
  | other hb ha _ ih => exact .other hb ha ih
  | @wrap p l₁ l₂ h₁ _ _ ih =>
    have heq : .before p :: (l₁ ++ .after p :: l₂) ++ l' = .before p :: (l₁ ++ .after p :: (l₂ ++ l')) := by simp
    rw [heq]
    exact .wrap p h₁ ih

theorem Unraised.append {l l' : List ContentNote} (h : Unraised l) (h' : Unraised l') : Unraised (l ++ l') := by
  intro p e hmem
  rcases List.mem_append.mp hmem with hmem | hmem
  · exact h p e hmem
  · exact h' p e hmem

theorem unraised_nil : Unraised [] := by simp [Unraised]

theorem Unescaped.append {l l' : List ContentNote} (h : Unescaped l) (h' : Unescaped l') : Unescaped (l ++ l') := by
  intro p hmem
  rcases List.mem_append.mp hmem with hmem | hmem
  · exact h p hmem
  · exact h' p hmem

theorem unescaped_nil : Unescaped [] := by simp [Unescaped]

/-- Nothing has been thrown, and every bracket is closed. -/
def Clean (l : List ContentNote) : Prop := Balanced l ∧ Unraised l ∧ Unescaped l

theorem clean_nil : Clean [] := ⟨.nil, unraised_nil, unescaped_nil⟩

theorem Clean.append {l l' : List ContentNote} (h : Clean l) (h' : Clean l') : Clean (l ++ l') :=
  ⟨h.1.append h'.1, h.2.1.append h'.2.1, h.2.2.append h'.2.2⟩

/-! ### The way of an error -/

/-- The notes of a computation that an error has left at `q`: the element there has reported it, and nothing has
happened since. -/
def EndsAt (q : TreePath) (e : Event) (l : List ContentNote) : Prop :=
  ∃ l₁, l = l₁ ++ [.raised q e, .report e, .after q] ∧ Unraised l₁ ∧ Unescaped l₁

theorem EndsAt.append {q : TreePath} {e : Event} {l l' : List ContentNote} (h : Clean l) (h' : EndsAt q e l') :
    EndsAt q e (l ++ l') := by
  obtain ⟨l₁, rfl, hl₁, hl₁'⟩ := h'
  exact ⟨l ++ l₁, by rw [List.append_assoc], h.2.1.append hl₁, h.2.2.append hl₁'⟩

/-- The notes of a computation that another exception has left, with at least `k` elements open. -/
def Escapes (k : Int) (l : List ContentNote) : Prop := Unraised l ∧ (∃ p, .escaped p ∈ l) ∧ k ≤ net l

theorem Escapes.append {k : Int} {l l' : List ContentNote} (h : Clean l) (h' : Escapes k l') : Escapes k (l ++ l') := by
  obtain ⟨hu, ⟨p, hp⟩, hnet⟩ := h'
  refine ⟨h.2.1.append hu, ⟨p, List.mem_append_right l hp⟩, ?_⟩
  rw [net_append, h.1.net_eq_zero]
  omega

theorem Escapes.mono {k k' : Int} {l : List ContentNote} (h : Escapes k l) (hk : k' ≤ k) : Escapes k' l :=
  ⟨h.1, h.2.1, hk.trans h.2.2⟩

theorem escapes_escaped (p : TreePath) : Escapes 0 [.escaped p] :=
  ⟨by simp [Unraised], ⟨p, by simp⟩, le_refl 0⟩

/-- A sequence of elements below `P`. Another exception leaves it in one of them, or, for `k = 0`, in the condition of an
`<elseif>` between them. -/
def Sequence (k : Int) (P : TreePath) : Traced.Spec Thrown ContentNote σ Unit := fun _ r l _ =>
  match r with
  | .ok _ => Clean l
  | .error .other => Escapes k l
  | .error t => ∃ q e, t = .event e ∧ q.Below P ∧ EndsAt q e l ∧ (q.parent = P → Balanced l) ∧ (q.parent ≠ P → 0 < net l)

/-- The branch for the element at `P`, with the elements below it. -/
def Branch (P : TreePath) : Traced.Spec Thrown ContentNote σ Unit := fun _ r l _ =>
  match r with
  | .ok _ => Clean l
  | .error (.errorEvent e) => ∃ l₁, l = l₁ ++ [.raised P e] ∧ Clean l₁
  | .error (.event e) => ∃ q, q.Below P ∧ EndsAt q e l ∧ 0 ≤ net l
  | .error .other => Escapes 0 l

def Element (P : TreePath) : Traced.Spec Thrown ContentNote σ Unit := fun _ r l _ =>
  match r with
  | .ok _ => Clean l
  | .error .other => Escapes 1 l
  | .error t => ∃ q e, t = .event e ∧ P <+: q ∧ EndsAt q e l ∧ (q = P → Balanced l) ∧ (q ≠ P → 0 < net l)

theorem sequence_chains (k : Int) (P : TreePath) : (Sequence (σ := σ) k P).Chains where
  nothing _ := clean_nil
  goOn s l s' r l' s'' h h' := by
    have h : Clean l := h
    have hthrown : ∀ t : Thrown, (∃ q e, t = .event e ∧ q.Below P ∧ EndsAt q e l' ∧ (q.parent = P → Balanced l') ∧
          (q.parent ≠ P → 0 < net l')) → ∃ q e, t = .event e ∧ q.Below P ∧ EndsAt q e (l ++ l') ∧
        (q.parent = P → Balanced (l ++ l')) ∧ (q.parent ≠ P → 0 < net (l ++ l')) := by
      rintro t ⟨q, e, ht, hq, hends, hin, hout⟩
      refine ⟨q, e, ht, hq, hends.append h, fun hp => h.1.append (hin hp), ?_⟩
      intro hp
      rw [net_append, h.1.net_eq_zero]
      have := hout hp
      omega
    cases r with
    | ok _ => exact h.append h'
    | error t =>
      cases t with
      | other => exact Escapes.append h h'
      | errorEvent e => exact hthrown _ h'
      | event e => exact hthrown _ h'

theorem branch_chains (P : TreePath) : (Branch (σ := σ) P).Chains where
  nothing _ := clean_nil
  goOn s l s' r l' s'' h h' := by
    have h : Clean l := h
    cases r with
    | ok _ => exact h.append h'
    | error t =>
      cases t with
      | errorEvent e =>
        obtain ⟨l₁, rfl, hl₁⟩ := h'
        exact ⟨l ++ l₁, by rw [List.append_assoc], h.append hl₁⟩
      | event e =>
        obtain ⟨q, hq, hends, hnet⟩ := h'
        refine ⟨q, hq, hends.append h, ?_⟩
        rw [net_append, h.1.net_eq_zero]
        omega
      | other => exact Escapes.append h h'

theorem Sequence.branch {P : TreePath} {x : Run σ Unit} (h : x.Meets (Sequence 0 P)) : x.Meets (Branch P) := by
  refine h.mono ?_
  intro s r l s' h
  cases r with
  | ok _ => exact h
  | error t =>
    cases t with
    | errorEvent e =>
      obtain ⟨q, e', ht, -⟩ := h
      cases ht
    | event e =>
      obtain ⟨q, e', ht, hq, hends, hin, hout⟩ := h
      cases ht
      refine ⟨q, hq, hends, ?_⟩
      by_cases hp : q.parent = P
      · rw [(hin hp).net_eq_zero]
      · exact (hout hp).le
    | other => exact h

theorem raising_branch {P : TreePath} (g : σ → Except Fault Unit × σ) : (raising P g).Meets (Branch P) := by
  intro s
  rw [raising]
  rcases g s with ⟨(_ | _) | _, s'⟩
  · exact ⟨[], rfl, clean_nil⟩
  · exact escapes_escaped P
  · exact clean_nil

/-- A condition is decided, if not by its value, or throws another exception. -/
theorem isTrue_notes (p : TreePath) (cond : String) :
    (isTrue cb p cond).Meets fun _ r l _ => (∃ b, r = .ok b) ∧ Clean l ∨ r = .error .other ∧ l = [.escaped p] := by
  intro s
  rw [isTrue]
  rcases cb.evalAsBool cond s with ⟨(e | _) | b, s'⟩
  · refine .inl ⟨⟨false, rfl⟩, .other (by simp) (by simp) (.other (by simp) (by simp) .nil), ?_, ?_⟩
    · simp [Unraised]
    · simp [Unescaped]
  · exact .inr ⟨rfl, rfl⟩
  · exact .inl ⟨⟨b, rfl⟩, clean_nil⟩

/-- A condition goes before whatever it decides on. -/
theorem isTrue_bind {P : TreePath} (p : TreePath) (cond : String) {g : Bool → Run σ Unit}
    (h : ∀ b, (g b).Meets (Sequence 0 P)) : ((isTrue cb p cond).bind g).Meets (Sequence 0 P) := by
  refine (isTrue_notes cb p cond).bind h ?_ ?_
  · rintro s t l s' (⟨⟨b, hb⟩, -⟩ | ⟨ht, rfl⟩)
    · cases hb
    · cases ht
      exact escapes_escaped p
  · rintro s b l s' r l' s'' (⟨-, hl⟩ | ⟨hr, -⟩) h'
    · exact (sequence_chains 0 P).goOn s l s' r l' s'' hl h'
    · cases hr

theorem raising_bind {γ : Type} {P : TreePath} (g : σ → Except Fault γ × σ) {k : γ → Run σ Unit}
    (h : ∀ a, (k a).Meets (Branch P)) : ((raising P g).bind k).Meets (Branch P) := by
  have hraising : (raising P g).Meets fun _ r l _ =>
      match r with
      | .ok _ => l = []
      | .error t => (∃ e, t = .errorEvent e ∧ l = [.raised P e]) ∨ t = .other ∧ l = [.escaped P] := by
    intro s
    rw [raising]
    rcases g s with ⟨(e | _) | a, s'⟩
    · exact .inl ⟨e, rfl, rfl⟩
    · exact .inr ⟨rfl, rfl⟩
    · rfl
  refine hraising.bind h ?_ ?_
  · rintro s t l s' (⟨e, rfl, rfl⟩ | ⟨rfl, rfl⟩)
    · exact ⟨[], rfl, clean_nil⟩
    · exact escapes_escaped P
  · rintro s a l s' r l' s'' rfl h'
    exact h'

theorem guarded_element {P : TreePath} {x : Run σ Unit} (h : x.Meets (Branch P)) :
    (guarded cb P x).Meets (Element P) := by
  intro s
  have hs := h s
  have hopen : ∀ {l : List ContentNote}, Unraised l → Unraised (.before P :: l) := by
    intro l hu p e hmem
    rcases List.mem_cons.mp hmem with hmem | hmem
    · cases hmem
    · exact hu p e hmem
  have hopen' : ∀ {l : List ContentNote}, Unescaped l → Unescaped (.before P :: l) := by
    intro l hu p hmem
    rcases List.mem_cons.mp hmem with hmem | hmem
    · cases hmem
    · exact hu p hmem
  rw [guarded]
  rcases hx : x s with ⟨t | _, l, s'⟩
  · rw [hx] at hs
    cases t with
    | errorEvent e =>
      obtain ⟨l₁, hl, hb, hu, hu'⟩ := hs
      have hnotes : .before P :: (l ++ [.report e, .after P]) =
          (.before P :: l₁) ++ [.raised P e, .report e, .after P] := by simp [show l = l₁ ++ [.raised P e] from hl]
      have hinner : Balanced (l₁ ++ [.raised P e, .report e]) :=
        hb.append (.other (by simp) (by simp) (.other (by simp) (by simp) .nil))
      have hwrap := Balanced.wrap P hinner .nil
      refine ⟨P, e, rfl, List.prefix_refl P, ⟨.before P :: l₁, hnotes, hopen hu, hopen' hu'⟩, ?_, fun hne => absurd rfl hne⟩
      intro _
      show Balanced (.before P :: (l ++ [.report e, .after P]))
      rw [hnotes]
      simpa using hwrap
    | event e =>
      obtain ⟨q, hq, ⟨l₁, hl, hu, hu'⟩, hnet⟩ := hs
      refine ⟨q, e, rfl, hq.1, ⟨.before P :: l₁, by simp [show l = _ from hl], hopen hu, hopen' hu'⟩, ?_, ?_⟩
      · intro heq
        exact absurd (heq ▸ hq) (TreePath.not_below_self _)
      · intro _
        show 0 < net l + 1
        have : 0 ≤ net l := hnet
        omega
    | other =>
      obtain ⟨hu, ⟨p, hp⟩, hnet⟩ := hs
      refine ⟨hopen hu, ⟨p, List.mem_cons_of_mem _ hp⟩, ?_⟩
      show 1 ≤ net l + 1
      have : 0 ≤ net l := hnet
      omega
  · rw [hx] at hs
    obtain ⟨hb, hu, hu'⟩ : Clean l := hs
    refine ⟨.wrap P hb .nil, hopen (hu.append ?_), hopen' (hu'.append ?_)⟩
    · simp [Unraised]
    · simp [Unescaped]

theorem Element.sequence {P : TreePath} {k : Nat} {x : Run σ Unit} (h : x.Meets (Element (P ++ [k]))) :
    x.Meets (Sequence 1 P) := by
  refine h.mono ?_
  intro s r l s' h
  have hthrown : ∀ t : Thrown, (∃ q e, t = .event e ∧ P ++ [k] <+: q ∧ EndsAt q e l ∧ (q = P ++ [k] → Balanced l) ∧
      (q ≠ P ++ [k] → 0 < net l)) →
      ∃ q e, t = .event e ∧ q.Below P ∧ EndsAt q e l ∧ (q.parent = P → Balanced l) ∧ (q.parent ≠ P → 0 < net l) := by
    rintro t ⟨q, e, ht, hq, hends, hin, hout⟩
    have hbelow : TreePath.Below q P := by
      obtain ⟨r, rfl⟩ := hq
      refine ⟨⟨[k] ++ r, by rw [List.append_assoc]⟩, ?_⟩
      intro heq
      have := congrArg List.length heq
      simp at this
    have hparent : TreePath.parent q = P ↔ q = P ++ [k] := by
      constructor
      · intro hp
        obtain ⟨r, rfl⟩ := hq
        have hlen := congrArg List.length hp
        simp only [TreePath.parent, List.length_dropLast, List.length_append, List.length_singleton] at hlen
        have hr : r = [] := List.length_eq_zero_iff.mp (by omega)
        rw [hr, List.append_nil]
      · rintro rfl
        exact TreePath.parent_concat P k
    exact ⟨q, e, ht, hbelow, hends, fun hp => hin (hparent.mp hp), fun hp => hout fun h => hp (hparent.mpr h)⟩
  cases r with
  | ok _ => exact h
  | error t =>
    cases t with
    | other => exact h
    | errorEvent e => exact hthrown _ h
    | event e => exact hthrown _ h

theorem Sequence.weaken {P : TreePath} {x : Run σ Unit} (h : x.Meets (Sequence 1 P)) : x.Meets (Sequence 0 P) := by
  refine h.mono ?_
  intro s r l s' h
  cases r with
  | ok _ => exact h
  | error t =>
    cases t with
    | other => exact Escapes.mono h (by omega)
    | errorEvent e => exact h
    | event e => exact h

theorem sequence_rules : Rules cb (Sequence (σ := σ) 0) Branch where
  sequence := sequence_chains 0
  branch := branch_chains
  below _ _ h := Sequence.branch h
  element _ _ := raising_branch _
  exit _ _ := raising_branch _
  enter _ _ := raising_branch _
  iteration _ _ _ _ _ := raising_branch _
  length _ _ _ hk := raising_bind _ hk
  condition _ p cond _ hk := isTrue_bind cb p cond hk
  assertion p s := ⟨.other (by simp) (by simp) .nil, by simp [Unraised], by simp [Unescaped]⟩
  guard _ _ _ h := Sequence.weaken (Element.sequence (guarded_element cb h))

/-- How many elements stand around one at the top of a block. -/
def outermost : ContentBlock α → Nat
  | .handler _ | .finalize _ _ => 1
  | .element _ _ => 0

/-- The elements at the top of a block: what leaves them leaves an element. -/
theorem children_sequence (kids : Forest (ContentKind α)) :
    (Traced.all ((children cb [] 0 kids).map (·.run))).Meets (Sequence 1 []) := by
  refine (sequence_chains 1 []).all ?_
  intro x hx
  obtain ⟨c, hc, rfl⟩ := List.mem_map.mp hx
  obtain ⟨j, x, hx, hrun⟩ := (sequence_rules cb).children_guarded [] 0 kids c hc
  exact hrun ▸ Element.sequence (guarded_element cb hx)

theorem handler_sequence (kids : Forest (ContentKind α)) : (process cb (.handler kids)).Meets (Sequence 1 []) := by
  intro s
  have h := children_sequence cb kids s
  rw [process, sliced]
  generalize Traced.all ((children cb [] 0 kids).map (·.run)) s = o at h
  rcases o with ⟨(e | e | _) | _, l, s'⟩
  · obtain ⟨q, e', ht, -⟩ := h
    cases ht
  · exact h
  · exact h
  · exact h

theorem assignNames_notes (names : List String) :
    (assignNames cb names).Meets fun _ _ l _ => Balanced l ∧ ∀ p e, .raised p e ∈ l → p = [] := by
  induction names with
  | nil => exact Traced.meets_pure fun _ => ⟨.nil, by simp⟩
  | cons name names ih =>
    have hraising : ∀ (g : σ → Except Fault Unit × σ) s, Balanced (raising [] g s).notes ∧
        ∀ p e, .raised p e ∈ (raising [] g s).notes → p = [] := by
      intro g s
      rw [raising]
      rcases g s with ⟨(e | _) | _, s'⟩
      · exact ⟨.other (by simp) (by simp) .nil, by simp⟩
      · exact ⟨.other (by simp) (by simp) .nil, by simp⟩
      · exact ⟨.nil, by simp⟩
    refine Traced.Meets.bind (P := fun _ _ l _ => Balanced l ∧ ∀ p e, .raised p e ∈ l → p = []) ?_ (fun _ => ih)
      (fun _ _ _ _ h => h) ?_
    · intro s
      cases hname : (cb.getCurrentEvent s).namelist.lookup name with
      | some data => simpa only [hname] using hraising (cb.assign name data) s
      | none =>
        cases hdata : (cb.getCurrentEvent s).data.at? name with
        | some data => simpa only [hname, hdata] using hraising (cb.assign name data) s
        | none =>
          simp only [hname, hdata]
          exact ⟨.nil, by simp⟩
    · rintro s _ l s' r l' s'' ⟨hb, hr⟩ ⟨hb', hr'⟩
      refine ⟨hb.append hb', ?_⟩
      intro p e hmem
      rcases List.mem_append.mp hmem with hmem | hmem
      · exact hr p e hmem
      · exact hr' p e hmem

theorem EndsAt.raised_iff {q : TreePath} {e : Event} {l : List ContentNote} (h : EndsAt q e l) {p : TreePath} {e' : Event} :
    .raised p e' ∈ l ↔ p = q ∧ e' = e := by
  obtain ⟨l₁, rfl, hu, -⟩ := h
  simp [hu p e']

theorem EndsAt.unescaped {q : TreePath} {e : Event} {l : List ContentNote} (h : EndsAt q e l) : Unescaped l := by
  obtain ⟨l₁, rfl, -, hu⟩ := h
  exact hu.append (by simp [Unescaped])

/-- The notes behind an error are balanced when it was raised in none but the outermost elements. -/
theorem EndsAt.balances_iff {q : TreePath} {e : Event} {l : List ContentNote} (h : EndsAt q e l) {n : Nat}
    (hin : q.length ≤ n → Balanced l) (hout : ¬ q.length ≤ n → 0 < net l) :
    Balanced l ↔ (∀ p e, .raised p e ∈ l → p.length ≤ n) ∧ Unescaped l := by
  constructor
  · intro hb
    refine ⟨?_, h.unescaped⟩
    intro p e' hmem
    obtain ⟨rfl, -⟩ := h.raised_iff.mp hmem
    by_contra hlong
    have hpos := hout hlong
    rw [hb.net_eq_zero] at hpos
    omega
  · rintro ⟨hshort, -⟩
    exact hin (hshort q e (h.raised_iff.mpr ⟨rfl, rfl⟩))

theorem Clean.balances_iff {l : List ContentNote} (h : Clean l) (n : Nat) :
    Balanced l ↔ (∀ p e, .raised p e ∈ l → p.length ≤ n) ∧ Unescaped l :=
  iff_of_true h.1 ⟨fun p e hmem => absurd hmem (h.2.1 p e), h.2.2⟩

theorem Escapes.balances_iff {l : List ContentNote} (h : Escapes 1 l) (n : Nat) :
    Balanced l ↔ (∀ p e, .raised p e ∈ l → p.length ≤ n) ∧ Unescaped l := by
  obtain ⟨-, ⟨p, hp⟩, hnet⟩ := h
  refine iff_of_false ?_ fun h => h.2 p hp
  intro hb
  rw [hb.net_eq_zero] at hnet
  omega

/-- The callbacks to monitors are balanced exactly when no element that stands inside another one raises an error, and no
other exception is thrown, unless it is in an empty `<finalize>`. -/
theorem balanced_iff (block : ContentBlock α) (s : σ) :
    Balanced (process cb block s).notes ↔
      (∀ p e, .raised p e ∈ (process cb block s).notes → p.length ≤ outermost block) ∧
        ((∃ names, block = .finalize names .nil) ∨ Unescaped (process cb block s).notes) := by
  -- Of a sequence at the top only the elements of length one stand in no other.
  have htop : ∀ {x : Run σ Unit}, x.Meets (Sequence 1 []) →
      (Balanced (x s).notes ↔ (∀ p e, .raised p e ∈ (x s).notes → p.length ≤ 1) ∧ Unescaped (x s).notes) := by
    intro x h
    have hs := h s
    have hthrown : ∀ t : Thrown, (∃ q e, t = .event e ∧ q.Below [] ∧ EndsAt q e (x s).notes ∧
        (q.parent = [] → Balanced (x s).notes) ∧ (q.parent ≠ [] → 0 < net (x s).notes)) →
        (Balanced (x s).notes ↔ (∀ p e, .raised p e ∈ (x s).notes → p.length ≤ 1) ∧ Unescaped (x s).notes) := by
      rintro t ⟨q, e, -, -, hends, hin, hout⟩
      have hlength : q.parent = [] ↔ q.length ≤ 1 := by
        rw [TreePath.parent, ← List.length_eq_zero_iff, List.length_dropLast]
        omega
      exact hends.balances_iff (fun h => hin (hlength.mpr h)) fun h => hout fun hp => h (hlength.mp hp)
    cases hr : (x s).result with
    | ok _ =>
      rw [hr] at hs
      exact Clean.balances_iff hs 1
    | error t =>
      rw [hr] at hs
      cases t with
      | errorEvent e => exact hthrown _ hs
      | event e => exact hthrown _ hs
      | other => exact Escapes.balances_iff hs 1
  cases block with
  | handler kids =>
    refine (htop (handler_sequence cb kids)).trans (and_congr_right fun _ => ?_)
    simp
  | finalize namelist kids =>
    cases kids with
    | nil =>
      obtain ⟨hb, hr⟩ := assignNames_notes cb namelist s
      refine iff_of_true hb ⟨fun p e hmem => ?_, .inl ⟨namelist, rfl⟩⟩
      rw [hr p e hmem]
      exact Nat.zero_le _
    | cons kind kids next =>
      refine (htop (children_sequence cb (.cons kind kids next))).trans (and_congr_right fun _ => ?_)
      simp [process]
  | element kind kids =>
    have hs := guarded_element cb ((sequence_rules cb).processElement ((sequence_rules cb).children [] 0 kids) kind) s
    have hprocess : process cb (.element kind kids) s =
      guarded cb [] (processElement cb [] kind (children cb [] 0 kids)) s := rfl
    rw [hprocess]
    have hnone : ∀ l : List ContentNote, (∃ names, ContentBlock.element kind kids = .finalize names .nil) ∨ Unescaped l ↔
        Unescaped l := by simp
    rw [hnone]
    have hthrown : ∀ (t : Thrown) (l : List ContentNote), (∃ q e, t = .event e ∧ [] <+: q ∧ EndsAt q e l ∧
        (q = [] → Balanced l) ∧ (q ≠ [] → 0 < net l)) →
        (Balanced l ↔ (∀ p e, .raised p e ∈ l → p.length ≤ 0) ∧ Unescaped l) := by
      rintro t l ⟨q, e, -, -, hends, hin, hout⟩
      exact hends.balances_iff (fun h => hin (List.length_eq_zero_iff.mp (Nat.le_zero.mp h)))
        fun h => hout fun hq => h (by rw [hq]; exact Nat.zero_le _)
    cases hr : (guarded cb [] (processElement cb [] kind (children cb [] 0 kids)) s).result with
    | ok _ =>
      rw [hr] at hs
      exact Clean.balances_iff hs 0
    | error t =>
      rw [hr] at hs
      cases t with
      | errorEvent e => exact hthrown _ _ hs
      | event e => exact hthrown _ _ hs
      | other => exact Escapes.balances_iff hs 0

/-! ### What goes to the internal queue -/

def errorsOf (l : List ContentNote) : List Event :=
  l.filterMap fun
    | .raised _ e | .undecided _ e => some e
    | _ => none

/-- The errors that are put into the internal queue. -/
def reportsOf (l : List ContentNote) : List Event :=
  l.filterMap fun
    | .report e => some e
    | _ => none

theorem errorsOf_append (l l' : List ContentNote) : errorsOf (l ++ l') = errorsOf l ++ errorsOf l' := List.filterMap_append

theorem reportsOf_append (l l' : List ContentNote) : reportsOf (l ++ l') = reportsOf l ++ reportsOf l' :=
  List.filterMap_append

/-- All that is thrown, other exceptions included. -/
def faultsOf (l : List ContentNote) : List Fault :=
  l.filterMap fun
    | .raised _ e | .undecided _ e => some (.error e)
    | .escaped _ => some .other
    | _ => none

theorem filterMap_faultsOf (l : List ContentNote) : (faultsOf l).filterMap Fault.error? = errorsOf l := by
  rw [faultsOf, errorsOf, List.filterMap_filterMap]
  congr 1
  funext n
  cases n with
  | _ => rfl

/-- Every error is reported once; one that is on its way as an `ErrorEvent` is not reported yet. -/
def Reported : Traced.Spec Thrown ContentNote σ Unit := fun _ r l _ =>
  match r with
  | .error (.errorEvent e) => errorsOf l = reportsOf l ++ [e]
  | _ => errorsOf l = reportsOf l

theorem reported_chains : (Reported (σ := σ)).Chains where
  nothing _ := rfl
  goOn s l s' r l' s'' h h' := by
    have h : errorsOf l = reportsOf l := h
    have hboth : errorsOf l' = reportsOf l' → errorsOf (l ++ l') = reportsOf (l ++ l') := by
      intro h'
      rw [errorsOf_append, reportsOf_append, h, h']
    match r, h' with
    | .ok _, h' => exact hboth h'
    | .error (.event e), h' => exact hboth h'
    | .error .other, h' => exact hboth h'
    | .error (.errorEvent e), h' =>
      have h' : errorsOf l' = reportsOf l' ++ [e] := h'
      show errorsOf (l ++ l') = reportsOf (l ++ l') ++ [e]
      rw [errorsOf_append, reportsOf_append, h, h', List.append_assoc]

theorem raising_reported (p : TreePath) (g : σ → Except Fault Unit × σ) : (raising p g).Meets Reported := by
  intro s
  rw [raising]
  rcases g s with ⟨(_ | _) | _, s'⟩
  · rfl
  · rfl
  · rfl

theorem guarded_reported (p : TreePath) {x : Run σ Unit} (h : x.Meets Reported) : (guarded cb p x).Meets Reported := by
  have hskip : ∀ l, errorsOf (.before p :: l) = errorsOf l ∧ reportsOf (.before p :: l) = reportsOf l :=
    fun _ => ⟨rfl, rfl⟩
  intro s
  have hs := h s
  rw [guarded]
  generalize x s = o at hs
  rcases o with ⟨(e | e | _) | _, l, s'⟩
  · have hs : errorsOf l = reportsOf l ++ [e] := hs
    show errorsOf (.before p :: (l ++ [.report e, .after p])) = reportsOf (.before p :: (l ++ [.report e, .after p]))
    rw [(hskip _).1, (hskip _).2, errorsOf_append, reportsOf_append, hs]
    simp [errorsOf, reportsOf]
  · exact hs
  · exact hs
  · have hs : errorsOf l = reportsOf l := hs
    show errorsOf (.before p :: (l ++ [.after p])) = reportsOf (.before p :: (l ++ [.after p]))
    rw [(hskip _).1, (hskip _).2, errorsOf_append, reportsOf_append, hs]
    rfl

theorem reported_rules : Rules cb (fun _ => Reported (σ := σ)) fun _ => Reported where
  sequence _ := reported_chains
  branch _ := reported_chains
  below _ _ h := h
  element _ _ := raising_reported _ _
  exit _ _ := raising_reported _ _
  enter _ _ := raising_reported _ _
  iteration _ _ _ _ _ := raising_reported _ _
  length p array k hk := by
    intro s
    rw [Traced.bind, raising]
    rcases cb.getLength array s with ⟨(e | _) | n, s'⟩
    · rfl
    · rfl
    · exact hk n s'
  condition _ p cond k hk := by
    intro s
    rw [Traced.bind, isTrue]
    rcases cb.evalAsBool cond s with ⟨(e | _) | b, s'⟩
    · exact reported_chains.goOn s' [.undecided p e, .report e] (cb.enqueueInternal e s') _ _ _ rfl (hk false _)
    · rfl
    · exact hk b s'
  assertion _ _ := rfl
  guard P k _ h := guarded_reported cb (P ++ [k]) h

/-- What has been thrown as an `Event` has been reported. -/
theorem Reported.of_sequence {k : Int} {P : TreePath} {x : Run σ Unit} (hx : x.Meets Reported)
    (hseq : x.Meets (Sequence k P)) (s : σ) : errorsOf (x s).notes = reportsOf (x s).notes := by
  have hs := hx s
  have hs' := hseq s
  cases hr : (x s).result with
  | ok _ =>
    rw [hr] at hs
    exact hs
  | error t =>
    rw [hr] at hs hs'
    cases t with
    | errorEvent e =>
      obtain ⟨q, e', ht, -⟩ := hs'
      cases ht
    | event e => exact hs
    | other => exact hs

/-- Every error of a block is reported, but for the one that ends an empty `<finalize>`. -/
theorem process_reported (block : ContentBlock α) (s : σ) (h : ∀ names, block ≠ .finalize names .nil) :
    errorsOf (process cb block s).notes = reportsOf (process cb block s).notes := by
  have hseq := sequence_rules cb
  have hrep := reported_rules cb
  have hall := fun kids => Reported.of_sequence (hrep.all (p := []) (hrep.children [] 0 kids))
    (hseq.all (hseq.children [] 0 kids)) s
  cases block with
  | handler kids =>
    have hs := hall kids
    rw [process, sliced]
    generalize Traced.all ((children cb [] 0 kids).map (·.run)) s = o at hs
    rcases o with ⟨(e | e | _) | _, l, s'⟩
    · exact hs
    · exact hs
    · exact hs
    · exact hs
  | finalize namelist kids =>
    cases kids with
    | nil => exact absurd rfl (h namelist)
    | cons kind kids next => exact hall (.cons kind kids next)
  | element kind kids =>
    have hs := guarded_element cb (hseq.processElement (hseq.children [] 0 kids) kind) s
    have hs' := guarded_reported cb [] (hrep.processElement (p := []) (hrep.children [] 0 kids) kind) s
    show errorsOf (guarded cb [] _ s).notes = reportsOf (guarded cb [] _ s).notes
    generalize guarded cb [] (processElement cb [] kind (children cb [] 0 kids)) s = o at hs hs'
    rcases o with ⟨(e | e | _) | _, l, s'⟩
    · obtain ⟨q, e', ht, -⟩ := hs
      cases ht
    · exact hs'
    · exact hs'
    · exact hs'

/-- The names of an empty `<finalize>` are assigned without an error, or the first error is thrown. -/
theorem assignNames_errors (names : List String) :
    (assignNames cb names).Meets fun _ r l _ => r = .ok () → l = [] := by
  induction names with
  | nil => exact Traced.meets_pure fun _ _ => rfl
  | cons name names ih =>
    refine Traced.Meets.bind (P := fun _ r l _ => r = .ok () → l = []) ?_ (fun _ => ih) ?_ ?_
    · intro s
      have hraising : ∀ g : σ → Except Fault Unit × σ, (raising [] g s).result = .ok () → (raising [] g s).notes = [] := by
        intro g
        rw [raising]
        rcases g s with ⟨(e | _) | _, s'⟩
        · simp
        · simp
        · exact fun _ => rfl
      simp only
      split
      · exact hraising _
      · exact hraising _
      · exact fun _ => rfl
    · intro s t l s' _ hr
      cases hr
    · intro s _ l s' r l' s'' h h' hr
      rw [h rfl, h' hr]
      rfl

/-! ### The scope of an error -/

/-- An error that leaves an element was put into the internal queue last of all. -/
def Delivers (own : Bool) : Traced.Spec Thrown ContentNote σ Unit := fun _ r _ s' =>
  match r with
  | .ok _ | .error .other => True
  | .error (.errorEvent _) => own = true
  | .error (.event e) => ∃ s, s' = cb.enqueueInternal e s

theorem delivers_chains (own : Bool) : (Delivers cb own).Chains where
  nothing _ := trivial
  goOn _ _ _ _ _ _ _ h := h

theorem raising_delivers (p : TreePath) (g : σ → Except Fault Unit × σ) : (raising p g).Meets (Delivers cb true) := by
  intro s
  rw [raising]
  rcases g s with ⟨(e | _) | _, s'⟩
  · rfl
  · trivial
  · trivial

theorem delivers_rules : Rules cb (fun _ => Delivers cb false) fun _ => Delivers cb true where
  sequence _ := delivers_chains cb false
  branch _ := delivers_chains cb true
  below _ _ h := by
    refine h.mono ?_
    intro s r l s' h
    match r, h with
    | .ok _, _ => trivial
    | .error .other, _ => trivial
    | .error (.event _), h => exact h
  element p _ := raising_delivers cb p _
  exit p _ := raising_delivers cb p _
  enter p _ := raising_delivers cb p _
  iteration p _ _ _ _ := raising_delivers cb p _
  length p array k hk := by
    intro s
    rw [Traced.bind, raising]
    rcases cb.getLength array s with ⟨(e | _) | n, s'⟩
    · rfl
    · trivial
    · exact hk n s'
  condition _ p cond k hk := by
    intro s
    rw [Traced.bind, isTrue]
    rcases cb.evalAsBool cond s with ⟨(e | _) | b, s'⟩
    · exact hk false _
    · trivial
    · exact hk b s'
  assertion _ _ := trivial
  guard P k x h := by
    intro s
    have hs := h s
    rw [guarded]
    generalize x s = o at hs
    rcases o with ⟨(e | e | _) | _, l, s'⟩
    · exact ⟨s', rfl⟩
    · exact hs
    · trivial
    · trivial

/-- An error has no effect outside of its block: every error is put into the internal queue once, in the order they
occur, and with an error that an element raises the block ends. -/
structure Isolated (o : Outcome Thrown ContentNote σ Unit) : Prop where
  once : reportsOf o.notes = errorsOf o.notes
  ends : ∀ l p e l', o.notes = l ++ .raised p e :: l' →
    l' = [.report e, .after p] ∧ o.result = .error (.event e) ∧ ∃ s, o.state = cb.enqueueInternal e s

theorem EndsAt.splits {q : TreePath} {e : Event} {l : List ContentNote} (h : EndsAt q e l) {l₁ l₂ : List ContentNote}
    {p : TreePath} {e' : Event} (heq : l = l₁ ++ .raised p e' :: l₂) : l₂ = [.report e', .after p] ∧ e' = e := by
  obtain ⟨l₀, rfl, hu, -⟩ := h
  rcases List.append_eq_append_iff.mp heq with ⟨m, rfl, hm⟩ | ⟨m, rfl, hm⟩
  · cases m with
    | nil =>
      obtain ⟨hraised, rfl⟩ := List.cons.inj hm
      cases hraised
      exact ⟨rfl, rfl⟩
    | cons n m =>
      -- Of the notes behind the error none is an error.
      obtain ⟨-, hm⟩ := List.cons.inj hm
      have hmem : .raised p e' ∈ [ContentNote.report e, .after q] := by
        rw [hm]
        simp
      simp at hmem
  · cases m with
    | nil =>
      obtain ⟨hraised, rfl⟩ := List.cons.inj hm
      cases hraised
      exact ⟨rfl, rfl⟩
    | cons n m =>
      obtain ⟨rfl, -⟩ := List.cons.inj hm
      exact absurd (by simp) (hu p e')

theorem handler_isolated (kids : Forest (ContentKind α)) (s : σ) : Isolated cb (process cb (.handler kids) s) := by
  refine ⟨(process_reported cb (.handler kids) s (by simp)).symm, ?_⟩
  intro l p e l' hnotes
  have hseq := handler_sequence cb kids s
  have hdelivers : (process cb (.handler kids)).Meets (Delivers cb true) := by
    intro s
    have hs := (delivers_rules cb).all (p := []) ((delivers_rules cb).children [] 0 kids) s
    rw [process, sliced]
    generalize Traced.all ((children cb [] 0 kids).map (·.run)) s = o at hs
    rcases o with ⟨(e | e | _) | _, l, s'⟩
    · cases hs
    · exact hs
    · trivial
    · trivial
  have hs := hdelivers s
  cases hr : (process cb (.handler kids) s).result with
  | ok _ =>
    rw [hr] at hseq
    exact absurd (by rw [hnotes]; simp) (hseq.2.1 p e)
  | error t =>
    rw [hr] at hseq hs
    cases t with
    | errorEvent e' =>
      obtain ⟨q, e', ht, -⟩ := hseq
      cases ht
    | event e' =>
      obtain ⟨q, e', ht, -, hends, -⟩ := hseq
      cases ht
      obtain ⟨hl', rfl⟩ := hends.splits hnotes
      exact ⟨hl', rfl, hs⟩
    | other => exact absurd (by rw [hnotes]; simp) (hseq.1 p e)

/-- Callbacks over a counter: the actions named `!` fail, all others count. -/
def counting : ContentCallbacks String Nat where
  execute a n := if a = "!" then (.error (.error { name := "error.execution" }), n) else (.ok (), n + 1)
  evalAsBool cond n := if cond = "!" then (.error (.error { name := "error.execution" }), n) else (.ok true, n)
  getLength _ n := (.ok 2, n)
  setForeach _ _ _ _ n := (.ok (), n)
  assign _ _ n := (.ok (), n)
  enterElement _ n := (.ok (), n)
  processChildren _ _ := true
  exitElement _ n := (.ok (), n)
  getCurrentEvent _ := {}
  enqueueInternal _ n := n

/-- An `<if>` around an element that fails is left without its second callback. -/
theorem nested_error_unbalanced :
    ¬ Balanced (process counting (.handler (.cons (.ifElem "x") (.cons (.action "!") .nil .nil) .nil)) 0).notes := by
  intro h
  exact absurd h.net_eq_zero (by decide)

/-- A condition that cannot be evaluated is reported, and the rest of its block is executed. -/
theorem undecided_goes_on :
    ∃ l l' e, (process counting (.handler (.cons (.ifElem "!") .nil (.cons (.action "x") .nil .nil))) 0).notes =
        l ++ .undecided [0] e :: .report e :: l' ∧ .before [1] ∈ l' :=
  ⟨[.before [0]], [.after [0], .before [1], .after [1]], { name := "error.execution" }, rfl, by simp⟩

end ContentExecutor

end Uscxml
