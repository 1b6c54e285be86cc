import Uscxml.Predicates

/-!
# The tables of `FastMicroStep::init`

For every state and every transition the microstepper keeps sets of states and of transitions, as bit sets
over the positions in `_states` and `_transitions`. Here a position is the path of the state, the order of
the positions is that of the list, and a bit set is a finite set of paths.
-/

namespace Uscxml

/-- `USCXML_STATE_ATOMIC` and the other values of `State::type` below the history bit. -/
inductive StateType where
  | atomic | parallel | compound | final | historyDeep | historyShallow | initial
  deriving DecidableEq, Repr

/-- Histories and `<initial>`s are no proper states. -/
def StateType.pseudo : StateType → Bool
  | .historyDeep | .historyShallow | .initial => true
  | _ => false

/-- `FastMicroStep::State`; `hasHistory` is the bit `USCXML_STATE_HAS_HISTORY` of its type. -/
structure StateInfo where
  completion : Finset TreePath
  children : Finset TreePath
  ancestors : Finset TreePath
  parent : TreePath
  data : List Ref
  invoke : List Ref
  onEntry : List Ref
  onExit : List Ref
  doneData : Option Ref
  type : StateType
  hasHistory : Bool

/-- `FastMicroStep::Transition`. Of the type bits a step only reads whether the transition belongs to a
history or to an `<initial>`. -/
structure TransitionInfo where
  conflicts : Finset TransId
  exitSet : Finset TreePath
  source : TreePath
  target : Finset TreePath
  onTrans : Option Ref
  event : String
  cond : String
  history : Bool
  initial : Bool

/-- `_states` and `_transitions`. -/
structure Tables where
  states : List TreePath
  state : TreePath → StateInfo
  transitions : List TransId
  trans : TransId → TransitionInfo

namespace FastMicroStep

variable {β : Type} (d : Document β)

/-- Walk over the states and take the front of the list whenever it is the state at hand: how `init` turns
a list of elements into a bit set. A state the list names out of order is lost. -/
def matchInOrder : List TreePath → List (Option TreePath) → List TreePath
  | [], _ => []
  | _ :: _, [] => []
  | s :: states, c :: completion =>
    if c = some s then s :: matchInOrder states completion else matchInOrder states (c :: completion)

/-- `_stateIds`: of several states with one id the last one is kept. -/
def stateIds (stateId : String) : Option TreePath := (d.states.filter fun p => d.id? p = some stateId).getLast?

/-- `getHistoryCompletion`. -/
def getHistoryCompletion (history : TreePath) : List TreePath :=
  d.states.filter fun s =>
    s ≠ history && !d.isHistory s &&
      (if (d.elem? history).any (·.deep) then isDescendant s history.parent
        else s ≠ [] && s.parent = history.parent)

/-- The state `getHistoryCompletion` leaves as `hasHistoryChild` in the user data of the history: the last
other history below its parent. -/
def hasHistoryChild (history : TreePath) : Option TreePath :=
  (d.states.filter fun s => s ≠ history && isDescendant s history.parent && d.isHistory s).getLast?

/-- The end of `getCompletion`: the `initial` attribute, else the `<initial>` child, else the first child. -/
def initialCompletion (state : TreePath) : List (Option TreePath) :=
  match (d.elem? state).bind (·.initial) with
  | some ids => d.getStates ids
  | none =>
    match (d.children state).filter fun c => d.tag? c = some .initial with
    | init :: _ => [some init]
    | [] => (d.getChildStates state true).head?.toList.map some

/-- `getCompletion`. -/
def getCompletion (state : TreePath) : List (Option TreePath) :=
  if d.isHistory state then (getHistoryCompletion d state).map some
  else if d.isParallel state then (d.getChildStates state true).map some
  else initialCompletion d state

def stateType (p : TreePath) : StateType :=
  if d.tag? p = some .initial then .initial
  else if d.isFinal p then .final
  else if d.isHistory p then if (d.elem? p).any (·.deep) then .historyDeep else .historyShallow
  else if d.isAtomic p then .atomic
  else if d.isParallel p then .parallel
  else .compound

/-- Pointers to the `n` children of one kind. -/
def refs (mk : Nat → Ref) (n : Nat) : List Ref := (List.range n).map mk

/-- Pointers to the `<data>` of one state. -/
def dataRefs (p : TreePath) : List Ref := refs (.data p) ((d.elem? p).elim 0 (·.data.length))

/-- The entry of `_states` for one element. With early binding all data belongs to the root, and the global
scripts take the place of the root's `<onentry>`. -/
def stateInfo (p : TreePath) : StateInfo where
  completion := (matchInOrder d.states (getCompletion d p)).toFinset
  children := (d.states.filter fun s => isDescendant s p).toFinset
  ancestors := (Document.parentNodes p).toFinset
  parent := p.parent
  data :=
    match d.binding with
    | .early => if p = [] then d.states.flatMap (dataRefs d) else []
    | .late => dataRefs d p
  invoke := refs (.invoke p) ((d.elem? p).elim 0 (·.invoke.length))
  onEntry :=
    if p = [] then refs .script ((d.elem? p).elim 0 (·.script.length))
    else refs (.onEntry p) ((d.elem? p).elim 0 (·.onEntry.length))
  onExit := refs (.onExit p) ((d.elem? p).elim 0 (·.onExit.length))
  doneData := if (d.elem? p).any (·.doneData.isSome) then some (.doneData p) else none
  type := stateType d p
  hasHistory := hasHistoryChild d p = some p

/-- The transitions with those of every state behind those of its descendants: `_transitions`. -/
def postFixTransitions : List TransId := d.tree.postorder.flatMap d.transIds

def transitionInfo (t : TransId) : TransitionInfo where
  conflicts := ((postFixTransitions d).filter fun t' => d.conflicts t t').toFinset
  exitSet := (matchInOrder d.states ((d.getExitSet t).map some)).toFinset
  source := t.1
  target := ((((d.trans? t).bind (·.target)).getD []).filterMap (stateIds d)).toFinset
  onTrans := if (d.trans? t).any (·.content.isSome) then some (.transition t.1 t.2) else none
  event := ((d.trans? t).bind (·.event)).getD ""
  cond := ((d.trans? t).bind (·.cond)).getD ""
  history := d.tag? t.1 = some .history
  initial := d.tag? t.1 = some .initial

/-- The tables of a document whose pseudo-states stand first. -/
def tables : Tables where
  states := d.states
  state := stateInfo d
  transitions := postFixTransitions d
  trans := transitionInfo d

def init : Tables := tables (resortStates d)

/-! ### What the tables hold -/

variable {d}

theorem matchInOrder_of_sublist {states l : List TreePath} (h : l.Sublist states) :
    matchInOrder states (l.map some) = l := by
  induction states generalizing l with
  | nil => rw [List.sublist_nil.mp h, matchInOrder]
  | cons s states ih =>
    cases l with
    | nil => simp [matchInOrder]
    | cons c l =>
      simp only [List.map_cons, matchInOrder, Option.some.injEq]
      split
      · rename_i hcs
        subst hcs
        rw [ih (List.cons_sublist_cons.mp h)]
      · rename_i hcs
        rcases List.sublist_cons_iff.mp h with h | ⟨r, hr, -⟩
        · exact ih h
        · exact absurd (List.cons.inj hr).1 hcs

@[simp] theorem mem_stateInfo_children {p s : TreePath} :
    s ∈ (stateInfo d p).children ↔ s ∈ d.states ∧ s.Below p := by
  simp [stateInfo]

@[simp] theorem mem_stateInfo_ancestors {p a : TreePath} : a ∈ (stateInfo d p).ancestors ↔ p.Below a := by
  simp [stateInfo]

theorem card_ancestors (p : TreePath) : (stateInfo d p).ancestors.card = p.length := by
  have hnodup : (Document.parentNodes p).Nodup :=
    (List.pairwise_cons.mp (Document.parentNodes_pairwise p)).2.imp fun h => h.ne
  rw [stateInfo, List.toFinset_card_of_nodup hnodup, Document.parentNodes, List.length_map, List.length_reverse,
    List.length_range]

/-! ### Types of states -/

theorem stateType_of_initial {p : TreePath} (h : d.tag? p = some .initial) : stateType d p = .initial := by
  simp [stateType, h]

/-- What the type of a state says about its element. -/
theorem kind_of_stateType {p : TreePath} (hp : p ∈ d.states) :
    (stateType d p = .compound → d.isCompound p = true) ∧ (stateType d p = .parallel → d.isParallel p = true) ∧
      (stateType d p = .historyShallow ∨ stateType d p = .historyDeep → d.isHistory p = true) ∧
      (stateType d p = .initial → d.tag? p = some .initial) := by
  unfold stateType
  split
  · rename_i hinitial
    simp [hinitial]
  split
  · simp
  split
  · rename_i hhistory
    split <;> simp [hhistory]
  split
  · simp
  split
  · rename_i hpar
    simp [hpar]
  · rename_i hinitial _ hhistory hatomic hpar
    refine ⟨fun _ => ?_, by simp, by simp, by simp⟩
    have hstate : d.isState p true = true := by
      rw [Document.mem_states] at hp
      obtain ⟨e, he⟩ := Option.isSome_iff_exists.mp hp
      have htag : d.tag? p = some e.tag := by rw [Document.tag?, he, Option.map_some]
      cases he' : e.tag <;> simp_all [Document.isState, Document.isHistory]
    simp only [Document.isAtomic, hstate, hpar, Bool.true_and, Bool.not_false, Bool.or_eq_true, not_or] at hatomic
    simp only [Document.isCompound, hstate, hpar, Bool.not_false, Bool.and_self, Bool.true_and]
    simpa using hatomic.2

section Types

variable (hf : ∀ p ∈ d.states, (d.elem? p).any (·.finalAttr) = false)

include hf

theorem isFinal_iff {p : TreePath} : d.isFinal p = true ↔ d.tag? p = some .final := by
  rw [Document.isFinal, Document.tag?]
  cases he : d.elem? p with
  | none => simp
  | some e =>
    have := hf p (Document.mem_states.mpr (by simp [he]))
    simp only [he, Option.any_some] at this
    simp [this]

theorem stateType_of_final {p : TreePath} (h : d.tag? p = some .final) : stateType d p = .final := by
  rw [stateType, if_neg (by simp [h]), if_pos ((isFinal_iff hf).mpr h)]

theorem stateType_of_parallel {p : TreePath} (h : d.tag? p = some .parallel) : stateType d p = .parallel := by
  have hp : d.isParallel p = true := by simpa [Document.isParallel] using h
  rw [stateType, if_neg (by simp [h]), if_neg (by simp [isFinal_iff hf, h]), if_neg (by simp [Document.isHistory, h]),
    if_neg (by simp [Document.isAtomic, hp, h]), if_pos hp]

/-- The root and a `<state>` are compound when they have proper children and atomic otherwise. -/
theorem stateType_of_state {p : TreePath} (h : d.tag? p = some .scxml ∨ d.tag? p = some .state) :
    stateType d p = if d.isCompound p then .compound else .atomic := by
  have hnp : d.isParallel p = false := by
    rcases h with h | h <;> simp [Document.isParallel, h]
  have hstate : d.isState p true = true := by
    rw [Document.isState_true_iff, Document.properState_iff]
    rcases h with h | h
    · exact Or.inl h
    · exact Or.inr (Or.inr (Or.inl h))
  have hatomic : d.isAtomic p = !d.isCompound p := by
    rw [Document.isAtomic, Document.isCompound, hstate, hnp]
    rcases h with h | h <;> simp [h]
  rw [stateType, if_neg (by rcases h with h | h <;> simp [h]),
    if_neg (by rw [isFinal_iff hf]; rcases h with h | h <;> simp [h]),
    if_neg (by rcases h with h | h <;> simp [Document.isHistory, h]), hatomic, hnp]
  cases d.isCompound p <;> simp

theorem stateType_final_iff {p : TreePath} : stateType d p = .final ↔ d.tag? p = some .final := by
  refine ⟨fun ht => ?_, stateType_of_final hf⟩
  by_contra hnot
  have hfinal : d.isFinal p = false := by rwa [← Bool.not_eq_true, isFinal_iff hf]
  simp only [stateType, hfinal] at ht
  split at ht
  · cases ht
  simp only [Bool.false_eq_true, if_false] at ht
  split at ht
  · split at ht <;> cases ht
  split at ht
  · cases ht
  split at ht
  · cases ht
  · cases ht

theorem stateType_parallel_iff {p : TreePath} : stateType d p = .parallel ↔ d.tag? p = some .parallel := by
  refine ⟨fun ht => ?_, stateType_of_parallel hf⟩
  by_contra hnot
  have : d.isParallel p = false := by simpa [Document.isParallel] using hnot
  simp only [stateType, this] at ht
  split at ht
  · cases ht
  split at ht
  · cases ht
  split at ht
  · split at ht <;> cases ht
  split at ht
  · cases ht
  · cases ht

end Types

theorem getExitSet_sublist (t : TransId) : (d.getExitSet t).Sublist d.states := by
  rw [Document.getExitSet]
  split
  · split
    · exact List.nil_sublist _
    · simp only
      split
      · exact (List.tail_sublist _).trans List.filter_sublist
      · exact List.filter_sublist
  · exact List.nil_sublist _

theorem mem_exitSet {t : TransId} {s : TreePath} : s ∈ (transitionInfo d t).exitSet ↔ s ∈ d.getExitSet t := by
  simp [transitionInfo, matchInOrder_of_sublist (getExitSet_sublist t)]

/-- With unique ids both ways to look up a state agree. -/
theorem stateIds_eq_getState (hu : d.UniqueIds) (i : String) : stateIds d i = d.getState i := by
  cases h : d.getState i with
  | none =>
    rw [stateIds, List.getLast?_eq_none_iff, List.filter_eq_nil_iff]
    intro p _ hid
    have := Document.getState_isSome (of_decide_eq_true hid)
    simp [h] at this
  | some p =>
    have hid := Document.getState_id h
    have hp : p ∈ d.states.filter fun q => d.id? q = some i := by
      simpa [hid] using Document.mem_states_of_id hid
    have hq := List.getLast?_eq_some_getLast (List.ne_nil_of_mem hp)
    generalize List.getLast _ _ = q at hq
    have hmem := List.mem_of_getLast? hq
    rw [List.mem_filter, decide_eq_true_iff] at hmem
    rw [stateIds, hq, hu q hmem.1 p (Document.mem_states_of_id hid) (by simp [hmem.2]) (hmem.2.trans hid.symm)]

theorem mem_target (hu : d.UniqueIds) {t : TransId} {s : TreePath} :
    s ∈ (transitionInfo d t).target ↔ s ∈ d.getTargetStates t := by
  have hfun : stateIds d = d.getState := funext (stateIds_eq_getState hu)
  simp [transitionInfo, Document.getTargetStates, hfun]

theorem mem_postFixTransitions {t : TransId} :
    t ∈ postFixTransitions d ↔ t.2 < (d.transitionsAt t.1).length := by
  rw [postFixTransitions, List.mem_flatMap]
  constructor
  · rintro ⟨p, -, ht⟩
    rw [Document.transIds, List.mem_map] at ht
    obtain ⟨k, hk, rfl⟩ := ht
    exact List.mem_range.mp hk
  · intro ht
    refine ⟨t.1, ?_, ?_⟩
    · rw [RoseTree.mem_postorder]
      refine Document.mem_states.mpr ?_
      cases he : d.elem? t.1 with
      | none => simp [Document.transitionsAt, he] at ht
      | some e => rfl
    · exact List.mem_map.mpr ⟨t.2, List.mem_range.mpr ht, rfl⟩

theorem postorder_nodup : d.tree.postorder.Nodup := by
  refine d.tree.postorder_pairwise.imp ?_
  rintro p _ h rfl
  rcases h with h | h
  · exact TreePath.not_below_self p h
  · exact h.1 (List.prefix_refl p)

def Before (t u : TransId) : Prop := TreePath.PostLt t.1 u.1 ∨ (t.1 = u.1 ∧ t.2 < u.2)

theorem Before.asymm {t u : TransId} (h : Before t u) : ¬ Before u t := by
  have hirrefl : ∀ p : TreePath, ¬ TreePath.PostLt p p := by
    rintro p (h | h)
    · exact TreePath.not_below_self p h
    · exact h.1 (List.prefix_refl p)
  rintro (h' | ⟨he, h'⟩)
  · rcases h with h | ⟨he, -⟩
    · rcases h with h | h <;> rcases h' with h' | h'
      · exact h.asymm h'
      · exact absurd h.1 h'.2.1
      · exact absurd h'.1 h.2.1
      · exact lt_asymm h.2.2 h'.2.2
    · exact hirrefl t.1 (he ▸ h')
  · rcases h with h | ⟨-, h⟩
    · exact hirrefl t.1 (he ▸ h)
    · omega

theorem postFixTransitions_pairwise : (postFixTransitions d).Pairwise Before := by
  rw [postFixTransitions, List.pairwise_flatMap]
  constructor
  · intro p _
    rw [Document.transIds, List.pairwise_map]
    exact List.pairwise_lt_range.imp fun h => Or.inr ⟨rfl, h⟩
  · refine d.tree.postorder_pairwise.imp ?_
    intro p q hpq t ht u hu
    rw [Document.transIds, List.mem_map] at ht hu
    obtain ⟨j, -, rfl⟩ := ht
    obtain ⟨k, -, rfl⟩ := hu
    exact Or.inl hpq

/-- The transitions of one element stand together, in the order of the document. -/
theorem filter_postFixTransitions (i : TreePath) :
    ((postFixTransitions d).filter fun t => t.1 = i) = d.transIds i := by
  have hat : ∀ p, (d.transIds p).filter (fun t => t.1 = i) = if p = i then d.transIds i else [] := by
    intro p
    split
    · rename_i hp
      subst hp
      simp [Document.transIds]
    · rename_i hp
      simp [Document.transIds, hp]
  rw [postFixTransitions, List.filter_flatMap]
  simp only [hat]
  by_cases hmem : i ∈ d.tree.postorder
  · have hnodup := postorder_nodup (d := d)
    generalize d.tree.postorder = l at hnodup hmem
    induction l with
    | nil => simp at hmem
    | cons p l ih =>
      rw [List.nodup_cons] at hnodup
      rw [List.flatMap_cons]
      rcases List.mem_cons.mp hmem with rfl | hmem
      · have hrest : ∀ q ∈ l, (if q = i then d.transIds i else []) = ([] : List TransId) :=
          fun q hq => if_neg fun h : q = i => hnodup.1 (h ▸ hq)
        rw [if_pos rfl, List.flatMap_eq_nil_iff.mpr hrest, List.append_nil]
      · rw [if_neg fun h : p = i => hnodup.1 (h ▸ hmem), List.nil_append, ih hnodup.2 hmem]
  · have hnone : d.elem? i = none := by
      rw [RoseTree.mem_postorder, RoseTree.mem_preorder] at hmem
      exact Option.not_isSome_iff_eq_none.mp hmem
    have hempty : d.transIds i = [] := by simp [Document.transIds, Document.transitionsAt, hnone]
    rw [hempty]
    simp

theorem find_transitionsAt {i : TreePath} (h : d.transitionsAt i ≠ []) :
    ((tables d).transitions.find? fun t => ((tables d).trans t).source = i) = some (i, 0) := by
  have hlen := List.length_pos_of_ne_nil h
  have hhead : (d.transIds i).head? = some (i, 0) := by
    rw [Document.transIds]
    cases hn : (d.transitionsAt i).length with
    | zero => omega
    | succ n => simp [List.range_succ_eq_map]
  rw [← hhead, ← filter_postFixTransitions, List.head?_filter]
  rfl

end FastMicroStep

end Uscxml
