import Uscxml.Chart
import Mathlib.Algebra.BigOperators.Group.Finset.Basic
import Mathlib.Algebra.GroupWithZero.Nat

/-!
# The predicates of `util/Predicates.cpp`

The tests and searches the interpreter and the generators share: kinds of states, look up by id, the domain
of a transition, the states it exits and when two transitions conflict.
-/

namespace Uscxml

def isDescendant (s₁ s₂ : TreePath) : Bool := s₁.Below s₂

variable {β : Type} (d : Document β)

namespace Document

/-- `isState`: pseudo-states count only when `properOnly` is not asked for. -/
def isState (p : TreePath) (properOnly : Bool) : Bool :=
  match d.tag? p with
  | none => false
  | some .history | some .initial => !properOnly
  | some _ => true

def isFinal (p : TreePath) : Bool := (d.elem? p).any fun e => e.tag = .final || e.finalAttr

def isHistory (p : TreePath) : Bool := d.tag? p = some .history

def isParallel (p : TreePath) : Bool := d.tag? p = some .parallel

/-- The child states from the first to the last. -/
def getChildStates (p : TreePath) (properOnly : Bool) : List TreePath := (d.children p).filter (d.isState · properOnly)

def isAtomic (p : TreePath) : Bool :=
  d.isState p true && (d.tag? p = some .final || (!d.isParallel p && (d.getChildStates p true).isEmpty))

def isCompound (p : TreePath) : Bool := d.isState p true && !d.isParallel p && !(d.getChildStates p true).isEmpty

/-- The loop of `getState`: take the first of the pending elements, compare its id, append its children. -/
def getStateLoop (stateId : String) : Nat → List TreePath → Option TreePath
  | 0, _ => none
  | _, [] => none
  | n + 1, curr :: stateStack =>
    if d.id? curr = some stateId then some curr
    else getStateLoop stateId n (stateStack ++ d.getChildStates curr false)

/-- `getState`, from the root. Every element is pending at most once, so their number bounds the loop. -/
def getState (stateId : String) : Option TreePath := d.getStateLoop stateId d.states.length [[]]

/-- `getStates`: an id without a state leaves a null pointer. -/
def getStates (stateIds : List String) : List (Option TreePath) := stateIds.map d.getState

def getTargetStates (t : TransId) : List TreePath :=
  (((d.trans? t).bind (·.target)).getD []).filterMap d.getState

/-- The state a transition leaves: that of an `<initial>` transition is the parent of the `<initial>`. -/
def getSourceState (t : TransId) : TreePath := if d.tag? t.1 = some .initial then t.1.parent else t.1

/-- The paths above `p`, the parent first and the root last. -/
def parentNodes (p : TreePath) : List TreePath := (List.range p.length).reverse.map p.take

/-- `getProperAncestors` without an upper bound: the ancestors up to the first element that cannot hold
states. -/
def getProperAncestors (s : TreePath) : List TreePath :=
  if d.isState s false then
    (parentNodes s).takeWhile fun a => d.tag? a = some .parallel || d.tag? a = some .state || d.tag? a = some .scxml
  else []

/-- `findLCCA`: the innermost compound ancestor of the first state above all of them, and else the outermost
ancestor. -/
def findLCCA : List TreePath → Option TreePath
  | [] => none
  | front :: states =>
    let ancestors := d.getProperAncestors front
    match ancestors.find? fun a => d.isCompound a && (front :: states).all (isDescendant · a) with
    | some a => some a
    | none => ancestors.getLast?

def getTransitionDomain (t : TransId) : Option TreePath :=
  let tStates := d.getTargetStates t
  let source := d.getSourceState t
  if tStates.isEmpty then none
  else if ((d.trans? t).any (·.internal)) && d.isCompound source && tStates.all (isDescendant · source) then
    some source
  else d.findLCCA (source :: tStates)

/-- The tags whose elements a transition can exit. -/
def exitable (p : TreePath) : Bool :=
  d.tag? p = some .parallel || d.tag? p = some .state || d.tag? p = some .final

/-- `getExitSet`: the states in the subtree of the domain, in document order, without the domain itself. -/
def getExitSet (t : TransId) : List TreePath :=
  if ((d.trans? t).bind (·.target)).isSome then
    match d.getTransitionDomain t with
    | none => []
    | some domain =>
      let statesToExit := d.states.filter fun s => domain <+: s && d.exitable s
      if statesToExit.head? = some domain then statesToExit.tail else statesToExit
  else []

/-- `conflicts`, and `FastMicroStep::conflictsCached`. -/
def conflicts (t₁ t₂ : TransId) : Bool :=
  d.getSourceState t₁ = d.getSourceState t₂ ||
    isDescendant (d.getSourceState t₁) (d.getSourceState t₂) ||
    isDescendant (d.getSourceState t₂) (d.getSourceState t₁) ||
    (d.getExitSet t₁).any fun s => (d.getExitSet t₂).contains s

/-- The tags of proper states below the root. -/
def ProperState (p : TreePath) : Prop := d.exitable p = true

instance (p : TreePath) : Decidable (d.ProperState p) := inferInstanceAs (Decidable (_ = _))

/-! ### Kinds of states -/

variable {d}

theorem properState_iff {p : TreePath} :
    d.ProperState p ↔ d.tag? p = some .parallel ∨ d.tag? p = some .state ∨ d.tag? p = some .final := by
  simp [ProperState, exitable, or_assoc]

theorem ProperState.mem_states {p : TreePath} (h : d.ProperState p) : p ∈ d.states := by
  rcases properState_iff.mp h with h | h | h <;> exact mem_states_of_tag h

theorem isState_false_iff {p : TreePath} : d.isState p false = true ↔ p ∈ d.states := by
  rw [Document.mem_states, isState, tag?]
  cases h : d.elem? p with
  | none => simp
  | some e => cases ht : e.tag <;> simp [ht]

theorem isState_true_iff {p : TreePath} : d.isState p true = true ↔ d.tag? p = some .scxml ∨ d.ProperState p := by
  rw [properState_iff, isState]
  cases h : d.tag? p with
  | none => simp
  | some t => cases t <;> simp

theorem isHistory_iff {p : TreePath} : d.isHistory p = true ↔ d.tag? p = some .history := by simp [isHistory]

theorem mem_states_of_isHistory {p : TreePath} (h : d.isHistory p = true) : p ∈ d.states :=
  mem_states_of_tag (isHistory_iff.mp h)

theorem isFinal_of_isHistory {p : TreePath} (h : d.isHistory p = true) : d.isFinal p = (d.elem? p).any (·.finalAttr) := by
  rw [isHistory_iff, tag?] at h
  rw [isFinal]
  cases he : d.elem? p with
  | none => rfl
  | some e =>
    rw [he] at h
    have htag : e.tag = .history := by simpa using h
    simp [htag]

theorem mem_getChildStates_false {p q : TreePath} : q ∈ d.getChildStates p false ↔ q ∈ d.children p := by
  rw [getChildStates, List.mem_filter, isState_false_iff]
  exact ⟨fun h => h.1, fun h => ⟨h, (mem_children.mp h).1⟩⟩

/-! ### Look up by id -/

/-- No two elements carry the same id. -/
def UniqueIds (d : Document β) : Prop :=
  ∀ p ∈ d.states, ∀ q ∈ d.states, (d.id? p).isSome → d.id? p = d.id? q → p = q

def subtreeSize (d : Document β) (p : TreePath) : Nat := (d.states.toFinset.filter fun q => p <+: q).card

theorem children_nodup (p : TreePath) : (d.children p).Nodup := d.tree.preorder_nodup.filter _

/-- The subtrees of the children of an element are disjoint and none of them holds the element. -/
theorem sum_subtreeSize_children {p : TreePath} (hp : p ∈ d.states) :
    ((d.children p).map d.subtreeSize).sum + 1 ≤ d.subtreeSize p := by
  have hsum : ((d.children p).map d.subtreeSize).sum =
      ((d.children p).toFinset.biUnion fun c => d.states.toFinset.filter fun r => c <+: r).card := by
    rw [Finset.card_biUnion]
    · rw [List.sum_toFinset _ (children_nodup p)]
      rfl
    · intro a ha b hb hab
      refine Finset.disjoint_left.mpr ?_
      intro r hra hrb
      rw [Finset.mem_coe, List.mem_toFinset, mem_children] at ha hb
      obtain ⟨k, hk⟩ := TreePath.eq_parent_concat ha.2.1
      obtain ⟨j, hj⟩ := TreePath.eq_parent_concat hb.2.1
      rw [ha.2.2] at hk
      rw [hb.2.2] at hj
      have hlen : a.length = b.length := by simp [hk, hj]
      exact hab ((List.prefix_of_prefix_length_le (Finset.mem_filter.mp hra).2 (Finset.mem_filter.mp hrb).2
        hlen.le).eq_of_length hlen)
  rw [hsum, subtreeSize, Nat.add_one_le_iff]
  refine Finset.card_lt_card ⟨?_, ?_⟩
  · intro r hr
    obtain ⟨c, hc, hr⟩ := Finset.mem_biUnion.mp hr
    rw [List.mem_toFinset, mem_children] at hc
    rw [Finset.mem_filter] at hr ⊢
    exact ⟨hr.1, (TreePath.below_of_parent_eq hc.2.1 hc.2.2).1.trans hr.2⟩
  · intro hsub
    have hpmem := hsub (Finset.mem_filter.mpr ⟨List.mem_toFinset.mpr hp, List.prefix_refl p⟩)
    obtain ⟨c, hc, hpc⟩ := Finset.mem_biUnion.mp hpmem
    rw [List.mem_toFinset, mem_children] at hc
    have hlt := (TreePath.below_of_parent_eq hc.2.1 hc.2.2).length_lt
    exact absurd (Finset.mem_filter.mp hpc).2.length_le (Nat.not_le.mpr hlt)

theorem getStateLoop_id {i : String} {n : Nat} {queue : List TreePath} {p : TreePath}
    (h : d.getStateLoop i n queue = some p) : d.id? p = some i := by
  induction n generalizing queue with
  | zero => simp [getStateLoop] at h
  | succ n ih =>
    cases queue with
    | nil => simp [getStateLoop] at h
    | cons curr queue =>
      rw [getStateLoop] at h
      split at h
      · rename_i hid
        cases h
        exact hid
      · exact ih h

/-- The search succeeds when a state with the id lies below a pending element and the bound on the number of
rounds covers the subtrees of all pending elements. -/
theorem getStateLoop_isSome {i : String} {p : TreePath} (hp : p ∈ d.states) (hid : d.id? p = some i) {n : Nat}
    {queue : List TreePath} (hq : ∀ q ∈ queue, q ∈ d.states) (hn : (queue.map d.subtreeSize).sum ≤ n)
    (hpend : ∃ q ∈ queue, q <+: p) : (d.getStateLoop i n queue).isSome := by
  induction n generalizing queue with
  | zero =>
    cases queue with
    | nil => simp at hpend
    | cons curr queue =>
      have hpos := sum_subtreeSize_children (hq curr List.mem_cons_self)
      rw [List.map_cons, List.sum_cons] at hn
      omega
  | succ n ih =>
    cases queue with
    | nil => simp at hpend
    | cons curr queue =>
      rw [getStateLoop]
      split
      · rfl
      rename_i hcurr
      have hchild : ∀ q ∈ d.getChildStates curr false, q ∈ d.states :=
        fun q h => (mem_children.mp (mem_getChildStates_false.mp h)).1
      have hsum := sum_subtreeSize_children (hq curr List.mem_cons_self)
      have hall : d.getChildStates curr false = d.children curr := by
        rw [getChildStates, List.filter_eq_self]
        intro q h
        rw [isState_false_iff]
        exact (mem_children.mp h).1
      refine ih ?_ ?_ ?_
      · intro q h
        rcases List.mem_append.mp h with h | h
        · exact hq q (List.mem_cons_of_mem _ h)
        · exact hchild q h
      · rw [List.map_cons, List.sum_cons] at hn
        rw [List.map_append, List.sum_append, hall]
        omega
      · obtain ⟨q, hmem, hqp⟩ := hpend
        rcases List.mem_cons.mp hmem with rfl | hmem
        · -- The element itself does not carry the id, so the state lies below one of its children.
          rcases TreePath.below_or_eq_of_prefix hqp with rfl | hbelow
          · exact absurd hid hcurr
          · obtain ⟨k, hk⟩ := TreePath.exists_child_of_below hbelow
            refine ⟨q ++ [k], List.mem_append_right _ ?_, hk⟩
            rw [hall, mem_children]
            exact ⟨mem_states_of_above hk hp, by simp, TreePath.parent_concat q k⟩
        · exact ⟨q, List.mem_append_left _ hmem, hqp⟩

theorem getState_id {i : String} {p : TreePath} (h : d.getState i = some p) : d.id? p = some i := getStateLoop_id h

theorem mem_states_of_id {p : TreePath} {i : String} (h : d.id? p = some i) : p ∈ d.states := by
  rw [Document.mem_states]
  cases he : d.elem? p with
  | none => simp [id?, he] at h
  | some e => rfl

theorem getState_mem_states {i : String} {p : TreePath} (h : d.getState i = some p) : p ∈ d.states :=
  mem_states_of_id (getState_id h)

theorem getState_isSome {i : String} {p : TreePath} (h : d.id? p = some i) : (d.getState i).isSome := by
  refine getStateLoop_isSome (mem_states_of_id h) h ?_ ?_ ⟨[], by simp, List.nil_prefix⟩
  · intro q hq
    rw [List.mem_singleton] at hq
    exact hq ▸ d.root_mem_states
  · simpa [subtreeSize] using List.toFinset_card_le d.states

theorem getState_eq_some_iff (hu : d.UniqueIds) {i : String} {p : TreePath} :
    d.getState i = some p ↔ d.id? p = some i := by
  refine ⟨getState_id, fun h => ?_⟩
  obtain ⟨q, hq⟩ := Option.isSome_iff_exists.mp (getState_isSome h)
  have hid := getState_id hq
  rw [hq, hu q (getState_mem_states hq) p (mem_states_of_id h) (by simp [hid]) (hid.trans h.symm)]

/-! ### Ancestors and domains -/

@[simp] theorem mem_parentNodes {p a : TreePath} : a ∈ parentNodes p ↔ p.Below a := by
  rw [parentNodes, List.mem_map]
  constructor
  · rintro ⟨n, hn, rfl⟩
    rw [List.mem_reverse, List.mem_range] at hn
    refine ⟨List.take_prefix n p, fun he => ?_⟩
    have := congrArg List.length he
    rw [List.length_take] at this
    omega
  · intro h
    refine ⟨a.length, ?_, ?_⟩
    · rw [List.mem_reverse, List.mem_range]
      exact h.length_lt
    · exact (List.prefix_iff_eq_take.mp h.1).symm

theorem parentNodes_cons {p : TreePath} (hp : p ≠ []) : parentNodes p = p.parent :: parentNodes p.parent := by
  obtain ⟨n, hn⟩ : ∃ n, p.length = n + 1 := Nat.exists_eq_succ_of_ne_zero (by simpa using hp)
  have hparent : p.parent = p.take n := by rw [TreePath.parent, List.dropLast_eq_take, hn, Nat.add_sub_cancel]
  have hlen : (p.take n).length = n := by rw [List.length_take, hn, Nat.min_eq_left (Nat.le_succ n)]
  rw [parentNodes, parentNodes, hparent, hlen, hn, List.range_succ, List.reverse_append, List.reverse_singleton,
    List.singleton_append, List.map_cons]
  refine congrArg (p.take n :: ·) (List.map_congr_left ?_)
  intro i hi
  rw [List.mem_reverse, List.mem_range] at hi
  rw [List.take_take, Nat.min_eq_left (Nat.le_of_lt hi)]

theorem parentNodes_pairwise (p : TreePath) : (p :: parentNodes p).Pairwise TreePath.Below := by
  rw [List.pairwise_cons]
  refine ⟨fun a ha => mem_parentNodes.mp ha, ?_⟩
  rw [parentNodes, List.pairwise_map, List.pairwise_reverse, List.pairwise_iff_getElem]
  intro i j hi hj hij
  rw [List.length_range] at hi hj
  rw [List.getElem_range, List.getElem_range]
  refine ⟨List.take_prefix_take_left (Nat.le_of_lt hij), fun h => ?_⟩
  have := congrArg List.length h
  rw [List.length_take, List.length_take] at this
  omega

theorem parentNodes_getLast {p : TreePath} (hp : p ≠ []) : (parentNodes p).getLast? = some [] := by
  rw [parentNodes, List.getLast?_map, List.getLast?_reverse, List.head?_range, if_neg (by simpa using hp)]
  rfl

/-- What a search from the inside out finds is the innermost of its kind. -/
theorem prefix_of_find_parentNodes {p a c : TreePath} {q : TreePath → Bool} (h : (parentNodes p).find? q = some a)
    (hc : p.Below c) (hq : q c = true) : c <+: a := by
  obtain ⟨-, l, l', hl, hnot⟩ := List.find?_eq_some_iff_append.mp h
  have hsorted := (List.pairwise_cons.mp (parentNodes_pairwise p)).2
  rw [hl] at hsorted
  have hmem := mem_parentNodes.mpr hc
  rw [hl] at hmem
  rcases List.mem_append.mp hmem with hmem | hmem
  · have := hnot c hmem
    simp [hq] at this
  rcases List.mem_cons.mp hmem with rfl | hmem
  · exact List.prefix_refl c
  · exact ((List.pairwise_cons.mp (List.pairwise_append.mp hsorted).2.1).1 c hmem).1

@[simp] theorem isDescendant_iff {s a : TreePath} : isDescendant s a = true ↔ s.Below a := by
  simp [isDescendant]

theorem mem_getExitSet {t : TransId} {s : TreePath} :
    s ∈ d.getExitSet t ↔ ∃ domain, d.getTransitionDomain t = some domain ∧ d.ProperState s ∧ s.Below domain := by
  have hattr : (d.getTransitionDomain t).isSome → ((d.trans? t).bind (·.target)).isSome := by
    intro h
    by_contra hnone
    rw [Option.not_isSome_iff_eq_none] at hnone
    simp [getTransitionDomain, getTargetStates, hnone] at h
  rw [getExitSet]
  cases hdom : d.getTransitionDomain t with
  | none => simp
  | some domain =>
    rw [if_pos (hattr (by simp [hdom]))]
    have hmem : ∀ q, q ∈ d.states.filter (fun q => domain <+: q && d.exitable q) ↔
        d.ProperState q ∧ domain <+: q := by
      intro q
      rw [List.mem_filter, Bool.and_eq_true, decide_eq_true_iff]
      exact ⟨fun h => ⟨h.2.2, h.2.1⟩, fun h => ⟨h.1.mem_states, h.2, h.1⟩⟩
    have hsorted := d.tree.preorder_pairwise.filter (fun q => decide (domain <+: q) && d.exitable q)
    change (d.states.filter (fun q => decide (domain <+: q) && d.exitable q)).Pairwise (· < ·) at hsorted
    simp only [Option.some.injEq, exists_eq_left']
    generalize hl : d.states.filter (fun q => decide (domain <+: q) && d.exitable q) = l at hmem hsorted
    -- The domain is a prefix of every other element of the list, so it can only be the first.
    cases l with
    | nil =>
      have := hmem s
      simp only [List.not_mem_nil, false_iff] at this
      simp only [List.head?_nil, reduceCtorEq, if_false, List.not_mem_nil, false_iff]
      exact fun h => this ⟨h.1, h.2.1⟩
    | cons q l =>
      have hlt := (List.pairwise_cons.mp hsorted).1
      have hq := (hmem q).mp List.mem_cons_self
      simp only [List.head?_cons, Option.some.injEq, List.tail_cons]
      by_cases hqd : q = domain
      · rw [if_pos hqd]
        constructor
        · intro h
          have := (hmem s).mp (List.mem_cons_of_mem _ h)
          exact ⟨this.1, this.2, fun he => absurd (hlt s h) (by rw [hqd, he]; exact lt_irrefl s)⟩
        · intro h
          rcases List.mem_cons.mp ((hmem s).mpr ⟨h.1, h.2.1⟩) with he | hs
          · exact absurd (he.trans hqd).symm h.2.2
          · exact hs
      · rw [if_neg hqd]
        rw [hmem]
        refine ⟨fun h => ⟨h.1, h.2, ?_⟩, fun h => ⟨h.1, h.2.1⟩⟩
        rintro rfl
        rcases List.mem_cons.mp ((hmem domain).mpr h) with he | hs
        · exact hqd he.symm
        · have hbelow : TreePath.Below q domain := ⟨hq.2, fun he => hqd he.symm⟩
          exact absurd (hlt domain hs) (not_lt.mpr hbelow.lt.le)

theorem conflicts_iff {t₁ t₂ : TransId} :
    d.conflicts t₁ t₂ = true ↔
      d.getSourceState t₁ = d.getSourceState t₂ ∨ (d.getSourceState t₁).Below (d.getSourceState t₂) ∨
        (d.getSourceState t₂).Below (d.getSourceState t₁) ∨ ∃ s ∈ d.getExitSet t₁, s ∈ d.getExitSet t₂ := by
  simp [conflicts, or_assoc]

theorem conflicts_comm (t₁ t₂ : TransId) : d.conflicts t₁ t₂ = d.conflicts t₂ t₁ := by
  rw [Bool.eq_iff_iff, conflicts_iff, conflicts_iff]
  constructor
  · rintro (h | h | h | ⟨s, h₁, h₂⟩)
    · exact Or.inl h.symm
    · exact Or.inr (Or.inr (Or.inl h))
    · exact Or.inr (Or.inl h)
    · exact Or.inr (Or.inr (Or.inr ⟨s, h₂, h₁⟩))
  · rintro (h | h | h | ⟨s, h₁, h₂⟩)
    · exact Or.inl h.symm
    · exact Or.inr (Or.inr (Or.inl h))
    · exact Or.inr (Or.inl h)
    · exact Or.inr (Or.inr (Or.inr ⟨s, h₂, h₁⟩))

end Document

end Uscxml
