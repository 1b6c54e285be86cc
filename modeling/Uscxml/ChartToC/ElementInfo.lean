import Mathlib.Logic.Function.Basic
import Mathlib.Data.List.GetD

/-!
# Tables of `<param>` and `<data>` elements

`writeElementInfo` writes the elements of a kind in document order to one array, with an unset entry where the parent
changes, and notes at the parent where its elements begin. The loop for `<data>` counts the unset entries in
`dataIndexOffset`; the one for `<param>` takes the number of the element as the index.
-/

namespace Uscxml

namespace ChartToC

/-! ### Arrays with unset entries between the parents -/

section

variable {ν ε : Type} [DecidableEq ν]

/-- The variables of the loops and the attribute at the parents. An entry is kept with the number of its element, so that
equal ones can be told apart. -/
structure Writer (ν ε : Type) where
  i : Nat := 0
  offset : Nat := 0
  parent : Option ν := none
  index : ν → Option Nat := fun _ => none
  stream : List (Option (ε × Nat)) := []

variable (parentOf : ε → ν) (indexAt : Nat → Nat → Nat)

/-- The branch for an element with another parent than the one before. -/
def newParent (node : ν) (w : Writer ν ε) : Writer ν ε :=
  let w := if 0 < w.i then { w with stream := w.stream ++ [none], offset := w.offset + 1 } else w
  { w with index := Function.update w.index node (some (indexAt w.i w.offset)), parent := some node }

def writeElement (w : Writer ν ε) (e : ε) : Writer ν ε :=
  let w := if w.parent = some (parentOf e) then w else newParent indexAt (parentOf e) w
  { w with stream := w.stream ++ [some (e, w.i)], i := w.i + 1 }

/-- The loop over the elements of a kind. -/
def writeElements (elems : List ε) (w : Writer ν ε) : Writer ν ε := elems.foldl (writeElement parentOf indexAt) w

/-- The array: what is behind the last entry is unset. -/
def Writer.table (w : Writer ν ε) : List (Option (ε × Nat)) := w.stream ++ [none]

def readSet (isSet : ε → Bool) : List (Option (ε × Nat)) → List (ε × Nat)
  | some (e, i) :: entries => if isSet e then (e, i) :: readSet isSet entries else []
  | _ => []

def ownElements (elems : List ε) (node : ν) : List (ε × Nat) := elems.zipIdx.filter fun e => parentOf e.1 = node

/-! What the loop writes. -/

/-- The entries for the elements from a number on, behind one with the given parent. -/
def entriesFrom : Nat → Option ν → List ε → List (Option (ε × Nat))
  | _, _, [] => []
  | i, parent, e :: elems =>
    (if parent = some (parentOf e) ∨ i = 0 then [] else [none]) ++
      some (e, i) :: entriesFrom (i + 1) (some (parentOf e)) elems

def lastParent (parent : Option ν) (elems : List ε) : Option ν := elems.foldl (fun _ e => some (parentOf e)) parent

theorem entriesFrom_append (i : Nat) (parent : Option ν) (l l' : List ε) :
    entriesFrom parentOf i parent (l ++ l') =
      entriesFrom parentOf i parent l ++ entriesFrom parentOf (i + l.length) (lastParent parentOf parent l) l' := by
  induction l generalizing i parent with
  | nil => rfl
  | cons e l ih =>
    rw [List.cons_append, entriesFrom, entriesFrom, ih, List.length_cons, List.append_assoc, List.cons_append,
      Nat.add_right_comm i 1, Nat.add_assoc i]
    rfl

/-- Elements of the parent that is there already follow without an unset entry. -/
theorem entriesFrom_same {node : ν} {l : List ε} (h : ∀ e ∈ l, parentOf e = node) (i : Nat) :
    entriesFrom parentOf i (some node) l = (l.zipIdx i).map some := by
  induction l generalizing i with
  | nil => rfl
  | cons e l ih =>
    have he : parentOf e = node := h e List.mem_cons_self
    rw [entriesFrom, he, if_pos (.inl rfl), List.nil_append, ih fun e' he' => h e' (List.mem_cons_of_mem e he')]
    rfl

theorem entriesFrom_other {node : ν} {l : List ε} (h : ∀ e ∈ l, parentOf e ≠ node) {i : Nat} (hi : i ≠ 0) :
    entriesFrom parentOf i (some node) l = [] ∨ ∃ l', entriesFrom parentOf i (some node) l = none :: l' := by
  cases l with
  | nil => exact .inl rfl
  | cons e l =>
    have he : ¬ (some node = some (parentOf e) ∨ i = 0) := by
      rintro (hnode | hzero)
      · exact h e List.mem_cons_self (Option.some.inj hnode).symm
      · exact hi hzero
    rw [entriesFrom, if_neg he]
    exact .inr ⟨_, rfl⟩

theorem mem_entriesFrom {i : Nat} {parent : Option ν} {l : List ε} {x : ε × Nat}
    (h : some x ∈ entriesFrom parentOf i parent l) : x.2 < i + l.length := by
  induction l generalizing i parent with
  | nil => cases h
  | cons e l ih =>
    rw [entriesFrom, List.mem_append, List.mem_cons] at h
    rw [List.length_cons]
    rcases h with h | h | h
    · split at h
      · cases h
      · cases List.mem_singleton.mp h
    · cases Option.some.inj h
      show i < i + (l.length + 1)
      omega
    · have := ih h
      omega

theorem length_le_entriesFrom (i : Nat) (parent : Option ν) (l : List ε) :
    l.length ≤ (entriesFrom parentOf i parent l).length := by
  induction l generalizing i parent with
  | nil => exact Nat.le_refl 0
  | cons e l ih =>
    have := ih (i + 1) (some (parentOf e))
    rw [entriesFrom, List.length_append, List.length_cons, List.length_cons]
    omega

/-! One round and all of them. -/

theorem writeElement_eq (w : Writer ν ε) (e : ε) :
    (writeElement parentOf indexAt w e).i = w.i + 1 ∧
      (writeElement parentOf indexAt w e).parent = some (parentOf e) ∧
      (writeElement parentOf indexAt w e).stream = w.stream ++
        ((if w.parent = some (parentOf e) ∨ w.i = 0 then [] else [none]) ++ [some (e, w.i)]) := by
  rw [writeElement, newParent]
  by_cases hparent : w.parent = some (parentOf e)
  · simp [hparent]
  · by_cases hi : w.i = 0
    · simp [hparent, hi]
    · simp [hparent, hi, Nat.pos_of_ne_zero hi]

/-- The number of an element and of the unset entries before it give its place. -/
theorem writeElement_offset {w : Writer ν ε} (h : w.i + w.offset = w.stream.length) (e : ε) :
    (writeElement parentOf indexAt w e).i + (writeElement parentOf indexAt w e).offset =
      (writeElement parentOf indexAt w e).stream.length := by
  rw [writeElement, newParent]
  split
  · simp only [List.length_append, List.length_singleton]
    omega
  · split
    · simp only [List.length_append, List.length_singleton]
      omega
    · simp only [List.length_append, List.length_singleton]
      omega

theorem writeElements_eq (elems : List ε) (w : Writer ν ε) :
    (writeElements parentOf indexAt elems w).i = w.i + elems.length ∧
      (writeElements parentOf indexAt elems w).parent = lastParent parentOf w.parent elems ∧
      (writeElements parentOf indexAt elems w).stream = w.stream ++ entriesFrom parentOf w.i w.parent elems := by
  induction elems generalizing w with
  | nil => simp [writeElements, lastParent, entriesFrom]
  | cons e elems ih =>
    obtain ⟨hi, hparent, hstream⟩ := writeElement_eq parentOf indexAt w e
    obtain ⟨hi', hparent', hstream'⟩ := ih (writeElement parentOf indexAt w e)
    rw [hi] at hi' hstream'
    rw [hparent] at hparent' hstream'
    rw [hstream] at hstream'
    refine ⟨?_, hparent', ?_⟩
    · exact hi'.trans (by rw [List.length_cons]; omega)
    · refine hstream'.trans ?_
      rw [entriesFrom, List.append_assoc, List.append_assoc, List.singleton_append]

theorem writeElements_offset (elems : List ε) {w : Writer ν ε} (h : w.i + w.offset = w.stream.length) :
    (writeElements parentOf indexAt elems w).i + (writeElements parentOf indexAt elems w).offset =
      (writeElements parentOf indexAt elems w).stream.length := by
  induction elems generalizing w with
  | nil => exact h
  | cons e elems ih => exact ih (writeElement_offset parentOf indexAt h e)

theorem index_newParent (node : ν) (w : Writer ν ε) :
    (newParent indexAt node w).index node = some (indexAt w.i (w.offset + if w.i = 0 then 0 else 1)) := by
  rw [newParent]
  by_cases hi : w.i = 0
  · simp [hi]
  · simp [hi, Nat.pos_of_ne_zero hi]

theorem index_writeElement_of_ne {node : ν} (w : Writer ν ε) {e : ε} (h : parentOf e ≠ node) :
    (writeElement parentOf indexAt w e).index node = w.index node := by
  rw [writeElement, newParent]
  split
  · rfl
  · split
    · exact Function.update_of_ne h.symm _ _
    · exact Function.update_of_ne h.symm _ _

theorem index_writeElements_of_ne {node : ν} {elems : List ε} (h : ∀ e ∈ elems, parentOf e ≠ node) (w : Writer ν ε) :
    (writeElements parentOf indexAt elems w).index node = w.index node := by
  induction elems generalizing w with
  | nil => rfl
  | cons e elems ih =>
    have hrest := ih (fun e' he' => h e' (List.mem_cons_of_mem e he')) (writeElement parentOf indexAt w e)
    exact hrest.trans (index_writeElement_of_ne parentOf indexAt w (h e List.mem_cons_self))

theorem index_writeElements_of_same {node : ν} {elems : List ε} (h : ∀ e ∈ elems, parentOf e = node) {w : Writer ν ε}
    (hw : w.parent = some node) : (writeElements parentOf indexAt elems w).index = w.index := by
  induction elems generalizing w with
  | nil => rfl
  | cons e elems ih =>
    have he : parentOf e = node := h e List.mem_cons_self
    have hround : (writeElement parentOf indexAt w e).index = w.index := by
      rw [writeElement, he, if_pos hw]
    have hparent := (writeElement_eq parentOf indexAt w e).2.1
    rw [he] at hparent
    exact (ih (fun e' he' => h e' (List.mem_cons_of_mem e he')) hparent).trans hround

/-! Reading. -/

theorem readSet_append_none (isSet : ε → Bool) (l l' : List (Option (ε × Nat))) :
    readSet isSet (l ++ none :: l') = readSet isSet l := by
  induction l with
  | nil => rfl
  | cons entry l ih =>
    cases entry with
    | none => rfl
    | some x =>
      rw [List.cons_append, readSet, readSet, ih]

theorem mem_readSet {isSet : ε → Bool} {l : List (Option (ε × Nat))} {x : ε × Nat} (h : x ∈ readSet isSet l) :
    isSet x.1 = true ∧ some x ∈ l := by
  induction l with
  | nil => cases h
  | cons entry l ih =>
    cases entry with
    | none => cases h
    | some y =>
      rw [readSet] at h
      split at h
      · rename_i hset
        rcases List.mem_cons.mp h with rfl | h
        · exact ⟨hset, List.mem_cons_self⟩
        · exact ⟨(ih h).1, List.mem_cons_of_mem _ (ih h).2⟩
      · cases h

theorem readSet_map_some {isSet : ε → Bool} {l : List (ε × Nat)} (h : ∀ x ∈ l, isSet x.1 = true) :
    readSet isSet (l.map some) = l := by
  induction l with
  | nil => rfl
  | cons x l ih =>
    have hx : isSet x.1 = true := h x List.mem_cons_self
    rw [List.map_cons, readSet, if_pos hx, ih fun y hy => h y (List.mem_cons_of_mem x hy)]

/-- The elements of a parent from the last place on where they begin: `pre`, then `e` and `own`, then `rest`. -/
structure LastGroup (elems : List ε) (node : ν) (pre : List ε) (e : ε) (own rest : List ε) : Prop where
  split : elems = pre ++ (e :: own ++ rest)
  group : ∀ e' ∈ e :: own, parentOf e' = node
  rest : ∀ e' ∈ rest, parentOf e' ≠ node
  begins : pre = [] ∨ ∃ pre' q, pre = pre' ++ [q] ∧ parentOf q ≠ node

theorem exists_lastGroup {elems : List ε} {node : ν} (h : ∃ e ∈ elems, parentOf e = node) :
    ∃ pre e own rest, LastGroup parentOf elems node pre e own rest := by
  induction elems with
  | nil =>
    obtain ⟨e, he, -⟩ := h
    cases he
  | cons q elems ih =>
    by_cases hlater : ∃ e ∈ elems, parentOf e = node
    · obtain ⟨pre, e, own, rest, hsplit, hgroup, hrest, hbegins⟩ := ih hlater
      rcases hbegins with rfl | ⟨pre', q', rfl, hq'⟩
      · by_cases hq : parentOf q = node
        · refine ⟨[], q, e :: own, rest, by rw [hsplit]; rfl, ?_, hrest, .inl rfl⟩
          intro e' he'
          rcases List.mem_cons.mp he' with rfl | he'
          · exact hq
          · exact hgroup e' he'
        · exact ⟨[q], e, own, rest, by rw [hsplit]; rfl, hgroup, hrest, .inr ⟨[], q, rfl, hq⟩⟩
      · exact ⟨q :: (pre' ++ [q']), e, own, rest, by rw [hsplit]; rfl, hgroup, hrest, .inr ⟨q :: pre', q', rfl, hq'⟩⟩
    · have hnone : ∀ e ∈ elems, parentOf e ≠ node := fun e he heq => hlater ⟨e, he, heq⟩
      obtain ⟨e, he, heq⟩ := h
      rcases List.mem_cons.mp he with rfl | he
      · refine ⟨[], e, [], elems, rfl, ?_, hnone, .inl rfl⟩
        intro e' he'
        rw [List.mem_singleton.mp he']
        exact heq
      · exact absurd heq (hnone e he)

variable {parentOf}

omit [DecidableEq ν] in
theorem LastGroup.lastParent_ne {elems : List ε} {node : ν} {pre own rest : List ε} {e : ε}
    (h : LastGroup parentOf elems node pre e own rest) : lastParent parentOf none pre ≠ some node := by
  rcases h.begins with rfl | ⟨pre', q, rfl, hq⟩
  · exact Option.some_ne_none node |>.symm
  · rw [lastParent, List.foldl_append]
    exact fun hnode => hq (Option.some.inj hnode)

theorem LastGroup.index {elems : List ε} {node : ν} {pre own rest : List ε} {e : ε}
    (h : LastGroup parentOf elems node pre e own rest) :
    (writeElements parentOf indexAt elems {}).index node = some (indexAt pre.length
      ((writeElements parentOf indexAt pre {}).offset + if pre = [] then 0 else 1)) := by
  obtain ⟨hi, hparent, -⟩ := writeElements_eq parentOf indexAt pre {}
  have hnode : parentOf e = node := h.group e List.mem_cons_self
  have hparent' : ¬ (writeElements parentOf indexAt pre {}).parent = some (parentOf e) := by
    rw [hparent, hnode]
    exact h.lastParent_ne
  -- The elements behind the first one of the group leave the attribute alone.
  have hsplit : writeElements parentOf indexAt elems {} = writeElements parentOf indexAt rest
      (writeElements parentOf indexAt own
        (writeElement parentOf indexAt (writeElements parentOf indexAt pre {}) e)) := by
    rw [h.split]
    simp only [writeElements, List.foldl_append, List.foldl_cons]
  have hround := (writeElement_eq parentOf indexAt (writeElements parentOf indexAt pre {}) e).2.1
  rw [hnode] at hround
  rw [hsplit, index_writeElements_of_ne parentOf indexAt h.rest,
    index_writeElements_of_same parentOf indexAt (fun e' he' => h.group e' (List.mem_cons_of_mem e he')) hround,
    writeElement, if_neg hparent', hnode]
  have hlength : (writeElements parentOf indexAt pre {}).i = pre.length := by
    rw [hi]
    exact Nat.zero_add _
  refine (index_newParent indexAt node _).trans ?_
  rw [hlength]
  simp only [List.length_eq_zero_iff]

theorem LastGroup.table {elems : List ε} {node : ν} {pre own rest : List ε} {e : ε}
    (h : LastGroup parentOf elems node pre e own rest) :
    ∃ behind, (writeElements parentOf indexAt elems {}).table = entriesFrom parentOf 0 none pre ++
      ((if pre = [] then [] else [none]) ++ (((e :: own).zipIdx pre.length).map some ++ none :: behind)) := by
  have hstream := (writeElements_eq parentOf indexAt elems {}).2.2
  have hnode : parentOf e = node := h.group e List.mem_cons_self
  have hfirst : (lastParent parentOf none pre = some (parentOf e) ∨ pre.length = 0) ↔ pre = [] := by
    rw [hnode, List.length_eq_zero_iff]
    exact or_iff_right h.lastParent_ne
  have hgroup := entriesFrom_same parentOf (fun e' he' => h.group e' (List.mem_cons_of_mem e he')) (pre.length + 1)
  have hlast : ∀ l : List ε, (∀ e' ∈ l, parentOf e' = node) → lastParent parentOf (some node) l = some node := by
    intro l hl
    induction l with
    | nil => rfl
    | cons q l ih =>
      have hq : parentOf q = node := hl q List.mem_cons_self
      have := ih fun e' he' => hl e' (List.mem_cons_of_mem q he')
      rwa [← hq] at this ⊢
  have htail := entriesFrom_other parentOf h.rest (show pre.length + 1 + own.length ≠ 0 by omega)
  have hentries : entriesFrom parentOf 0 none elems = entriesFrom parentOf 0 none pre ++
      ((if pre = [] then [] else [none]) ++ (((e :: own).zipIdx pre.length).map some ++
        entriesFrom parentOf (pre.length + 1 + own.length) (some node) rest)) := by
    rw [h.split, entriesFrom_append, Nat.zero_add, List.cons_append, entriesFrom, hnode, entriesFrom_append, hgroup,
      hlast own fun e' he' => h.group e' (List.mem_cons_of_mem e he')]
    rw [hnode] at hfirst
    simp only [hfirst, List.zipIdx_cons, List.map_cons, List.cons_append]
  rw [Writer.table, hstream, hentries]
  rcases htail with htail | ⟨l', htail⟩
  · exact ⟨[], by simp [htail]⟩
  · exact ⟨l' ++ [none], by simp [htail]⟩

theorem LastGroup.ownElements {elems : List ε} {node : ν} {pre own rest : List ε} {e : ε}
    (h : LastGroup parentOf elems node pre e own rest) (hpre : ∀ e' ∈ pre, parentOf e' ≠ node) :
    ownElements parentOf elems node = (e :: own).zipIdx pre.length := by
  have hnone : ∀ (l : List ε) (n : Nat), (∀ e' ∈ l, parentOf e' ≠ node) →
      (l.zipIdx n).filter (fun e => parentOf e.1 = node) = [] := by
    intro l n hl
    rw [List.filter_eq_nil_iff]
    rintro ⟨e', k⟩ he'
    simpa using hl e' (List.fst_mem_of_mem_zipIdx he')
  have hall : ((e :: own).zipIdx pre.length).filter (fun e => parentOf e.1 = node) = (e :: own).zipIdx pre.length := by
    rw [List.filter_eq_self]
    rintro ⟨e', k⟩ he'
    simpa using h.group e' (List.fst_mem_of_mem_zipIdx he')
  rw [ChartToC.ownElements, h.split, List.zipIdx_append, List.zipIdx_append, List.filter_append, List.filter_append,
    hnone pre 0 hpre, Nat.zero_add, hall, hnone rest _ h.rest, List.nil_append, List.append_nil]

end

/-! ### Parameters -/

section

variable {ν : Type} [DecidableEq ν]

structure ParamElem (ν : Type) where
  parent : ν
  name : Option String := none
  expr : Option String := none
  location : Option String := none
  deriving DecidableEq, Repr

/-- `USCXML_ELEM_PARAM_IS_SET`. -/
def ParamElem.isSet (p : ParamElem ν) : Bool := p.name.isSome

/-- The loop over the `<param>` elements; `paramIndex` is the number of the element. -/
def writeParams (params : List (ParamElem ν)) : Writer ν (ParamElem ν) :=
  writeElements ParamElem.parent (fun i _ => i) params {}

/-- What stands for `params` in the entry of a `<send>`, an `<invoke>` or a `<donedata>`. -/
inductive ParamsField where
  | null
  | index (i : Nat)
  | verbatim (paramIndex : String)
  deriving DecidableEq, Repr

/-- The attribute `paramIndex`, which the document itself may have. -/
def paramsField (params : List (ParamElem ν)) (given : ν → Option String) (node : ν) : ParamsField :=
  match (writeParams params).index node with
  | some i => .index i
  | none => (given node).elim .null .verbatim

/-- The entry of an element refers to its own parameters: they are read in their order from there, and an element without
any has none. -/
def RefersToOwnParams (params : List (ParamElem ν)) (given : ν → Option String) (node : ν) : Prop :=
  if ∃ p ∈ params, p.parent = node then
    ∃ i, paramsField params given node = .index i ∧
      readSet ParamElem.isSet ((writeParams params).table.drop i) = ownElements ParamElem.parent params node
  else paramsField params given node = .null

/-- Behind other parameters the index is too small by the number of the unset entries: an unset entry stands between it and
the parameters of the element. -/
theorem reads_wrong_params {params : List (ParamElem ν)} {node : ν} {pre own rest : List (ParamElem ν)} {p : ParamElem ν}
    (h : LastGroup ParamElem.parent params node pre p own rest) (hpre : pre ≠ []) :
    readSet ParamElem.isSet ((writeParams params).table.drop pre.length) ≠ ownElements ParamElem.parent params node := by
  obtain ⟨behind, htable⟩ := h.table fun i _ => i
  have hlength := length_le_entriesFrom ParamElem.parent 0 none pre
  have hread : readSet ParamElem.isSet ((writeParams params).table.drop pre.length) =
      readSet ParamElem.isSet ((entriesFrom ParamElem.parent 0 none pre).drop pre.length) := by
    rw [writeParams, htable, if_neg hpre, List.drop_append_of_le_length hlength, List.singleton_append,
      readSet_append_none]
  have hown : (p, pre.length) ∈ ownElements ParamElem.parent params node := by
    have hnode : p.parent = node := h.group p List.mem_cons_self
    rw [ownElements, h.split, List.mem_filter, List.zipIdx_append, Nat.zero_add]
    refine ⟨List.mem_append_right _ ?_, by simpa using hnode⟩
    rw [List.cons_append, List.zipIdx_cons]
    exact List.mem_cons_self
  intro heq
  rw [hread] at heq
  rw [← heq] at hown
  have hmem := List.mem_of_mem_drop (mem_readSet hown).2
  have hlt := mem_entriesFrom ParamElem.parent hmem
  simp at hlt

/-- The first parameters of the document are read as they are up to the first one without a name. -/
theorem reads_first_params_iff {params : List (ParamElem ν)} {node : ν} {own rest : List (ParamElem ν)} {p : ParamElem ν}
    (h : LastGroup ParamElem.parent params node [] p own rest) :
    readSet ParamElem.isSet (writeParams params).table = ownElements ParamElem.parent params node ↔
      ∀ q ∈ p :: own, q.name.isSome := by
  obtain ⟨behind, htable⟩ := h.table fun i _ => i
  have hread : readSet ParamElem.isSet (writeParams params).table =
      readSet ParamElem.isSet (((p :: own).zipIdx 0).map some) := by
    rw [writeParams, htable, if_pos rfl, entriesFrom, List.nil_append, List.nil_append, readSet_append_none,
      List.length_nil]
  rw [hread, h.ownElements (List.forall_mem_nil _), List.length_nil]
  constructor
  · intro heq q hq
    obtain ⟨k, hk⟩ := List.mem_iff_getElem?.mp hq
    have hmem : (q, k) ∈ (p :: own).zipIdx 0 := List.mk_mem_zipIdx_iff_getElem?.mpr hk
    rw [← heq] at hmem
    exact (mem_readSet hmem).1
  · intro hset
    refine readSet_map_some fun x hx => hset x.1 ?_
    exact List.fst_mem_of_mem_zipIdx hx

/-- The entry of an element refers to its own parameters exactly when it has none, and no attribute `paramIndex` either, or
they are the first ones of the document, without those of another element between them, and all of them have a name. -/
theorem refersToOwnParams_iff (params : List (ParamElem ν)) (given : ν → Option String) (node : ν) :
    RefersToOwnParams params given node ↔
      (∀ p ∈ params, p.parent ≠ node) ∧ given node = none ∨
      ∃ own rest, params = own ++ rest ∧ own ≠ [] ∧ (∀ p ∈ own, p.parent = node ∧ p.name.isSome) ∧
        ∀ p ∈ rest, p.parent ≠ node := by
  by_cases howner : ∃ p ∈ params, p.parent = node
  · rw [RefersToOwnParams, if_pos howner]
    constructor
    · rintro ⟨i, hfield, hread⟩
      obtain ⟨pre, p, own, rest, h⟩ := exists_lastGroup ParamElem.parent howner
      have hindex : (writeParams params).index node = some pre.length := h.index fun i _ => i
      obtain rfl : pre.length = i := by
        rw [paramsField, hindex] at hfield
        exact ParamsField.index.inj hfield
      by_cases hpre : pre = []
      · subst hpre
        have hset := (reads_first_params_iff h).mp hread
        exact .inr ⟨p :: own, rest, h.split, List.cons_ne_nil p own, fun q hq => ⟨h.group q hq, hset q hq⟩, h.rest⟩
      · exact absurd hread (reads_wrong_params h hpre)
    · rintro (⟨hnone, -⟩ | ⟨own, rest, hsplit, hown, hgroup, hrest⟩)
      · obtain ⟨p, hp, hnode⟩ := howner
        exact absurd hnode (hnone p hp)
      · obtain ⟨p, own, rfl⟩ := List.exists_cons_of_ne_nil hown
        have h : LastGroup ParamElem.parent params node [] p own rest :=
          ⟨hsplit, fun q hq => (hgroup q hq).1, hrest, .inl rfl⟩
        have hindex : (writeParams params).index node = some 0 := h.index fun i _ => i
        refine ⟨0, by rw [paramsField, hindex], ?_⟩
        exact (reads_first_params_iff h).mpr fun q hq => (hgroup q hq).2
  · have hnone : ∀ p ∈ params, p.parent ≠ node := fun p hp hnode => howner ⟨p, hp, hnode⟩
    have hindex : (writeParams params).index node = none := index_writeElements_of_ne ParamElem.parent _ hnone {}
    rw [RefersToOwnParams, if_neg howner, paramsField, hindex]
    constructor
    · intro hnull
      cases hgiven : given node with
      | none => exact .inl ⟨hnone, rfl⟩
      | some text =>
        rw [hgiven] at hnull
        cases hnull
    · rintro (⟨-, hgiven⟩ | ⟨own, rest, hsplit, hown, hgroup, -⟩)
      · rw [hgiven]
        rfl
      · obtain ⟨p, own, rfl⟩ := List.exists_cons_of_ne_nil hown
        have hp : p ∈ params := by
          rw [hsplit]
          exact List.mem_cons_self
        exact absurd (hgroup p List.mem_cons_self).1 (hnone p hp)

/-- Of two elements with a parameter the second one refers to the unset entry between them. -/
theorem second_params_unset :
    ¬ RefersToOwnParams [⟨0, some "a", none, none⟩, ⟨1, some "b", none, none⟩] (fun _ => none) 1 := by
  rw [RefersToOwnParams, if_pos ⟨_, List.mem_cons_of_mem _ List.mem_cons_self, rfl⟩]
  rintro ⟨i, hfield, hread⟩
  obtain rfl : 1 = i := ParamsField.index.inj hfield
  exact absurd hread (by decide)

end

/-! ### Data -/

section

variable {ν : Type} [DecidableEq ν]

/-- A `<data>` with the parent of its `<datamodel>`. -/
structure DataElem (ν : Type) where
  parent : ν
  id : Option String := none
  src : Option String := none
  expr : Option String := none
  content : Option String := none

/-- `USCXML_ELEM_DATA_IS_SET`. -/
def DataElem.isSet (data : DataElem ν) : Bool := data.id.isSome

/-- The loop over the `<data>` elements with late binding; `dataIndex` is the place in the array. -/
def writeDatas (datas : List (DataElem ν)) : Writer ν (DataElem ν) :=
  writeElements DataElem.parent (fun i dataIndexOffset => i + dataIndexOffset) datas {}

/-- A state with data that follow each other and have ids refers to them, whatever comes before. -/
theorem dataIndex_reads_own {datas pre own rest : List (DataElem ν)} {data : DataElem ν} {node : ν}
    (h : LastGroup DataElem.parent datas node pre data own rest) (hpre : ∀ e ∈ pre, e.parent ≠ node)
    (hset : ∀ e ∈ data :: own, e.id.isSome) :
    ∃ i, (writeDatas datas).index node = some i ∧
      readSet DataElem.isSet ((writeDatas datas).table.drop i) = ownElements DataElem.parent datas node := by
  obtain ⟨behind, htable⟩ := h.table fun i dataIndexOffset => i + dataIndexOffset
  obtain ⟨hi, -, hstream⟩ := writeElements_eq DataElem.parent (fun i dataIndexOffset => i + dataIndexOffset) pre {}
  have hoffset := writeElements_offset DataElem.parent (fun i dataIndexOffset => i + dataIndexOffset) pre (w := {}) rfl
  -- The index is the length of what stands before the group.
  have hplace : pre.length + ((writeElements DataElem.parent (fun i dataIndexOffset => i + dataIndexOffset) pre {}).offset +
      if pre = [] then 0 else 1) =
      (entriesFrom DataElem.parent 0 none pre ++ if pre = [] then [] else [none]).length := by
    rw [hi, hstream, List.nil_append] at hoffset
    rw [List.length_append, ← hoffset]
    split
    · simp
    · simp only [Nat.zero_add, List.length_singleton]
      omega
  refine ⟨_, h.index fun i dataIndexOffset => i + dataIndexOffset, ?_⟩
  rw [hplace, writeDatas, htable, ← List.append_assoc, List.drop_left, readSet_append_none, h.ownElements hpre]
  exact readSet_map_some fun x hx => hset x.1 (List.fst_mem_of_mem_zipIdx hx)

end

/-! ### Donedata -/

section

variable {ν : Type} [DecidableEq ν]

structure ContentElem where
  text : String := ""
  expr : Option String := none
  deriving DecidableEq, Repr

structure DonedataElem (ν : Type) where
  node : ν
  source : Nat
  contents : List ContentElem := []

structure DonedataEntry where
  source : Nat
  content : Option String
  contentexpr : Option String
  params : ParamsField
  deriving DecidableEq, Repr

/-- `USCXML_ELEM_DONEDATA_IS_SET`. -/
def DonedataEntry.isSet (entry : DonedataEntry) : Bool :=
  entry.content.isSome || entry.contentexpr.isSome || decide (entry.params ≠ .null)

variable (params : List (ParamElem ν)) (given : ν → Option String)

/-- The entry of a `<donedata>`; only its first `<content>` counts. -/
def donedataEntry (donedata : DonedataElem ν) : DonedataEntry where
  source := donedata.source
  content := donedata.contents.head?.bind fun content => if content.text = "" then none else some content.text
  contentexpr := donedata.contents.head?.bind (·.expr)
  params := paramsField params given donedata.node

/-- The array, with an entry behind those of the document. -/
def writeDonedatas (donedatas : List (DonedataElem ν)) : List DonedataEntry :=
  donedatas.map (donedataEntry params given) ++ [⟨0, none, none, .null⟩]

/-- The loop in `uscxml_step` that looks for the entry of the state `i`. -/
def seekDonedata (i : Nat) : List DonedataEntry → Nat → Nat
  | [], k => k
  | entry :: entries, k =>
    if entry.isSet then if entry.source = i then k else seekDonedata i entries (k + 1) else k

/-- What `raise_done_event` gets: the place of an entry, or `NULL`. -/
def passedDonedata (i : Nat) (table : List DonedataEntry) : Option Nat :=
  let donedata := seekDonedata i table 0
  if (table.getD donedata ⟨0, none, none, .null⟩).isSet then some donedata else none

/-- A `<donedata>` that has something to pass: text or an expression in its first `<content>`, or parameters. -/
def DonedataElem.Fills (donedata : DonedataElem ν) : Prop :=
  (∃ content ∈ donedata.contents.head?, content.text ≠ "" ∨ content.expr.isSome) ∨
    (∃ p ∈ params, p.parent = donedata.node) ∨ (given donedata.node).isSome

theorem paramsField_ne_null_iff (node : ν) :
    paramsField params given node ≠ .null ↔ (∃ p ∈ params, p.parent = node) ∨ (given node).isSome := by
  by_cases howner : ∃ p ∈ params, p.parent = node
  · obtain ⟨pre, p, own, rest, h⟩ := exists_lastGroup ParamElem.parent howner
    have hindex : (writeParams params).index node = some pre.length := h.index fun i _ => i
    rw [paramsField, hindex]
    exact iff_of_true ParamsField.noConfusion (.inl howner)
  · have hnone : ∀ p ∈ params, p.parent ≠ node := fun p hp hnode => howner ⟨p, hp, hnode⟩
    have hindex : (writeParams params).index node = none := index_writeElements_of_ne ParamElem.parent _ hnone {}
    rw [paramsField, hindex, or_iff_right howner]
    cases given node with
    | none => simp
    | some text => simp

theorem isSet_donedataEntry_iff (donedata : DonedataElem ν) :
    (donedataEntry params given donedata).isSet = true ↔ donedata.Fills params given := by
  have hparams := paramsField_ne_null_iff params given donedata.node
  rw [DonedataEntry.isSet, donedataEntry, DonedataElem.Fills, Bool.or_eq_true, Bool.or_eq_true, decide_eq_true_iff, hparams]
  refine or_congr_left ?_
  cases donedata.contents.head? with
  | none => simp
  | some content =>
    by_cases htext : content.text = ""
    · simp [htext]
    · simp [htext]

theorem seekDonedata_append {i : Nat} {l : List DonedataEntry} (h : ∀ entry ∈ l, entry.isSet = true ∧ entry.source ≠ i)
    (l' : List DonedataEntry) (k : Nat) : seekDonedata i (l ++ l') k = seekDonedata i l' (k + l.length) := by
  induction l generalizing k with
  | nil => rfl
  | cons entry l ih =>
    obtain ⟨hset, hsource⟩ := h entry List.mem_cons_self
    rw [List.cons_append, seekDonedata, if_pos hset, if_neg hsource, ih fun e he => h e (List.mem_cons_of_mem entry he),
      List.length_cons]
    congr 1
    omega

/-- The first entry that ends the loop: one of the state, or one that is not set. -/
theorem passedDonedata_append {i : Nat} {l : List DonedataEntry} (h : ∀ entry ∈ l, entry.isSet = true ∧ entry.source ≠ i)
    {entry : DonedataEntry} (hentry : entry.isSet = true → entry.source = i) (l' : List DonedataEntry) :
    passedDonedata i (l ++ entry :: l') = if entry.isSet then some l.length else none := by
  have hseek : seekDonedata i (l ++ entry :: l') 0 = l.length := by
    rw [seekDonedata_append h, Nat.zero_add, seekDonedata]
    by_cases hset : entry.isSet = true
    · rw [if_pos hset, if_pos (hentry hset)]
    · rw [if_neg hset]
  have hget : (l ++ entry :: l').getD l.length ⟨0, none, none, .null⟩ = entry := by
    rw [List.getD_append_right _ _ _ _ (Nat.le_refl _), Nat.sub_self, List.getD_cons_zero]
  rw [passedDonedata, hseek, hget]

omit [DecidableEq ν] in
theorem exists_first_stop (i : Nat) (donedatas : List (DonedataElem ν)) :
    (∀ e ∈ donedatas, e.Fills params given ∧ e.source ≠ i) ∨
      ∃ pre donedata post, donedatas = pre ++ donedata :: post ∧ (∀ e ∈ pre, e.Fills params given ∧ e.source ≠ i) ∧
        (donedata.Fills params given → donedata.source = i) := by
  induction donedatas with
  | nil => exact .inl (List.forall_mem_nil _)
  | cons e donedatas ih =>
    by_cases he : e.Fills params given → e.source = i
    · exact .inr ⟨[], e, donedatas, rfl, List.forall_mem_nil _, he⟩
    · have hwalks : e.Fills params given ∧ e.source ≠ i := Classical.not_imp.mp he
      rcases ih with hall | ⟨pre, donedata, post, rfl, hpre, hstop⟩
      · exact .inl (List.forall_mem_cons.mpr ⟨hwalks, hall⟩)
      · exact .inr ⟨e :: pre, donedata, post, rfl, List.forall_mem_cons.mpr ⟨hwalks, hpre⟩, hstop⟩

/-- `raise_done_event` gets the entry of the state exactly when every `<donedata>` up to the one of the state, that one
included, has something to pass. -/
theorem passedDonedata_iff (donedatas : List (DonedataElem ν)) (i : Nat) :
    passedDonedata i (writeDonedatas params given donedatas) = donedatas.findIdx? (fun e => e.source = i) ↔
      ∀ k, donedatas.findIdx? (fun e => e.source = i) = some k →
        ∀ e ∈ donedatas.take (k + 1), e.Fills params given := by
  have hwalks : ∀ l : List (DonedataElem ν), (∀ e ∈ l, e.Fills params given ∧ e.source ≠ i) →
      ∀ entry ∈ l.map (donedataEntry params given), entry.isSet = true ∧ entry.source ≠ i := by
    intro l hl entry hentry
    obtain ⟨e, he, rfl⟩ := List.mem_map.mp hentry
    exact ⟨(isSet_donedataEntry_iff params given e).mpr (hl e he).1, (hl e he).2⟩
  have hothers : ∀ l : List (DonedataElem ν), (∀ e ∈ l, e.Fills params given ∧ e.source ≠ i) →
      l.findIdx? (fun e => e.source = i) = none := by
    intro l hl
    rw [List.findIdx?_eq_none_iff]
    exact fun e he => decide_eq_false (hl e he).2
  rcases exists_first_stop params given i donedatas with hall | ⟨pre, donedata, post, rfl, hpre, hstop⟩
  · -- The loop runs to the last entry, which is not set.
    have hnull : (⟨0, none, none, .null⟩ : DonedataEntry).isSet = true → (0 : Nat) = i := fun h => absurd h (by decide)
    have hpassed := passedDonedata_append (hwalks donedatas hall) hnull []
    rw [writeDonedatas, hpassed, hothers donedatas hall]
    exact iff_of_true rfl (fun k hk => nomatch hk)
  · have hset := isSet_donedataEntry_iff params given donedata
    have hpassed := passedDonedata_append (hwalks pre hpre) (fun h => hstop (hset.mp h))
      (post.map (donedataEntry params given) ++ [⟨0, none, none, .null⟩])
    have hfind : (pre ++ donedata :: post).findIdx? (fun e => e.source = i) =
        ((donedata :: post).findIdx? (fun e => e.source = i)).map (· + pre.length) := by
      rw [List.findIdx?_append, hothers pre hpre, Option.none_or]
    rw [writeDonedatas, List.map_append, List.map_cons, List.append_assoc, List.cons_append, hpassed, hfind, List.length_map]
    by_cases hfills : donedata.Fills params given
    · have hown : (donedata :: post).findIdx? (fun e => e.source = i) = some 0 := by
        rw [List.findIdx?_cons, if_pos (decide_eq_true (hstop hfills))]
      rw [if_pos (hset.mpr hfills), hown]
      refine iff_of_true (by simp) fun k hk e he => ?_
      obtain rfl : 0 + pre.length = k := Option.some.inj hk
      rw [Nat.zero_add, List.take_length_add_append 1] at he
      rcases List.mem_append.mp he with he | he
      · exact (hpre e he).1
      · rw [List.mem_singleton.mp he]
        exact hfills
    · rw [if_neg fun h => hfills (hset.mp h)]
      constructor
      · intro hnone k hk
        rw [← hnone] at hk
        cases hk
      · intro hfill
        cases hk : (donedata :: post).findIdx? (fun e => e.source = i) with
        | none => rfl
        | some k =>
          refine absurd (hfill (k + pre.length) (by rw [hk]; rfl) donedata ?_) hfills
          have hplace : k + pre.length + 1 = pre.length + (k + 1) := by omega
          rw [hplace, List.take_length_add_append, List.take_succ_cons]
          exact List.mem_append_right _ List.mem_cons_self

/-- A `<donedata>` without anything hides the ones of all later states. -/
theorem empty_donedata_hides_later :
    ¬ passedDonedata 5 (writeDonedatas [] (fun _ => none) [⟨0, 3, []⟩, ⟨1, 5, [{ text := "done" }]⟩]) =
      [(⟨0, 3, []⟩ : DonedataElem Nat), ⟨1, 5, [{ text := "done" }]⟩].findIdx? (fun e => e.source = 5) := by
  decide

end

end ChartToC

end Uscxml
