import Uscxml.ChartToC.Effects
import Uscxml.FastMicroStep.LegalConfiguration

/-!
# The tables of the generated code and those of the interpreter

Both write down the same document. For charts without histories whose targets are legal the records differ in the
children, which are all descendants for the interpreter, and in what the generator reads off a tag name or an attribute
without more thought. Where that makes no difference both walks over the entry set take the same way: the entry set and
the configuration are closed under ancestors, so that one of them holds a descendant only together with a child, and a
state below which something is exited while its child stays has a target below it.
-/

namespace Uscxml

namespace ChartToC

open Document
open FastMicroStep (Entry Selection)

variable {β : Type}

/-- A legal chart that is one machine without global scripts, whose `<final>`s are children of the root, and whose ids are
not changed by `escape`. -/
structure PlainChart (d : Document β) : Prop extends d.LegalChart where
  invokes : ∀ p ∈ d.states, (d.elem? p).elim 0 (·.invoke.length) = 0
  scripts : d.tree.root.script = []
  finals : ∀ p ∈ d.states, d.tag? p = some .final → p.parent = []
  ids : ∀ p ∈ d.states, ∀ i ∈ d.id? p, escape i = i

/-- The generator writes what the interpreter reads: it recognises every `<initial>`, keeps every condition and no
attribute is empty, and the root has no `<onentry>`. -/
structure WrittenAsRead (d : Document β) : Prop where
  initials : d.xmlPrefix = "" ∨ ∀ p ∈ d.states, d.tag? p ≠ some .initial
  conditions : d.datamodel = "native" → ∀ p ∈ d.states, ∀ t ∈ d.transIds p, (d.trans? t).bind (·.cond) = none
  events : ∀ p ∈ d.states, ∀ t ∈ d.transIds p, (d.trans? t).bind (·.event) ≠ some ""
  conds : ∀ p ∈ d.states, ∀ t ∈ d.transIds p, (d.trans? t).bind (·.cond) ≠ some ""
  rootEntry : d.tree.root.onEntry = []

/-! ### The records -/

/-- The records of the machine and of the tables agree in what the blocks of a step read, the children apart. -/
structure Agree (M : Machine) (T : Tables) : Prop where
  states : M.states = T.states
  script : M.script = []
  transitions : M.transitions = T.transitions
  type : ∀ p ∈ T.states, (M.state p).type = (T.state p).type
  parent : ∀ p, (M.state p).parent = (T.state p).parent
  ancestors : ∀ p ∈ T.states, (M.state p).ancestors = (T.state p).ancestors
  completion : ∀ p ∈ T.states, (M.state p).completion = (T.state p).completion
  data : ∀ p, (M.state p).data = (T.state p).data
  onEntry : ∀ p ∈ T.states, (M.state p).onEntry = (T.state p).onEntry
  onExit : ∀ p, (M.state p).onExit = (T.state p).onExit
  invoke : ∀ p ∈ T.states, (M.state p).invoke = [] ∧ (T.state p).invoke = []
  source : ∀ t, (M.transition t).source = (T.trans t).source
  target : ∀ t, (M.transition t).target = (T.trans t).target
  exitSet : ∀ t, (M.transition t).exitSet = (T.trans t).exitSet
  conflicts : ∀ t, (M.transition t).conflicts = (T.trans t).conflicts
  onTrans : ∀ t, (M.transition t).onTrans = (T.trans t).onTrans
  history : ∀ t ∈ T.transitions, (M.transition t).history = (T.trans t).history
  initial : ∀ t ∈ T.transitions, (M.transition t).initial = (T.trans t).initial
  event : ∀ t ∈ T.transitions, (M.transition t).event.getD "" = (T.trans t).event ∧
    ((M.transition t).event = none ↔ (T.trans t).event = "")
  cond : ∀ t ∈ T.transitions, (M.transition t).isEnabled.getD "" = (T.trans t).cond ∧
    ((M.transition t).condition = none ↔ (T.trans t).cond = "")

section Records

variable {d : Document β}

theorem mem_target_iff (hu : d.UniqueIds) (hids : ∀ p ∈ d.states, ∀ i ∈ d.id? p, escape i = i) {t : TransId}
    {s : TreePath} : s ∈ (transition d t).target ↔ s ∈ d.getTargetStates t := by
  rw [transition, getTargetStates]
  cases htarget : (d.trans? t).bind (·.target) with
  | none => simp
  | some targets =>
    simp only [List.mem_toFinset, List.mem_filter, Option.getD_some, List.mem_filterMap, getState_eq_some_iff hu,
      Option.any_eq_true, decide_eq_true_iff]
    constructor
    · rintro ⟨hs, i, hi, hmem⟩
      exact ⟨i, hids s hs i hi ▸ hmem, hi⟩
    · rintro ⟨i, hmem, hi⟩
      have hs := mem_states_of_id hi
      exact ⟨hs, i, hi, (hids s hs i hi).symm ▸ hmem⟩

theorem matchInOrder_toFinset {l : List TreePath} (h : l.Sublist d.states) :
    (FastMicroStep.matchInOrder d.states (l.map some)).toFinset = (d.states.filter fun s => some s ∈ l.map some).toFinset := by
  ext s
  rw [FastMicroStep.matchInOrder_of_sublist h]
  simp only [List.mem_toFinset, List.mem_filter, List.mem_map, Option.some.injEq, exists_eq_right, decide_eq_true_iff]
  exact ⟨fun hs => ⟨h.subset hs, hs⟩, fun hs => hs.2⟩

theorem exists_completion (hd : d.LegalChart) {p : TreePath} (hp : p ∈ d.states) :
    ∃ l : List TreePath, FastMicroStep.getCompletion d p = l.map some ∧ l.Sublist d.states := by
  have hnone : ¬ d.isHistory p = true := fun h => hd.noHistory p (isHistory_iff.mp h)
  have hkids : (d.getChildStates p true).Sublist d.states := List.filter_sublist.trans List.filter_sublist
  rw [FastMicroStep.getCompletion, if_neg hnone]
  split
  · exact ⟨_, rfl, hkids⟩
  rw [FastMicroStep.initialCompletion]
  cases hattr : (d.elem? p).bind (·.initial) with
  | some ids =>
    by_cases hroot : p = []
    · subst hroot
      obtain ⟨l, hl, -, hsorted, hcomp⟩ := hd.rootAttr ids (by simpa [Document.elem?] using hattr)
      have hnodup : l.Nodup := hsorted.imp fun h => ne_of_lt h
      have hsub : l.Subperm d.states := hnodup.subperm fun p hp => (hcomp.1 p hp).mem_states
      exact ⟨l, hl, List.sublist_of_subperm_of_pairwise hsub hsorted d.tree.preorder_pairwise⟩
    · obtain ⟨i, c, rfl, hget, hc⟩ := hd.initialAttr p hp hroot ids hattr
      exact ⟨[c], by simp [getStates, hget], List.singleton_sublist.mpr hc.mem_states⟩
  | none =>
    simp only
    cases hinit : (d.children p).filter fun c => d.tag? c = some .initial with
    | cons init rest =>
      have hmem : init ∈ (d.children p).filter fun c => d.tag? c = some .initial := hinit ▸ List.mem_cons_self
      have htag : d.tag? init = some .initial := by simpa using (List.mem_filter.mp hmem).2
      exact ⟨[init], rfl, List.singleton_sublist.mpr (mem_states_of_tag htag)⟩
    | nil =>
      refine ⟨(d.getChildStates p true).head?.toList, rfl, List.Sublist.trans ?_ hkids⟩
      cases d.getChildStates p true with
      | nil => exact List.nil_sublist _
      | cons c rest => exact List.singleton_sublist.mpr List.mem_cons_self

theorem stateInfo_completion (hd : d.LegalChart) {p : TreePath} (hp : p ∈ d.states) :
    (stateInfo d p).completion = (FastMicroStep.stateInfo d p).completion := by
  obtain ⟨l, hl, hsub⟩ := exists_completion hd hp
  have hnone : ¬ d.isHistory p = true := fun h => hd.noHistory p (isHistory_iff.mp h)
  have hsame : completion d p = l.map some := by
    rw [← hl, completion, FastMicroStep.getCompletion, if_neg hnone, if_neg hnone]
  rw [stateInfo, FastMicroStep.stateInfo, hl, hsame, matchInOrder_toFinset hsub]

theorem stateInfo_ancestors {p : TreePath} (hp : p ∈ d.states) :
    (stateInfo d p).ancestors = (FastMicroStep.stateInfo d p).ancestors := by
  ext a
  rw [mem_stateInfo_ancestors, FastMicroStep.mem_stateInfo_ancestors]
  exact ⟨fun h => h.2, fun h => ⟨mem_states_of_above h.1 hp, h⟩⟩

theorem stateType_eq (ha : WrittenAsRead d) {p : TreePath} (hp : p ∈ d.states) :
    stateType d p = FastMicroStep.stateType d p := by
  have hcond : (d.xmlPrefix = "" ∧ d.tag? p = some .initial) ↔ d.tag? p = some .initial := by
    refine ⟨fun h => h.2, fun h => ⟨?_, h⟩⟩
    rcases ha.initials with hplain | hnone
    · exact hplain
    · exact absurd h (hnone p hp)
  simp only [stateType, FastMicroStep.stateType, hcond]

theorem transition_target (hd : PlainChart d) (t : TransId) :
    (transition d t).target = (FastMicroStep.transitionInfo d t).target := by
  ext s
  rw [mem_target_iff hd.uniqueIds hd.ids, FastMicroStep.mem_target hd.uniqueIds]

theorem transition_exitSet (t : TransId) : (transition d t).exitSet = (FastMicroStep.transitionInfo d t).exitSet := by
  ext s
  rw [FastMicroStep.mem_exitSet]
  simp only [transition, List.mem_toFinset, List.mem_filter, decide_eq_true_iff]
  exact ⟨fun h => h.2, fun h => ⟨(FastMicroStep.getExitSet_sublist t).subset h, h⟩⟩

theorem source_mem {t : TransId} (ht : t ∈ FastMicroStep.postFixTransitions d) : t.1 ∈ d.states ∧ t ∈ d.transIds t.1 := by
  obtain ⟨p, hp, htp⟩ := List.mem_flatMap.mp ht
  have hsource : t.1 = p := by
    obtain ⟨k, -, rfl⟩ := List.mem_map.mp htp
    rfl
  rw [hsource]
  exact ⟨RoseTree.mem_postorder.mp hp, htp⟩

/-- An attribute that is not empty is there exactly when its text is. -/
theorem getD_eq_empty_iff {a : Option String} (h : a ≠ some "") : a = none ↔ a.getD "" = "" := by
  cases a with
  | none => simp
  | some text => simpa using h

theorem agree (hd : PlainChart d) (ha : WrittenAsRead d) : Agree (machine d) (FastMicroStep.tables d) where
  states := rfl
  script := by
    rw [machine, hd.scripts]
    rfl
  transitions := rfl
  type _ hp := stateType_eq ha hp
  parent _ := rfl
  ancestors _ hp := stateInfo_ancestors hp
  completion _ hp := stateInfo_completion hd.toLegalChart hp
  data _ := rfl
  onEntry p _ := by
    show FastMicroStep.refs (.onEntry p) _ = if p = [] then _ else _
    split
    · rename_i hroot
      subst hroot
      have hentry : (d.elem? []).elim 0 (·.onEntry.length) = 0 := by simp [Document.elem?, ha.rootEntry]
      have hscript : (d.elem? []).elim 0 (·.script.length) = 0 := by simp [Document.elem?, hd.scripts]
      rw [hentry, hscript]
      rfl
    · rfl
  onExit _ := rfl
  invoke p hp := by
    have hnone : FastMicroStep.refs (.invoke p) ((d.elem? p).elim 0 (·.invoke.length)) = [] := by
      rw [hd.invokes p hp]
      rfl
    exact ⟨hnone, hnone⟩
  source _ := rfl
  target t := transition_target hd t
  exitSet t := transition_exitSet t
  conflicts _ := rfl
  onTrans _ := rfl
  history t _ := by
    have hnone : d.tag? t.1 ≠ some .history := hd.noHistory t.1
    simp [machine, transition, FastMicroStep.tables, FastMicroStep.transitionInfo, hnone]
  initial t ht := by
    show decide (d.xmlPrefix = "" ∧ d.tag? t.1 = some .initial) = decide (d.tag? t.1 = some .initial)
    rcases ha.initials with hplain | hnone
    · simp [hplain]
    · simp [hnone t.1 (source_mem ht).1]
  event t ht := by
    obtain ⟨hsource, hmem⟩ := source_mem ht
    exact ⟨rfl, getD_eq_empty_iff (ha.events t.1 hsource t hmem)⟩
  cond t ht := by
    obtain ⟨hsource, hmem⟩ := source_mem ht
    refine ⟨rfl, ?_⟩
    show (if hasNativeDataModel d then none else (d.trans? t).bind (·.cond)) = none ↔ _
    have hcond := getD_eq_empty_iff (ha.conds t.1 hsource t hmem)
    split
    · rename_i hnative
      rw [hasNativeDataModel, decide_eq_true_iff] at hnative
      exact ⟨fun _ => hcond.mp (ha.conditions hnative t.1 hsource t hmem), fun _ => rfl⟩
    · exact hcond

end Records

/-! ### The walk over the entry set -/

section Walk

variable {d : Document β} {C X targets H : Finset TreePath} {N : TreePath → Prop}

/-- A set that is closed under ancestors holds a descendant only together with a child. -/
theorem disjoint_children_iff {S : Finset TreePath} (hS : ∀ x ∈ S, ∀ a, x.Below a → a ∈ S) (hmem : ∀ x ∈ S, x ∈ d.states)
    (i : TreePath) : Disjoint S (stateInfo d i).children ↔ Disjoint S (FastMicroStep.stateInfo d i).children := by
  rw [Finset.disjoint_left, Finset.disjoint_left]
  constructor
  · intro h x hx hbelow
    obtain ⟨k, hk⟩ := TreePath.exists_child_of_below (FastMicroStep.mem_stateInfo_children.mp hbelow).2
    have hchild : i ++ [k] ∈ S := by
      rcases TreePath.below_or_eq_of_prefix hk with heq | hb
      · exact heq ▸ hx
      · exact hS x hx _ hb
    refine h hchild (mem_stateInfo_children.mpr ⟨hmem _ hchild, by simp, ?_⟩)
    rw [TreePath.parent_concat]
  · intro h x hx hchild
    obtain ⟨hstate, hne, hparent⟩ := mem_stateInfo_children.mp hchild
    exact h hx (FastMicroStep.mem_stateInfo_children.mpr ⟨hstate, TreePath.below_of_parent_eq hne hparent⟩)

variable (hd : PlainChart d) (hi : d.InitialsFirst) (hr : d.Region C X targets N)

include hr

theorem region_closed : ∀ x ∈ C, ∀ a, x.Below a → a ∈ C := fun x hx a ha => (hr.legal ⟨x, hx⟩).ancestor x hx a ha

/-- Both conditions for the completion of a compound state say the same: when something below it is exited, either its
child is exited, or a target lies below it. -/
theorem completes_iff {E : Finset TreePath} (hE : d.Entering C targets N E) {i : TreePath} (hiE : i ∈ E)
    (hcomp : d.isCompound i = true) : (Disjoint E (stateInfo d i).children ∧
      (Disjoint C (stateInfo d i).children ∨ ¬ Disjoint X (stateInfo d i).children)) ↔ N i ∧ ¬ HasBelow E i := by
  rw [← FastMicroStep.completes_iff hr hE hiE hcomp, disjoint_children_iff hE.closed hE.mem_states,
    disjoint_children_iff (region_closed hr) (FastMicroStep.Region_mem_states hr)]
  refine and_congr_right ?_
  intro hnone
  have hC : ∀ x ∈ X, x ∈ C ∧ N x := fun x hx => (hr.exit x).mp hx
  constructor
  · rintro (h | h)
    · exact Or.inl h
    · rw [Finset.not_disjoint_iff] at h
      obtain ⟨x, hx, hchild⟩ := h
      obtain ⟨hstate, hne, hparent⟩ := mem_stateInfo_children.mp hchild
      refine Or.inr (Finset.not_disjoint_iff.mpr ⟨x, hx, ?_⟩)
      exact FastMicroStep.mem_stateInfo_children.mpr ⟨hstate, TreePath.below_of_parent_eq hne hparent⟩
  · rintro (h | h)
    · exact Or.inl h
    · obtain ⟨x, hx, hdesc⟩ := Finset.not_disjoint_iff.mp h
      have hbelow := (FastMicroStep.mem_stateInfo_children.mp hdesc).2
      by_cases hN : N i
      · obtain ⟨k, hk⟩ := TreePath.exists_child_of_below hbelow
        have hchild : i ++ [k] ∈ C := by
          rcases TreePath.below_or_eq_of_prefix hk with heq | hb
          · exact heq ▸ (hC x hx).1
          · exact region_closed hr x (hC x hx).1 _ hb
        have hbelow' : (i ++ [k]).Below i := TreePath.below_of_parent_eq (by simp) (TreePath.parent_concat i k)
        have hexit : i ++ [k] ∈ X := (hr.exit _).mpr ⟨hchild, hr.below i _ hN hbelow'⟩
        refine Or.inr (Finset.not_disjoint_iff.mpr ⟨_, hexit, mem_stateInfo_children.mpr ⟨?_, by simp, ?_⟩⟩)
        · exact FastMicroStep.Region_mem_states hr _ hchild
        · rw [TreePath.parent_concat]
      · rw [FastMicroStep.disjoint_children hE.mem_states] at hnone
        exact absurd (hE.reach i (hr.target_below (hC x hx).2 hbelow hN)) hnone

include hd hi

theorem enterCompound_eq {E : Finset TreePath} (hE : d.Entering C targets N E) {i : TreePath} (hiE : i ∈ E)
    (hcomp : d.isCompound i = true) : FastMicroStep.enterCompound (machine d).tables C X i E =
      FastMicroStep.enterCompound (FastMicroStep.tables d) C X i E := by
  have hstate := hE.mem_states i hiE
  have hfast := FastMicroStep.completes_iff hr hE hiE hcomp
  have hgen := completes_iff hr hE hiE hcomp
  have hadds : ∀ T : Tables, (Disjoint E (T.state i).children ∧
      (Disjoint C (T.state i).children ∨ ¬ Disjoint X (T.state i).children)) →
      ¬ Disjoint (T.state i).completion (T.state i).children →
      FastMicroStep.enterCompound T C X i E = E ∪ (T.state i).completion :=
    fun T h h' => (if_pos h).trans (if_neg h')
  have hkeeps : ∀ T : Tables, ¬ (Disjoint E (T.state i).children ∧
      (Disjoint C (T.state i).children ∨ ¬ Disjoint X (T.state i).children)) →
      FastMicroStep.enterCompound T C X i E = E := fun T h => if_neg h
  by_cases hgo : N i ∧ ¬ HasBelow E i
  · obtain ⟨c, hc, hne, hparent, hkind⟩ := FastMicroStep.completion_compound hd.toLegalChart hi hcomp
      (FastMicroStep.ne_nil_of_completes hd.toLegalChart hr hE hgo)
    have hmem : c ∈ d.states := by
      rcases hkind with h | h
      · exact h.mem_states
      · exact mem_states_of_tag h.1
    have hsame : (stateInfo d i).completion = (FastMicroStep.stateInfo d i).completion :=
      stateInfo_completion hd.toLegalChart hstate
    have hchild : ¬ Disjoint (stateInfo d i).completion (stateInfo d i).children := by
      rw [hsame, hc, Finset.disjoint_singleton_left, not_not]
      exact mem_stateInfo_children.mpr ⟨hmem, hne, hparent⟩
    have hdesc : ¬ Disjoint (FastMicroStep.stateInfo d i).completion (FastMicroStep.stateInfo d i).children := by
      rw [hc, Finset.disjoint_singleton_left, not_not]
      exact FastMicroStep.mem_stateInfo_children.mpr ⟨hmem, TreePath.below_of_parent_eq hne hparent⟩
    rw [hadds (machine d).tables (hgen.mpr hgo) hchild, hadds (FastMicroStep.tables d) (hfast.mpr hgo) hdesc]
    exact congrArg (E ∪ ·) hsame
  · rw [hkeeps (machine d).tables fun h => hgo (hgen.mp h), hkeeps (FastMicroStep.tables d) fun h => hgo (hfast.mp h)]

omit hr hi in
theorem enterInitial_eq (ha : WrittenAsRead d) (i : TreePath) (e : Entry) :
    FastMicroStep.enterInitial (machine d).tables i e = FastMicroStep.enterInitial (FastMicroStep.tables d) i e := by
  have hagree := agree hd ha
  rw [FastMicroStep.enterInitial, FastMicroStep.enterInitial]
  refine List.foldl_congr_of_invariant (fun _ => True) (fun _ _ _ _ => trivial) ?_ trivial
  intro e j _ _
  have htarget : ((machine d).tables.trans j).target = ((FastMicroStep.tables d).trans j).target := hagree.target j
  rw [htarget]
  congr 1
  refine List.foldl_congr_of_invariant (fun _ => True) (fun _ _ _ _ => trivial) ?_ trivial
  intro es k hk _
  exact congrArg (es ∪ ·) (hagree.ancestors k (FastMicroStep.mem_behind.mp hk).1)

theorem descend_eq (ha : WrittenAsRead d) {e : Entry} (hE : d.Entering C targets N e.entrySet) (i : TreePath) :
    FastMicroStep.descend (machine d).tables C X H e i = FastMicroStep.descend (FastMicroStep.tables d) C X H e i := by
  have hg := hd.toGrammar
  have hagree := agree hd ha
  by_cases hiE : i ∈ e.entrySet
  case neg => rw [FastMicroStep.descend, FastMicroStep.descend, if_neg hiE, if_neg hiE]
  have hstate := hE.mem_states i hiE
  have htype : ((machine d).tables.state i).type = FastMicroStep.stateType d i := hagree.type i hstate
  have htype' : ((FastMicroStep.tables d).state i).type = FastMicroStep.stateType d i := rfl
  have hcompletion : ((machine d).tables.state i).completion = ((FastMicroStep.tables d).state i).completion :=
    hagree.completion i hstate
  obtain ⟨hcompound, -, hhistory, -⟩ := FastMicroStep.kind_of_stateType hstate
  rw [FastMicroStep.descend, FastMicroStep.descend, if_pos hiE, if_pos hiE, htype, htype']
  cases hs : FastMicroStep.stateType d i with
  | final => rfl
  | atomic => rfl
  | parallel => simp only [hcompletion]
  | historyShallow => exact absurd (isHistory_iff.mp (hhistory (Or.inl hs))) (hd.noHistory i)
  | historyDeep => exact absurd (isHistory_iff.mp (hhistory (Or.inr hs))) (hd.noHistory i)
  | initial => exact enterInitial_eq hd ha i e
  | compound => simp only [enterCompound_eq hd hi hr hE hiE (hcompound hs)]

omit hr hi in
theorem addAncestors_eq (ha : WrittenAsRead d) (S : Finset TreePath) :
    FastMicroStep.addAncestors (machine d).tables S = FastMicroStep.addAncestors (FastMicroStep.tables d) S := by
  refine List.foldl_congr_of_invariant (fun _ => True) (fun _ _ _ _ => trivial) ?_ trivial
  intro es i hstate _
  have hancestors : ((machine d).tables.state i).ancestors = ((FastMicroStep.tables d).state i).ancestors :=
    (agree hd ha).ancestors i hstate
  rw [hancestors]

/-- Both walks end with the same entry set. -/
theorem establishEntrySet_eq (ha : WrittenAsRead d) (transSet : Finset TransId) :
    FastMicroStep.establishEntrySet (machine d).tables C X H targets transSet =
      FastMicroStep.establishEntrySet (FastMicroStep.tables d) C X H targets transSet := by
  have hstart : d.Entering C targets N (FastMicroStep.addAncestors (FastMicroStep.tables d) targets) := by
    refine hr.entering_start hd.toGrammar fun e => FastMicroStep.mem_addAncestors ?_
    intro t ht
    rcases (hr.target t ht).2 with h | h
    · exact h.mem_states
    · exact mem_states_of_tag h.1
  rw [FastMicroStep.establishEntrySet, FastMicroStep.establishEntrySet, addAncestors_eq hd ha]
  refine List.foldl_congr_of_invariant (fun e : Entry => d.Entering C targets N e.entrySet) ?_ ?_ hstart
  · intro e i _ hE
    exact (FastMicroStep.descend_spec hd.toLegalChart hi hr hE i).entering
  · intro e i _ hE
    exact descend_eq hd hi hr ha hE i

omit hr hi in
theorem rememberHistory_eq (ha : WrittenAsRead d) (C X H : Finset TreePath) :
    FastMicroStep.rememberHistory (machine d).tables C X H = FastMicroStep.rememberHistory (FastMicroStep.tables d) C X H := by
  refine List.foldl_congr_of_invariant (fun _ => True) (fun _ _ _ _ => trivial) ?_ trivial
  intro history i hstate _
  have hagree := agree hd ha
  have htype : ((machine d).tables.state i).type = ((FastMicroStep.tables d).state i).type := hagree.type i hstate
  have hparent : ((machine d).tables.state i).parent = ((FastMicroStep.tables d).state i).parent := hagree.parent i
  have hcompletion : ((machine d).tables.state i).completion = ((FastMicroStep.tables d).state i).completion :=
    hagree.completion i hstate
  rw [htype, hparent, hcompletion]

end Walk

end ChartToC

end Uscxml
