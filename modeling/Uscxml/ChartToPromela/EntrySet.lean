import Uscxml.ChartToC.Tables
import Uscxml.FastMicroStep.Step
import Uscxml.Legal
import Uscxml.Lib.Fold

/-!
# The entry set of the Promela model

The block `ESTABLISH_ENTRY_SET` as `ChartToPromela::writeFSMEstablishEntrySet` emits it, over the tables of
`ChartToC::prepare` that the generated C reads as well. The `if` of Promela has one guard for every type of a state, and
a state has one type. The text follows that of the generated C but for two places: behind an `<initial>` the loop over
the targets ends at the first state that is no target, and the test in front of the deep completion has lost its
negation.
-/

namespace Uscxml

namespace ChartToPromela

open FastMicroStep (Entry enterDefault addNestedHistories addAncestors behind)

section Block

variable (T : Tables)

def after (i : TreePath) : List TreePath := T.states.filter fun k => i < k

def enterHistory (config history : Finset TreePath) (i : TreePath) (e : Entry) : Entry :=
  if Disjoint (T.state i).completion history ∧ (T.state i).parent ∉ config then enterDefault T i e
  else
    let entrySet := e.entrySet ∪ ((T.state i).completion ∩ history)
    { e with
      entrySet :=
        if (T.state i).hasHistory ∨ (T.state i).type = .historyDeep then addNestedHistories T i entrySet else entrySet }

def enterInitial (i : TreePath) (e : Entry) : Entry :=
  (T.transitions.filter fun j => (T.trans j).source = i).foldl (fun e j =>
    { transSet := insert j e.transSet
      -- `:: else -> break` leaves the loop at the first state that is no target.
      entrySet := ((after T i).takeWhile fun k => k ∈ (T.trans j).target).foldl (fun es k => es ∪ (T.state k).ancestors)
        (e.entrySet.erase i ∪ (T.trans j).target) }) e

def enterCompound (config exitSet : Finset TreePath) (i : TreePath) (entrySet : Finset TreePath) : Finset TreePath :=
  let s := T.state i
  if Disjoint entrySet s.children ∧ (Disjoint config s.children ∨ ¬ Disjoint exitSet s.children) then
    let es := entrySet ∪ s.completion
    if ¬ Disjoint s.completion s.children then
      -- `j` starts at `i + 1` and is increased before it is used.
      match (after T i).tail.find? fun j => j ∈ s.completion with
      | none => es
      | some j => es ∪ (T.state j).ancestors
    else es
  else entrySet

/-- Iterate for descendants: the body of the loop. -/
def descend (config exitSet history : Finset TreePath) (e : Entry) (i : TreePath) : Entry :=
  if i ∈ e.entrySet then
    match (T.state i).type with
    | .final | .atomic => e
    | .parallel => { e with entrySet := e.entrySet ∪ (T.state i).completion }
    | .historyShallow | .historyDeep => enterHistory T config history i e
    | .initial => enterInitial T i e
    | .compound => { e with entrySet := enterCompound T config exitSet i e.entrySet }
  else e

def establishEntrySet (config exitSet history targetSet : Finset TreePath) (transSet : Finset TransId) : Entry :=
  T.states.foldl (descend T config exitSet history) { entrySet := addAncestors T targetSet, transSet }

/-- No `initial` attribute and no `<initial>` names a state deeper than a child. -/
def Shallow : Prop :=
  (∀ i ∈ T.states, (T.state i).type = .compound → (T.state i).completion ⊆ (T.state i).children) ∧
    ∀ t ∈ T.transitions, (T.state (T.trans t).source).type = .initial →
      (T.trans t).target ⊆ (T.state (T.state (T.trans t).source).parent).children

instance : Decidable (Shallow T) := inferInstanceAs (Decidable (_ ∧ _))

theorem foldl_ancestors_eq {l : List TreePath} {es : Finset TreePath} (h : ∀ k ∈ l, (T.state k).ancestors ⊆ es) :
    l.foldl (fun es k => es ∪ (T.state k).ancestors) es = es := by
  refine List.foldl_invariant (fun es' => es' = es) ?_ rfl
  rintro _ k hk rfl
  exact Finset.union_eq_left.mpr (h k hk)

/-- Does a compound state in the entry set get its completion? -/
def Incomplete (config exitSet es : Finset TreePath) (i : TreePath) : Prop :=
  Disjoint es (T.state i).children ∧ (Disjoint config (T.state i).children ∨ ¬ Disjoint exitSet (T.state i).children)

instance (config exitSet es : Finset TreePath) (i : TreePath) : Decidable (Incomplete T config exitSet es i) :=
  inferInstanceAs (Decidable (_ ∧ _))

variable {config exitSet es : Finset TreePath} {i : TreePath}

theorem fast_enterCompound_of_not (h : ¬ Incomplete T config exitSet es i) :
    FastMicroStep.enterCompound T config exitSet i es = es := if_neg h

theorem enterCompound_of_not (h : ¬ Incomplete T config exitSet es i) : enterCompound T config exitSet i es = es := if_neg h

/-- The generated C looks for ancestors when no child is in the completion, -/
theorem fast_enterCompound_of_child (h : Incomplete T config exitSet es i)
    (hchild : ¬ Disjoint (T.state i).completion (T.state i).children) :
    FastMicroStep.enterCompound T config exitSet i es = es ∪ (T.state i).completion :=
  (if_pos h).trans (if_neg hchild)

theorem fast_enterCompound_of_deep (h : Incomplete T config exitSet es i)
    (hdeep : Disjoint (T.state i).completion (T.state i).children) :
    FastMicroStep.enterCompound T config exitSet i es = es ∪ (T.state i).completion ∪
      (behind T i (T.state i).completion).head?.elim ∅ fun j => (T.state j).ancestors := by
  refine (if_pos h).trans ((if_pos hdeep).trans ?_)
  cases behind T i (T.state i).completion with
  | nil => simp
  | cons j l => rfl

/-- and Promela when one is. -/
theorem enterCompound_of_child (h : Incomplete T config exitSet es i)
    (hchild : ¬ Disjoint (T.state i).completion (T.state i).children) :
    enterCompound T config exitSet i es = es ∪ (T.state i).completion ∪
      ((after T i).tail.find? fun j => j ∈ (T.state i).completion).elim ∅ fun j => (T.state j).ancestors := by
  refine (if_pos h).trans ((if_pos hchild).trans ?_)
  cases (after T i).tail.find? fun j => j ∈ (T.state i).completion with
  | none => simp
  | some j => rfl

theorem enterCompound_of_deep (h : Incomplete T config exitSet es i)
    (hdeep : Disjoint (T.state i).completion (T.state i).children) :
    enterCompound T config exitSet i es = es ∪ (T.state i).completion :=
  (if_pos h).trans (if_neg (not_not_intro hdeep))

/-- Both agree on a state whose completion is a child, when the ancestors of its children are there. -/
theorem enterCompound_eq (hi : (T.state i).completion ⊆ (T.state i).children)
    (hanc : ∀ j ∈ (T.state i).children, (T.state j).ancestors ⊆ es) :
    enterCompound T config exitSet i es = FastMicroStep.enterCompound T config exitSet i es := by
  by_cases h : Incomplete T config exitSet es i
  · by_cases hdeep : Disjoint (T.state i).completion (T.state i).children
    · have hnone : (T.state i).completion = ∅ := Finset.disjoint_self_iff_empty _ |>.mp (hdeep.mono_right hi)
      rw [enterCompound_of_deep T h hdeep, fast_enterCompound_of_deep T h hdeep]
      simp [behind, hnone]
    · rw [enterCompound_of_child T h hdeep, fast_enterCompound_of_child T h hdeep, Finset.union_eq_left]
      cases hfind : (after T i).tail.find? fun j => j ∈ (T.state i).completion with
      | none => exact Finset.empty_subset _
      | some j =>
        have hmem : j ∈ (T.state i).completion := by simpa using List.find?_some hfind
        exact (hanc j (hi hmem)).trans Finset.subset_union_left
  · rw [enterCompound_of_not T h, fast_enterCompound_of_not T h]

/-- A compound state gets its completion or stays as it is. -/
theorem fast_enterCompound_cases (hi : (T.state i).completion ⊆ (T.state i).children) :
    FastMicroStep.enterCompound T config exitSet i es = es ∨
      FastMicroStep.enterCompound T config exitSet i es = es ∪ (T.state i).completion := by
  by_cases h : Incomplete T config exitSet es i
  · right
    by_cases hdeep : Disjoint (T.state i).completion (T.state i).children
    · have hnone : (T.state i).completion = ∅ := Finset.disjoint_self_iff_empty _ |>.mp (hdeep.mono_right hi)
      rw [fast_enterCompound_of_deep T h hdeep]
      simp [behind, hnone]
    · exact fast_enterCompound_of_child T h hdeep
  · exact Or.inl (fast_enterCompound_of_not T h)

/-- The targets whose ancestors the generated C adds, and those of Promela. -/
def targetsBehind (i : TreePath) (j : TransId) : List TreePath := behind T i (T.trans j).target

def targetRun (i : TreePath) (j : TransId) : List TreePath := (after T i).takeWhile fun k => k ∈ (T.trans j).target

theorem mem_target_of_targetsBehind {j : TransId} : ∀ k ∈ targetsBehind T i j, k ∈ (T.trans j).target :=
  fun _ hk => (FastMicroStep.mem_behind.mp hk).2.2

theorem mem_target_of_targetRun {j : TransId} : ∀ k ∈ targetRun T i j, k ∈ (T.trans j).target := by
  intro k hk
  have h := List.mem_takeWhile_imp hk
  exact of_decide_eq_true h

/-- One transition of an `<initial>`, with the list `l` of the targets whose ancestors are added. -/
def initialRound (i : TreePath) (l : TransId → List TreePath) (e : Entry) (j : TransId) : Entry where
  transSet := insert j e.transSet
  entrySet := (l j).foldl (fun es k => es ∪ (T.state k).ancestors) (e.entrySet.erase i ∪ (T.trans j).target)

theorem enterInitial_eq_rounds (i : TreePath) (e : Entry) :
    enterInitial T i e = (T.transitions.filter fun j => (T.trans j).source = i).foldl
      (initialRound T i (targetRun T i)) e := rfl

theorem fast_enterInitial_eq_rounds (i : TreePath) (e : Entry) :
    FastMicroStep.enterInitial T i e = (T.transitions.filter fun j => (T.trans j).source = i).foldl
      (initialRound T i (targetsBehind T i)) e := rfl

theorem subset_fast_enterCompound : es ⊆ FastMicroStep.enterCompound T config exitSet i es := by
  by_cases h : Incomplete T config exitSet es i
  · by_cases hdeep : Disjoint (T.state i).completion (T.state i).children
    · rw [fast_enterCompound_of_deep T h hdeep, Finset.union_assoc]
      exact Finset.subset_union_left
    · rw [fast_enterCompound_of_child T h hdeep]
      exact Finset.subset_union_left
  · rw [fast_enterCompound_of_not T h]

theorem mem_initialRound {l : TransId → List TreePath} {e : Entry} {j : TransId} {x : TreePath} :
    x ∈ (initialRound T i l e j).entrySet ↔
      x ≠ i ∧ x ∈ e.entrySet ∨ x ∈ (T.trans j).target ∨ ∃ k ∈ l j, x ∈ (T.state k).ancestors := by
  have hfold : ∀ (l : List TreePath) (es : Finset TreePath),
      x ∈ l.foldl (fun es k => es ∪ (T.state k).ancestors) es ↔ x ∈ es ∨ ∃ k ∈ l, x ∈ (T.state k).ancestors := by
    intro l
    induction l with
    | nil => simp
    | cons k l ih =>
      intro es
      rw [List.foldl_cons, ih, Finset.mem_union, List.exists_mem_cons_iff, or_assoc]
  rw [initialRound, hfold, Finset.mem_union, Finset.mem_erase, or_assoc]

end Block

variable {β : Type} {d : Document β}

/-! ### The tables of a document -/

section Tables

open Document ChartToC

theorem type_initial {p : TreePath} (h : (stateInfo d p).type = .initial) : d.tag? p = some .initial := by
  simp only [stateInfo, ChartToC.stateType] at h
  split at h
  · rename_i h'
    exact h'.2
  · repeat' split at h
    all_goals cases h

theorem type_history {p : TreePath} (hd : ∀ p ∈ d.states, d.tag? p ≠ some .history)
    (h : (stateInfo d p).type = .historyShallow ∨ (stateInfo d p).type = .historyDeep) : False := by
  have hnot : d.isHistory p = false := by
    rw [← Bool.not_eq_true]
    intro hp
    rw [isHistory, decide_eq_true_iff] at hp
    exact hd p (mem_states_of_tag hp) hp
  simp only [stateInfo, ChartToC.stateType, hnot] at h
  rcases h with h | h
  all_goals
    repeat' split at h
    all_goals contradiction

theorem type_parallel {p : TreePath} (h : (stateInfo d p).type = .parallel) : d.isParallel p = true := by
  simp only [stateInfo, ChartToC.stateType] at h
  repeat' split at h
  all_goals first | assumption | cases h

theorem type_compound {p : TreePath} (h : (stateInfo d p).type = .compound) :
    d.isParallel p = false ∧ d.isHistory p = false := by
  simp only [stateInfo, ChartToC.stateType] at h
  repeat' split at h
  all_goals simp_all

theorem mem_completion_parallel (hg : d.Nesting) {p c : TreePath} (h : d.isParallel p = true) :
    c ∈ (stateInfo d p).completion ↔ d.ProperChild p c := by
  have hnot : d.isHistory p = false := by
    rw [isParallel_iff] at h
    simp [isHistory, h]
  simp only [stateInfo, ChartToC.completion, hnot, h, Bool.false_eq_true, if_false, if_true, List.mem_toFinset,
    List.mem_filter, decide_eq_true_iff, List.mem_map, Option.some_inj, exists_eq_right, hg.mem_getChildStates_true]
  exact ⟨fun hc => hc.2, fun hc => ⟨hc.mem_states, hc⟩⟩

def initialStates (d : Document β) (ids : List String) : Finset TreePath :=
  (d.states.filter fun s => some s ∈ d.getStates ids).toFinset

/-- The completion of a state without an `initial` attribute is a child of it. -/
theorem completion_compound {p : TreePath} (h : (stateInfo d p).type = .compound) :
    (∃ ids, (d.elem? p).bind (·.initial) = some ids ∧ (stateInfo d p).completion = initialStates d ids) ∨
      (stateInfo d p).completion ⊆ (stateInfo d p).children := by
  obtain ⟨hpar, hhist⟩ := type_compound h
  have hcompletion : (stateInfo d p).completion =
      (d.states.filter fun s => some s ∈ FastMicroStep.initialCompletion d p).toFinset := by
    simp [stateInfo, ChartToC.completion, hpar, hhist]
  rw [hcompletion]
  cases hids : (d.elem? p).bind (·.initial) with
  | some ids =>
    refine Or.inl ⟨ids, rfl, ?_⟩
    rw [FastMicroStep.initialCompletion, hids, initialStates]
  | none =>
    right
    intro s hs
    rw [List.mem_toFinset, List.mem_filter, decide_eq_true_iff, FastMicroStep.initialCompletion, hids] at hs
    rw [mem_stateInfo_children, ← mem_children]
    simp only at hs
    split at hs
    · rename_i init rest hinit
      have hmem : init ∈ (d.children p).filter fun c => d.tag? c = some .initial := by
        rw [hinit]
        exact List.mem_cons_self
      simp only [List.mem_singleton, Option.some_inj] at hs
      rw [hs.2]
      exact (List.mem_filter.mp hmem).1
    · simp only [List.mem_map, Option.mem_toList, Option.some_inj, exists_eq_right] at hs
      exact (List.mem_filter.mp (List.mem_of_mem_head? hs.2)).1

/-- The members that are states have their ancestors in the set. -/
def Closed (d : Document β) (es : Finset TreePath) : Prop := ∀ e ∈ es, e ∈ d.states → ∀ a, e.Below a → a ∈ es

/-- A member of the first entry set is a target, or stands above a target. -/
theorem mem_addAncestors {targets : Finset TreePath} {e : TreePath} (h : e ∈ addAncestors (machine d).tables targets) :
    e ∈ targets ∨ ∃ t ∈ targets, t ∈ d.states ∧ t.Below e := by
  suffices hall : ∀ e ∈ addAncestors (machine d).tables targets,
      e ∈ targets ∨ ∃ t ∈ targets, t ∈ d.states ∧ t.Below e by
    exact hall e h
  refine List.foldl_invariant
    (fun es : Finset TreePath => ∀ e ∈ es, e ∈ targets ∨ ∃ t ∈ targets, t ∈ d.states ∧ t.Below e) ?_ fun e he => Or.inl he
  intro es i hi hes e he
  split at he
  · rename_i hies
    rcases Finset.mem_union.mp he with he | he
    · exact hes e he
    · have hbelow := (mem_stateInfo_ancestors.mp he).2
      rcases hes i hies with h | ⟨t, ht, hts, hti⟩
      · exact Or.inr ⟨i, h, hi, hbelow⟩
      · exact Or.inr ⟨t, ht, hts, hti.trans hbelow⟩
  · exact hes e he

theorem subset_addAncestors (T : Tables) (targets : Finset TreePath) : targets ⊆ addAncestors T targets := by
  intro x hx
  refine List.foldl_invariant (fun es : Finset TreePath => x ∈ es) ?_ hx
  intro es i _ hes
  split
  · exact Finset.mem_union_left _ hes
  · exact hes

theorem closed_addAncestors (d : Document β) (targets : Finset TreePath) :
    Closed d (addAncestors (machine d).tables targets) := by
  have hkeep : ∀ x : TreePath, ∀ es : Finset TreePath, ∀ i ∈ d.states,
      x ∈ es → x ∈ (if i ∈ es then es ∪ (stateInfo d i).ancestors else es) := by
    intro x es i _ hx
    split
    · exact Finset.mem_union_left _ hx
    · exact hx
  have habove : ∀ t ∈ targets, t ∈ d.states → ∀ a, t.Below a → a ∈ addAncestors (machine d).tables targets := by
    intro t ht hts a ha
    refine List.foldl_establish (fun es : Finset TreePath => t ∈ es) (fun es => a ∈ es) (hkeep t) (hkeep a) hts ?_ ht
    intro es htes
    simp only [if_pos htes]
    exact Finset.mem_union_right _ (mem_stateInfo_ancestors.mpr ⟨mem_states_of_above ha.1 hts, ha⟩)
  intro e he hes a ha
  rcases mem_addAncestors he with h | ⟨t, ht, hts, hte⟩
  · exact habove e h hes a ha
  · exact habove t ht hts a (hte.trans ha)

theorem Closed.union_children {es F : Finset TreePath} (h : Closed d es) {p : TreePath} (hp : p ∈ es) (hps : p ∈ d.states)
    (hF : F ⊆ (stateInfo d p).children) : Closed d (es ∪ F) := by
  intro e he hes a ha
  refine Finset.mem_union_left _ ?_
  rcases Finset.mem_union.mp he with he | he
  · exact h e he hes a ha
  · obtain ⟨-, hne, hparent⟩ := mem_stateInfo_children.mp (hF he)
    rcases TreePath.below_or_eq_of_prefix (TreePath.prefix_parent_of_below ha) with heq | hb
    · rw [← heq, hparent]
      exact hp
    · rw [hparent] at hb
      exact h p hp hps a hb

theorem Closed.ancestors_subset {es : Finset TreePath} (h : Closed d es) {p k : TreePath} (hp : p ∈ es) (hps : p ∈ d.states)
    (hk : k ∈ (stateInfo d p).children) : (stateInfo d k).ancestors ⊆ es := by
  intro a ha
  obtain ⟨-, hne, hparent⟩ := mem_stateInfo_children.mp hk
  have hka := (mem_stateInfo_ancestors.mp ha).2
  rcases TreePath.below_or_eq_of_prefix (TreePath.prefix_parent_of_below hka) with heq | hb
  · rw [← heq, hparent]
    exact hp
  · rw [hparent] at hb
    exact h p hp hps a hb

end Tables

/-! ### Charts whose completions are children -/

section Agree

open Document ChartToC

variable {es : Finset TreePath} {i : TreePath}

/-- The round of one transition of an `<initial>` whose targets are children of the state it stands in. -/
theorem initialRound_eq (hg : d.Nesting) {e : Entry} (hes : Closed d e.entrySet) (htag : d.tag? i = some .initial)
    (hparent : i.parent ∈ e.entrySet) {j : TransId}
    (hF : ((machine d).tables.trans j).target ⊆ (stateInfo d i.parent).children) (l : TransId → List TreePath)
    (hl : ∀ k ∈ l j, k ∈ ((machine d).tables.trans j).target) :
    initialRound (machine d).tables i l e j =
        ⟨e.entrySet.erase i ∪ ((machine d).tables.trans j).target, insert j e.transSet⟩ ∧
      Closed d (e.entrySet.erase i ∪ ((machine d).tables.trans j).target) ∧
      i.parent ∈ e.entrySet.erase i ∪ ((machine d).tables.trans j).target := by
  have his := mem_states_of_tag htag
  have hne : i ≠ [] := by
    rintro rfl
    rw [(hg.root []).mpr rfl] at htag
    cases htag
  have hps : i.parent ∈ d.states := mem_states_of_above (TreePath.below_parent hne).1 his
  have hmem : i.parent ∈ e.entrySet.erase i := Finset.mem_erase.mpr ⟨(TreePath.below_parent hne).ne.symm, hparent⟩
  have herase : Closed d (e.entrySet.erase i) := by
    intro x hx hxs a ha
    refine Finset.mem_erase.mpr ⟨?_, hes x (Finset.mem_of_mem_erase hx) hxs a ha⟩
    -- Nothing stands below an `<initial>`.
    rintro rfl
    rcases hg.tag_of_below hxs ha with h | h | h <;> simp [h] at htag
  refine ⟨?_, herase.union_children hmem hps hF, Finset.mem_union_left _ hmem⟩
  rw [initialRound, foldl_ancestors_eq]
  intro k hk
  exact (herase.ancestors_subset hmem hps (hF (hl k hk))).trans Finset.subset_union_left

theorem enterInitial_eq (hg : d.Nesting) (hs : Shallow (machine d).tables) {e : Entry} (hes : Closed d e.entrySet)
    (htype : (stateInfo d i).type = .initial) (hie : i ∈ e.entrySet) :
    enterInitial (machine d).tables i e = FastMicroStep.enterInitial (machine d).tables i e ∧
      Closed d (FastMicroStep.enterInitial (machine d).tables i e).entrySet := by
  have htag := type_initial htype
  have hne : i ≠ [] := by
    rintro rfl
    rw [(hg.root []).mpr rfl] at htag
    cases htag
  have hparent : i.parent ∈ e.entrySet := hes i hie (mem_states_of_tag htag) _ (TreePath.below_parent hne)
  have htarget : ∀ j ∈ (machine d).tables.transitions.filter (fun j => ((machine d).tables.trans j).source = i),
      ((machine d).tables.trans j).target ⊆ (stateInfo d i.parent).children := by
    intro j hj
    obtain ⟨hj, hsource⟩ := List.mem_filter.mp hj
    rw [decide_eq_true_iff] at hsource
    have := hs.2 j hj (by rw [hsource]; exact htype)
    rw [hsource] at this
    exact this
  have hkeep : ∀ e' : Entry, ∀ j ∈ (machine d).tables.transitions.filter (fun j => ((machine d).tables.trans j).source = i),
      Closed d e'.entrySet ∧ i.parent ∈ e'.entrySet →
      Closed d (initialRound (machine d).tables i (targetsBehind (machine d).tables i) e' j).entrySet ∧
        i.parent ∈ (initialRound (machine d).tables i (targetsBehind (machine d).tables i) e' j).entrySet := by
    intro e' j hj h
    obtain ⟨heq, hclosed⟩ := initialRound_eq hg h.1 htag h.2 (htarget j hj) _ (mem_target_of_targetsBehind _)
    rw [heq]
    exact hclosed
  rw [enterInitial_eq_rounds, fast_enterInitial_eq_rounds]
  refine ⟨?_, (List.foldl_invariant _ hkeep ⟨hes, hparent⟩).1⟩
  refine List.foldl_congr_of_invariant _ hkeep ?_ ⟨hes, hparent⟩
  intro e' j hj h
  rw [(initialRound_eq hg h.1 htag h.2 (htarget j hj) _ (mem_target_of_targetsBehind _)).1,
    (initialRound_eq hg h.1 htag h.2 (htarget j hj) _ (mem_target_of_targetRun _)).1]

/-- One round of the loop for descendants, in a chart without histories. -/
theorem descend_eq (hg : d.Nesting) (hhist : ∀ p ∈ d.states, d.tag? p ≠ some .history) (hs : Shallow (machine d).tables)
    (C X H : Finset TreePath) {e : Entry} (hes : Closed d e.entrySet) (hi : i ∈ d.states) :
    descend (machine d).tables C X H e i = FastMicroStep.descend (machine d).tables C X H e i ∧
      Closed d (FastMicroStep.descend (machine d).tables C X H e i).entrySet := by
  rw [descend, FastMicroStep.descend]
  split
  · rename_i hie
    cases htype : ((machine d).tables.state i).type with
    | final => exact ⟨rfl, hes⟩
    | atomic => exact ⟨rfl, hes⟩
    | parallel =>
      refine ⟨rfl, hes.union_children hie hi ?_⟩
      intro c hc
      have hchild := (mem_completion_parallel hg (type_parallel htype)).mp hc
      exact mem_stateInfo_children.mpr ⟨hchild.mem_states, hchild.1, hchild.2.1⟩
    | historyShallow => exact (type_history hhist (Or.inl htype)).elim
    | historyDeep => exact (type_history hhist (Or.inr htype)).elim
    | initial => exact enterInitial_eq hg hs hes htype hie
    | compound =>
      have hchildren := hs.1 i hi htype
      simp only
      rw [enterCompound_eq _ hchildren (fun j hj => hes.ancestors_subset hie hi hj)]
      refine ⟨rfl, ?_⟩
      rcases fast_enterCompound_cases (machine d).tables hchildren with h | h
      · rw [h]
        exact hes
      · rw [h]
        exact hes.union_children hie hi hchildren
  · exact ⟨rfl, hes⟩

theorem establishEntrySet_eq (hg : d.Nesting) (hhist : ∀ p ∈ d.states, d.tag? p ≠ some .history)
    (hs : Shallow (machine d).tables) (C X H targets : Finset TreePath) (transSet : Finset TransId) :
    establishEntrySet (machine d).tables C X H targets transSet =
      FastMicroStep.establishEntrySet (machine d).tables C X H targets transSet := by
  refine List.foldl_congr_of_invariant (fun e : Entry => Closed d e.entrySet) ?_ ?_ (closed_addAncestors d targets)
  · exact fun e i hi hes => (descend_eq hg hhist hs C X H hes hi).2
  · exact fun e i hi hes => (descend_eq hg hhist hs C X H hes hi).1

end Agree

/-! ### Charts with a deep completion -/

section Differ

open Document ChartToC

/-- A legal specification of states below `p`: some legal configuration holds them, and none stands above another. -/
def Specifies (d : Document β) (p : TreePath) (S : Finset TreePath) : Prop :=
  (∃ C, d.Legal C ∧ S ⊆ C) ∧ ∀ s ∈ S, s.Below p ∧ ∀ s' ∈ S, ¬ s'.Below s

/-- The charts without histories whose `initial` attributes and `<initial>` transitions name legal descendants. -/
structure LegalInitials (d : Document β) : Prop extends Nesting d where
  histories : ∀ p ∈ d.states, d.tag? p ≠ some .history
  initialOnce : ∀ p ∈ d.states, ∀ q ∈ d.states, d.tag? p = some .initial → d.tag? q = some .initial →
    p.parent = q.parent → p = q
  initialPlace : ∀ p ∈ d.states, d.tag? p = some .initial → d.tag? p.parent ≠ some .parallel
  initialTransition : ∀ p ∈ d.states, d.tag? p = some .initial → (d.transitionsAt p).length = 1
  initialTargets : ∀ p ∈ d.states, d.tag? p = some .initial → Specifies d p.parent (transition d (p, 0)).target
  initialAttr : ∀ p ∈ d.states, ∀ ids, (d.elem? p).bind (·.initial) = some ids → Specifies d p (initialStates d ids)

/-- States specified below a state that is not parallel stand below one child of it, unless they are children. -/
theorem Specifies.deep (hg : d.Nesting) {p : TreePath} {S : Finset TreePath} (h : Specifies d p S)
    (hp : d.tag? p ≠ some .parallel) (hS : ¬ S ⊆ (stateInfo d p).children) :
    S.Nonempty ∧ ∃ c, d.ProperChild p c ∧ ∀ s ∈ S, s.Below c := by
  obtain ⟨⟨C, hC, hSC⟩, hbelow⟩ := h
  obtain ⟨k, hk, hnot⟩ := Finset.not_subset.mp hS
  have hchild : ∀ s ∈ S, ∃ c, d.ProperChild p c ∧ c ∈ C ∧ c <+: s := by
    intro s hs
    obtain ⟨n, hn⟩ := TreePath.exists_child_of_below (hbelow s hs).1
    have hmem := hC.above (hSC hs) hn
    have hne : p ++ [n] ≠ [] := by simp
    exact ⟨p ++ [n], ⟨hne, TreePath.parent_concat p n, hC.proper _ hmem hne⟩, hmem, hn⟩
  obtain ⟨c, hc, hcC, hck⟩ := hchild k hk
  have hkc : k.Below c := by
    rcases TreePath.below_or_eq_of_prefix hck with rfl | hb
    · exact absurd (mem_stateInfo_children.mpr ⟨hc.mem_states, hc.1, hc.2.1⟩) hnot
    · exact hb
  refine ⟨⟨k, hk⟩, c, hc, ?_⟩
  intro s hs
  obtain ⟨c', hc', hcC', hcs⟩ := hchild s hs
  obtain ⟨u, -, huniq⟩ := hC.compound p (hC.above hcC hc.below.1) (Or.inr (hg.isCompound_of_child hc hp))
  obtain rfl : c = c' := (huniq c ⟨hcC, hc⟩).trans (huniq c' ⟨hcC', hc'⟩).symm
  rcases TreePath.below_or_eq_of_prefix hcs with rfl | hb
  · exact absurd hkc ((hbelow s hs).2 k hk)
  · exact hb

variable (hd : LegalInitials d)

include hd

theorem type_ne_initial {x : TreePath} (h : d.ProperState x ∨ ∃ y ∈ d.states, y.Below x) :
    (stateInfo d x).type ≠ .initial := by
  intro htype
  have htag := type_initial htype
  rcases h with h | ⟨y, hy, hb⟩
  · rcases properState_iff.mp h with h | h | h <;> simp [h] at htag
  · rcases hd.tag_of_below hy hb with h | h | h <;> simp [h] at htag

theorem Specifies.type_ne_initial {p x : TreePath} {S : Finset TreePath} (h : Specifies d p S) (hx : x ∈ S) :
    (stateInfo d x).type ≠ .initial := by
  obtain ⟨⟨C, hC, hSC⟩, hbelow⟩ := h
  have hne : x ≠ [] := by
    rintro rfl
    exact TreePath.not_nil_below p (hbelow [] hx).1
  exact ChartToPromela.type_ne_initial hd (Or.inl (hC.proper x (hSC hx) hne))

theorem completion_eq_empty_or {i : TreePath} (hi : i ∈ d.states) (htype : (stateInfo d i).type = .compound) :
    (stateInfo d i).completion = ∅ ∨ (stateInfo d i).children.Nonempty := by
  rw [← Finset.not_nonempty_iff_eq_empty]
  by_cases hnone : (stateInfo d i).completion.Nonempty
  · right
    obtain ⟨s, hs⟩ := hnone
    rcases completion_compound htype with ⟨ids, hids, hcompletion⟩ | h
    · rw [hcompletion] at hs
      have hss : s ∈ d.states := by
        rw [initialStates, List.mem_toFinset] at hs
        exact (List.mem_filter.mp hs).1
      obtain ⟨n, hn⟩ := TreePath.exists_child_of_below ((hd.initialAttr i hi ids hids).2 s hs).1
      exact ⟨i ++ [n], mem_stateInfo_children.mpr ⟨mem_states_of_above hn hss, by simp, TreePath.parent_concat i n⟩⟩
    · exact ⟨s, h hs⟩
  · exact Or.inl hnone

/-- An active child that stays keeps a compound state from being completed. -/
theorem inert {i : TreePath} (hi : i ∈ d.states) (htype : (stateInfo d i).type = .compound) {C : Finset TreePath}
    (hC : (stateInfo d i).children ⊆ C) (es : Finset TreePath) :
    enterCompound (machine d).tables C ∅ i es = es ∧ FastMicroStep.enterCompound (machine d).tables C ∅ i es = es := by
  by_cases h : Incomplete (machine d).tables C ∅ es i
  · have hnone : ((machine d).tables.state i).completion = ∅ := by
      refine (completion_eq_empty_or hd hi htype).resolve_right ?_
      rintro ⟨c, hc⟩
      rcases h.2 with h | h
      · exact Finset.disjoint_left.mp h (hC hc) hc
      · exact h (Finset.disjoint_empty_left _)
    have hdeep : Disjoint ((machine d).tables.state i).completion ((machine d).tables.state i).children := by
      rw [hnone]
      exact Finset.disjoint_empty_left _
    rw [enterCompound_of_deep _ h hdeep, fast_enterCompound_of_deep _ h hdeep]
    simp [behind, hnone]
  · exact ⟨enterCompound_of_not _ h, fast_enterCompound_of_not _ h⟩

omit hd in
/-- The entry set holds none of `K`, and every `<initial>` in it is a target. -/
structure Free (d : Document β) (targets K es : Finset TreePath) : Prop where
  absent : Disjoint es K
  initial : ∀ x ∈ es, (stateInfo d x).type = .initial → x ∈ targets

variable {targets es K : Finset TreePath}

omit hd in
theorem Free.union (h : Free d targets K es) {F : Finset TreePath} (hF : Disjoint F K)
    (hinitial : ∀ x ∈ F, (stateInfo d x).type ≠ .initial) : Free d targets K (es ∪ F) := by
  refine ⟨Finset.disjoint_union_left.mpr ⟨h.absent, hF⟩, ?_⟩
  intro x hx htype
  rcases Finset.mem_union.mp hx with hx | hx
  · exact h.initial x hx htype
  · exact absurd htype (hinitial x hx)

/-- A parallel adds neither an `<initial>` nor a child of another state. -/
theorem Free.parallel (h : Free d targets K es) {i : TreePath} (hi : d.isParallel i = true)
    (hK : ∀ c ∈ K, d.tag? c.parent ≠ some .parallel) : Free d targets K (es ∪ (stateInfo d i).completion) := by
  refine h.union ?_ ?_
  · rw [Finset.disjoint_left]
    intro c hmem hc
    have hpar := hK c hc
    rw [((mem_completion_parallel hd.toNesting hi).mp hmem).2.1] at hpar
    exact hpar (isParallel_iff.mp hi)
  · intro x hx
    exact type_ne_initial hd (Or.inl ((mem_completion_parallel hd.toNesting hi).mp hx).2.2)

theorem free_addAncestors (htargets : ∀ t ∈ targets, ∀ c ∈ K, ¬ c <+: t) :
    Free d targets K (addAncestors (machine d).tables targets) := by
  refine ⟨?_, ?_⟩
  · rw [Finset.disjoint_left]
    intro c hmem hc
    rcases mem_addAncestors hmem with h | ⟨t, ht, -, htc⟩
    · exact htargets c h c hc (List.prefix_refl c)
    · exact htargets t ht c hc htc.1
  · intro x hx htype
    rcases mem_addAncestors hx with h | ⟨t, -, hts, htx⟩
    · exact h
    · exact absurd htype (type_ne_initial hd (Or.inr ⟨t, hts, htx⟩))

omit hd in
/-- A transition of an `<initial>` that names none of `K` and has no target directly behind the `<initial>`. -/
theorem Free.initialRound {e : Entry} (h : Free d targets K e.entrySet) {i : TreePath} {j : TransId}
    {l : TransId → List TreePath} (hl : l j = []) (hc : Disjoint (transition d j).target K)
    (hF : ∀ x ∈ (transition d j).target, (stateInfo d x).type ≠ .initial) :
    Free d targets K (initialRound (machine d).tables i l e j).entrySet := by
  rw [ChartToPromela.initialRound, hl]
  have herase : Free d targets K (e.entrySet.erase i) :=
    ⟨h.absent.mono_left (Finset.erase_subset _ _), fun x hx => h.initial x (Finset.mem_of_mem_erase hx)⟩
  exact herase.union hc hF

variable {C H : Finset TreePath} {c i x : TreePath}

/-- A state no round of the Promela loop adds: its parent is not parallel, and compound states and `<initial>`s in the
entry set name neither it nor, directly behind them, a state below it. -/
theorem not_mem_establishEntrySet (hpar : d.tag? c.parent ≠ some .parallel)
    (hcompound : ∀ i ∈ d.states, (stateInfo d i).type = .compound → (stateInfo d i).children ⊆ C ∨
      Disjoint (stateInfo d i).completion (stateInfo d i).children ∧ c ∉ (stateInfo d i).completion ∧
        ∀ x ∈ (stateInfo d i).completion, (stateInfo d x).type ≠ .initial)
    (hinitial : ∀ i ∈ targets, (stateInfo d i).type = .initial →
      ∀ j ∈ (machine d).tables.transitions.filter (fun j => ((machine d).tables.trans j).source = i),
      targetRun (machine d).tables i j = [] ∧ c ∉ (transition d j).target ∧
        ∀ x ∈ (transition d j).target, (stateInfo d x).type ≠ .initial)
    (htargets : ∀ t ∈ targets, ¬ c <+: t) (transSet : Finset TransId) :
    c ∉ (establishEntrySet (machine d).tables C ∅ H targets transSet).entrySet := by
  have hstart : Free d targets {c} (addAncestors (machine d).tables targets) := by
    refine free_addAncestors hd ?_
    intro t ht c' hc'
    rw [Finset.mem_singleton.mp hc']
    exact htargets t ht
  suffices h : Free d targets {c} (establishEntrySet (machine d).tables C ∅ H targets transSet).entrySet by
    exact Finset.disjoint_singleton_right.mp h.absent
  refine List.foldl_invariant (fun e : Entry => Free d targets {c} e.entrySet) ?_ hstart
  intro e i hi h
  rw [descend]
  split
  · rename_i hie
    cases htype : ((machine d).tables.state i).type with
    | final => exact h
    | atomic => exact h
    | historyShallow => exact (type_history hd.histories (Or.inl htype)).elim
    | historyDeep => exact (type_history hd.histories (Or.inr htype)).elim
    | parallel =>
      refine h.parallel hd (type_parallel htype) ?_
      intro c' hc'
      rw [Finset.mem_singleton.mp hc']
      exact hpar
    | initial =>
      refine List.foldl_invariant (fun e : Entry => Free d targets {c} e.entrySet) ?_ h
      intro e' j hj h'
      obtain ⟨hrun, hc, hF⟩ := hinitial i (h.initial i hie htype) htype j hj
      exact h'.initialRound hrun (Finset.disjoint_singleton_right.mpr hc) hF
    | compound =>
      simp only
      rcases hcompound i hi htype with hC | ⟨hdeep, hc, hF⟩
      · rw [(inert hd hi htype hC _).1]
        exact h
      · by_cases hinc : Incomplete (machine d).tables C ∅ e.entrySet i
        · rw [enterCompound_of_deep _ hinc hdeep]
          exact h.union (Finset.disjoint_singleton_right.mpr hc) hF
        · rw [enterCompound_of_not _ hinc]
          exact h
  · exact h

/-- The generated C takes nothing out of the entry set but the `<initial>` it treats. -/
theorem mem_fast_descend {X : Finset TreePath} {e : Entry} (hx : x ∈ e.entrySet)
    (hne : x = i → (stateInfo d i).type ≠ .initial) : x ∈ (FastMicroStep.descend (machine d).tables C X H e i).entrySet := by
  rw [FastMicroStep.descend]
  split
  · cases htype : ((machine d).tables.state i).type with
    | final => exact hx
    | atomic => exact hx
    | historyShallow => exact (type_history hd.histories (Or.inl htype)).elim
    | historyDeep => exact (type_history hd.histories (Or.inr htype)).elim
    | parallel => exact Finset.mem_union_left _ hx
    | compound => exact subset_fast_enterCompound _ hx
    | initial =>
      have hxi : x ≠ i := fun h => hne h htype
      simp only
      rw [fast_enterInitial_eq_rounds]
      refine List.foldl_invariant (fun e : Entry => x ∈ e.entrySet) ?_ hx
      intro e' j _ hx'
      exact (mem_initialRound (machine d).tables).mpr (Or.inl ⟨hxi, hx'⟩)
  · exact hx

theorem mem_fast_descend_of_type {X : Finset TreePath} {e : Entry} (hx : x ∈ e.entrySet) (htype : (stateInfo d x).type ≠ .initial) :
    x ∈ (FastMicroStep.descend (machine d).tables C X H e i).entrySet := by
  refine mem_fast_descend hd hx ?_
  rintro rfl
  exact htype

/-- The generated C enters the child `c` above the deep completion of `i`, when all children of other states are
active. -/
theorem mem_of_deep_completion (hi : i ∈ d.states) (htype : (stateInfo d i).type = .compound) (hchild : d.ProperChild i c)
    (hne : (stateInfo d i).completion.Nonempty) (hbelow : ∀ s ∈ (stateInfo d i).completion, s ∈ d.states ∧ s.Below c)
    (hC : ∀ p, p ≠ i → (stateInfo d p).children ⊆ C) (hiC : Disjoint C (stateInfo d i).children)
    (transSet : Finset TransId) :
    c ∈ (FastMicroStep.establishEntrySet (machine d).tables C ∅ H {i} transSet).entrySet := by
  have hdeep : Disjoint (stateInfo d i).completion (stateInfo d i).children := by
    rw [Finset.disjoint_left]
    intro s hs hsi
    have hpre := TreePath.prefix_parent_of_below (hbelow s hs).2
    rw [(mem_stateInfo_children.mp hsi).2.2] at hpre
    exact hchild.below.2 (TreePath.prefix_antisymm hchild.below.1 hpre)
  have hci : c ≠ i := hchild.below.ne
  have hctype : (stateInfo d c).type ≠ .initial := type_ne_initial hd (Or.inl hchild.2.2)
  have hround : ∀ e : Entry, i ∈ e.entrySet → Disjoint e.entrySet (stateInfo d i).children →
      c ∈ (FastMicroStep.descend (machine d).tables C ∅ H e i).entrySet := by
    intro e hie hdisj
    have ht : ((machine d).tables.state i).type = .compound := htype
    rw [FastMicroStep.descend, if_pos hie, ht]
    simp only
    rw [fast_enterCompound_of_deep _ ⟨hdisj, Or.inl hiC⟩ hdeep]
    refine Finset.mem_union_right _ ?_
    obtain ⟨s, hs⟩ := hne
    have hmem : s ∈ behind (machine d).tables i ((machine d).tables.state i).completion :=
      FastMicroStep.mem_behind.mpr ⟨(hbelow s hs).1, ((hbelow s hs).2.trans hchild.below).lt, hs⟩
    cases hlist : behind (machine d).tables i ((machine d).tables.state i).completion with
    | nil => simp [hlist] at hmem
    | cons k l =>
      have hk : k ∈ (stateInfo d i).completion :=
        (FastMicroStep.mem_behind.mp (hlist ▸ List.mem_cons_self : k ∈ behind (machine d).tables i _)).2.2
      exact mem_stateInfo_ancestors.mpr ⟨hchild.mem_states, (hbelow k hk).2⟩
  have hkeep : ∀ e : Entry, ∀ p ∈ d.states, c ∈ e.entrySet →
      c ∈ (FastMicroStep.descend (machine d).tables C ∅ H e p).entrySet :=
    fun e p _ hce => mem_fast_descend_of_type hd hce hctype
  refine List.foldl_establish (fun e : Entry => c ∈ e.entrySet ∨ i ∈ e.entrySet ∧ Free d ∅ (stateInfo d i).children e.entrySet)
    (fun e => c ∈ e.entrySet) ?_ hkeep hi ?_ ?_
  · rintro e p hp (hce | ⟨hie, hfree⟩)
    · exact Or.inl (hkeep e p hp hce)
    by_cases hpi : p = i
    · subst hpi
      exact Or.inl (hround e hie hfree.absent)
    refine Or.inr ⟨mem_fast_descend hd hie fun h => absurd h.symm hpi, ?_⟩
    rw [FastMicroStep.descend]
    split
    · rename_i hpe
      cases hptype : ((machine d).tables.state p).type with
      | final => exact hfree
      | atomic => exact hfree
      | historyShallow => exact (type_history hd.histories (Or.inl hptype)).elim
      | historyDeep => exact (type_history hd.histories (Or.inr hptype)).elim
      | initial => exact absurd (hfree.initial p hpe hptype) (Finset.notMem_empty p)
      | parallel =>
        refine hfree.parallel hd (type_parallel hptype) ?_
        intro x hx
        rw [(mem_stateInfo_children.mp hx).2.2]
        have hpar := (type_compound htype).1
        rw [← Bool.not_eq_true, isParallel_iff] at hpar
        exact hpar
      | compound =>
        simp only
        rw [(inert hd hp hptype (hC p hpi) _).2]
        exact hfree
    · exact hfree
  · rintro e (hce | ⟨hie, hfree⟩)
    · exact mem_fast_descend hd hce fun h => absurd h hci
    · exact hround e hie hfree.absent
  · refine Or.inr ⟨subset_addAncestors _ _ (Finset.mem_singleton_self i), ?_⟩
    have hfree : Free d {i} (stateInfo d i).children (addAncestors (machine d).tables {i}) := by
      refine free_addAncestors hd ?_
      intro t ht x hx hxt
      rw [Finset.mem_singleton.mp ht] at hxt
      obtain ⟨-, hne, hparent⟩ := mem_stateInfo_children.mp hx
      have hb := TreePath.below_of_parent_eq hne hparent
      exact hb.ne (TreePath.prefix_antisymm hxt hb.1)
    refine ⟨hfree.absent, ?_⟩
    intro x hx hxtype
    rw [Finset.mem_singleton.mp (hfree.initial x hx hxtype), htype] at hxtype
    cases hxtype

omit hd in
theorem mem_states_of_target {t : TransId} {s : TreePath} (hs : s ∈ (transition d t).target) : s ∈ d.states := by
  simp only [transition] at hs
  split at hs
  · exact (List.mem_filter.mp (List.mem_toFinset.mp hs)).1
  · exact absurd hs (Finset.notMem_empty s)

theorem initial_transitions (htag : d.tag? i = some .initial) :
    ((machine d).tables.transitions.filter fun j => ((machine d).tables.trans j).source = i) = [(i, 0)] := by
  have hfilter := FastMicroStep.filter_postFixTransitions (d := d) i
  rw [transIds, hd.initialTransition i (mem_states_of_tag htag) htag] at hfilter
  exact hfilter

omit hd in
/-- A proper sibling of an `<initial>` in front, and what is below it, stands behind the `<initial>`. -/
theorem initial_lt (htag : d.tag? i = some .initial) (hfirst : i = i.parent ++ [0]) (hchild : d.ProperChild i.parent c)
    (hcx : c <+: x) : i < x := by
  obtain ⟨hcne, hparent, hc⟩ := hchild
  have hb : x.Below i.parent := TreePath.Below.prefix_trans hcx (TreePath.below_of_parent_eq hcne hparent)
  rw [hfirst]
  refine TreePath.first_child_lt hb ?_
  rw [← hfirst]
  intro hix
  have hine : i ≠ [] := by
    rw [hfirst]
    simp
  have hci : c = i := TreePath.eq_of_prefix_of_parent_eq hcx hix hcne hine hparent
  rcases properState_iff.mp hc with h | h | h <;> simp [hci, htag] at h

/-- The generated C enters the child `c` above the targets of an `<initial>`. -/
theorem mem_of_deep_target (htype : (stateInfo d i).type = .initial) (hfirst : i = i.parent ++ [0])
    (hchild : d.ProperChild i.parent c) (hne : (transition d (i, 0)).target.Nonempty)
    (hbelow : ∀ s ∈ (transition d (i, 0)).target, s.Below c) (transSet : Finset TransId) :
    c ∈ (FastMicroStep.establishEntrySet (machine d).tables C ∅ H {i} transSet).entrySet := by
  have htag := type_initial htype
  have hctype : (stateInfo d c).type ≠ .initial := type_ne_initial hd (Or.inl hchild.2.2)
  have hround : ∀ e : Entry, i ∈ e.entrySet → c ∈ (FastMicroStep.descend (machine d).tables C ∅ H e i).entrySet := by
    intro e hie
    have ht : ((machine d).tables.state i).type = .initial := htype
    rw [FastMicroStep.descend, if_pos hie, ht]
    simp only
    rw [fast_enterInitial_eq_rounds, initial_transitions hd htag, List.foldl_cons, List.foldl_nil, mem_initialRound]
    obtain ⟨k, hk⟩ := hne
    have hks := mem_states_of_target hk
    have hlt : i < k := initial_lt htag hfirst hchild (hbelow k hk).1
    exact Or.inr (Or.inr ⟨k, FastMicroStep.mem_behind.mpr ⟨hks, hlt, hk⟩,
      mem_stateInfo_ancestors.mpr ⟨hchild.mem_states, hbelow k hk⟩⟩)
  have hkeep : ∀ e : Entry, ∀ p ∈ d.states, c ∈ e.entrySet →
      c ∈ (FastMicroStep.descend (machine d).tables C ∅ H e p).entrySet :=
    fun e p _ hce => mem_fast_descend_of_type hd hce hctype
  have hmem : i ∈ d.states := mem_states_of_tag htag
  refine List.foldl_establish (fun e : Entry => c ∈ e.entrySet ∨ i ∈ e.entrySet) (fun e => c ∈ e.entrySet) ?_ hkeep hmem ?_
    (Or.inr (subset_addAncestors _ _ (Finset.mem_singleton_self i)))
  · rintro e p hp (hce | hie)
    · exact Or.inl (hkeep e p hp hce)
    · by_cases hpi : p = i
      · subst hpi
        exact Or.inl (hround e hie)
      · exact Or.inr (mem_fast_descend hd hie fun h => absurd h.symm hpi)
  · rintro e (hce | hie)
    · exact hkeep e i hmem hce
    · exact hround e hie

omit hd in
/-- When all targets of an `<initial>` stand below a sibling of it, none of them directly follows the `<initial>`. -/
theorem targetRun_eq_nil (htag : d.tag? i = some .initial) (hfirst : i = i.parent ++ [0])
    (hchild : d.ProperChild i.parent c) (hbelow : ∀ s ∈ (transition d (i, 0)).target, s.Below c) :
    targetRun (machine d).tables i (i, 0) = [] := by
  have hsorted : (after (machine d).tables i).Pairwise (· < ·) := d.tree.preorder_pairwise.filter _
  have hic : i < c := initial_lt htag hfirst hchild (List.prefix_refl c)
  have hmem : c ∈ after (machine d).tables i := List.mem_filter.mpr ⟨hchild.mem_states, by simpa using hic⟩
  rw [targetRun]
  cases hl : after (machine d).tables i with
  | nil => rfl
  | cons f l =>
    rw [List.takeWhile_cons_of_neg]
    rw [decide_eq_true_iff]
    intro hf
    have hcf : c < f := (hbelow f hf).lt
    rw [hl] at hmem hsorted
    rcases List.mem_cons.mp hmem with rfl | hmem
    · exact lt_irrefl _ hcf
    · exact lt_asymm hcf (List.rel_of_pairwise_cons hsorted hmem)

/-- Where both entry sets are always the same, no completion of a compound state is deep, -/
theorem completion_subset_of_eq
    (h : ∀ C X H targets transSet, establishEntrySet (machine d).tables C X H targets transSet =
      FastMicroStep.establishEntrySet (machine d).tables C X H targets transSet)
    (hi : i ∈ d.states) (htype : (stateInfo d i).type = .compound) :
    (stateInfo d i).completion ⊆ (stateInfo d i).children := by
  by_contra hnot
  have hpar : d.tag? i ≠ some .parallel := by
    have := (type_compound htype).1
    rwa [← Bool.not_eq_true, isParallel_iff] at this
  obtain ⟨ids, hids, hcompletion⟩ := (completion_compound htype).resolve_right hnot
  have hspec : Specifies d i (stateInfo d i).completion := hcompletion ▸ hd.initialAttr i hi ids hids
  obtain ⟨hne, c, hchild, hbelow⟩ := hspec.deep hd.toNesting hpar hnot
  have hstates : ∀ s ∈ (stateInfo d i).completion, s ∈ d.states := by
    intro s hs
    rw [hcompletion, initialStates, List.mem_toFinset] at hs
    exact (List.mem_filter.mp hs).1
  -- Of all states only the children of `i` are inactive, so that `i` alone is completed.
  have hC : ∀ p, p ≠ i → (stateInfo d p).children ⊆ d.states.toFinset \ (stateInfo d i).children := by
    intro p hp x hx
    obtain ⟨hxs, hxne, hxp⟩ := mem_stateInfo_children.mp hx
    refine Finset.mem_sdiff.mpr ⟨List.mem_toFinset.mpr hxs, ?_⟩
    intro hxi
    exact hp (hxp.symm.trans (mem_stateInfo_children.mp hxi).2.2)
  have hin := mem_of_deep_completion (H := ∅) hd hi htype hchild hne (fun s hs => ⟨hstates s hs, hbelow s hs⟩) hC
    Finset.sdiff_disjoint ∅
  rw [← h] at hin
  refine not_mem_establishEntrySet hd ?_ ?_ ?_ ?_ ∅ hin
  · rw [hchild.2.1]
    exact hpar
  · intro p hp hptype
    by_cases hpi : p = i
    · subst hpi
      refine Or.inr ⟨?_, fun hc => TreePath.not_below_self c (hbelow c hc), fun x hx => hspec.type_ne_initial hd hx⟩
      rw [Finset.disjoint_left]
      intro s hs hsi
      have hpre := TreePath.prefix_parent_of_below (hbelow s hs)
      rw [(mem_stateInfo_children.mp hsi).2.2] at hpre
      exact hchild.below.2 (TreePath.prefix_antisymm hchild.below.1 hpre)
    · exact Or.inl (hC p hpi)
  · intro t ht httype
    rw [Finset.mem_singleton.mp ht, htype] at httype
    cases httype
  · intro t ht hct
    rw [Finset.mem_singleton.mp ht] at hct
    exact hchild.below.ne (TreePath.prefix_antisymm hct hchild.below.1)

/-- and neither are the targets of an `<initial>`. -/
theorem target_subset_of_eq (hfirst : ∀ p k, d.tag? (p ++ [k]) = some .initial → d.tag? (p ++ [0]) = some .initial)
    (h : ∀ C X H targets transSet, establishEntrySet (machine d).tables C X H targets transSet =
      FastMicroStep.establishEntrySet (machine d).tables C X H targets transSet)
    (htype : (stateInfo d i).type = .initial) : (transition d (i, 0)).target ⊆ (stateInfo d i.parent).children := by
  by_contra hnot
  have htag := type_initial htype
  have hi : i ∈ d.states := mem_states_of_tag htag
  have hpar := hd.initialPlace i hi htag
  have hspec := hd.initialTargets i hi htag
  obtain ⟨hne, c, hchild, hbelow⟩ := hspec.deep hd.toNesting hpar hnot
  have hine : i ≠ [] := by
    rintro rfl
    rw [(hd.root []).mpr rfl] at htag
    cases htag
  have hfirst' : i = i.parent ++ [0] := by
    obtain ⟨k, hk⟩ := TreePath.eq_parent_concat hine
    have hzero := hfirst i.parent k (hk ▸ htag)
    exact hd.initialOnce i hi _ (mem_states_of_tag hzero) htag hzero (TreePath.parent_concat _ _).symm
  -- When all states are active no compound state is completed.
  have hin := mem_of_deep_target (C := d.states.toFinset) (H := ∅) hd htype hfirst' hchild hne hbelow ∅
  rw [← h] at hin
  refine not_mem_establishEntrySet hd ?_ ?_ ?_ ?_ ∅ hin
  · rw [hchild.2.1]
    exact hpar
  · intro p _ _
    left
    intro x hx
    exact List.mem_toFinset.mpr (mem_stateInfo_children.mp hx).1
  · intro t ht _ j hj
    obtain rfl := Finset.mem_singleton.mp ht
    rw [initial_transitions hd htag, List.mem_singleton] at hj
    subst hj
    exact ⟨targetRun_eq_nil htag hfirst' hchild hbelow, fun hc => TreePath.not_below_self c (hbelow c hc),
      fun x hx => hspec.type_ne_initial hd hx⟩
  · intro t ht hct
    rw [Finset.mem_singleton.mp ht] at hct
    have hci : c = i := TreePath.eq_of_prefix_of_parent_eq hct (List.prefix_refl i) hchild.1 hine hchild.2.1
    rcases properState_iff.mp hchild.2.2 with h | h | h <;> simp [hci, htag] at h

end Differ

open ChartToC in
/-- Promela and C enter the same states through the same `<initial>` transitions, whatever the configuration, the exit set
and the targets are, exactly for the charts in which no `initial` names a state deeper than a child. -/
theorem establishEntrySet_eq_iff {d : Document β} (hd : LegalInitials (ChartToC.resortStates d)) :
    (∀ config exitSet history targetSet transSet,
      establishEntrySet (prepare d).tables config exitSet history targetSet transSet =
        FastMicroStep.establishEntrySet (prepare d).tables config exitSet history targetSet transSet) ↔
      Shallow (prepare d).tables := by
  constructor
  · intro h
    refine ⟨fun i hi htype => completion_subset_of_eq hd h hi htype, ?_⟩
    intro t ht (htype : (stateInfo (ChartToC.resortStates d) t.1).type = .initial)
    have htag := type_initial htype
    have hmem : t ∈ [(t.1, 0)] := by
      rw [← initial_transitions hd htag]
      exact List.mem_filter.mpr ⟨ht, decide_eq_true rfl⟩
    have hfirst : ∀ p k, (ChartToC.resortStates d).tag? (p ++ [k]) = some .initial →
        (ChartToC.resortStates d).tag? (p ++ [0]) = some .initial := by
      intro p k
      rw [resortStates_eq]
      exact resortStates_initial_first d
    have hsub := target_subset_of_eq hd hfirst h htype
    rw [← List.mem_singleton.mp hmem] at hsub
    exact hsub
  · exact fun h C X H targets transSet => establishEntrySet_eq hd.toNesting hd.histories h C X H targets transSet

/-- A state whose attribute names the child `b` or the grandchild `c`. -/
def nested (initial : String) : Document Unit where
  tree :=
    { root := { tag := .scxml }
      kids := .cons { tag := .state, id := some "a", initial := some [initial] }
        (.cons { tag := .state, id := some "b" } (.cons { tag := .state, id := some "c" } .nil .nil) .nil) .nil }

theorem nested_legal {initial : String} (h : initial = "b" ∨ initial = "c") :
    LegalInitials (ChartToC.resortStates (nested initial)) := by
  have hattr : ∀ p ∈ (ChartToC.resortStates (nested initial)).states,
      ((ChartToC.resortStates (nested initial)).elem? p).bind (·.initial) = none ∨ p = [0] := by
    rcases h with rfl | rfl <;> decide +kernel
  have hspec : Specifies (ChartToC.resortStates (nested initial)) [0]
      (initialStates (ChartToC.resortStates (nested initial)) [initial]) := by
    refine ⟨⟨{[], [0], [0, 0], [0, 0, 0]}, ?_⟩, ?_⟩
    all_goals rcases h with rfl | rfl <;> decide +kernel
  have hnone : ∀ p ∈ (ChartToC.resortStates (nested initial)).states,
      (ChartToC.resortStates (nested initial)).tag? p ≠ some .initial := by
    rcases h with rfl | rfl <;> decide +kernel
  have hnamed : ((ChartToC.resortStates (nested initial)).elem? [0]).bind (·.initial) = some [initial] := by
    rcases h with rfl | rfl <;> decide +kernel
  exact
    { rootTag := by rcases h with rfl | rfl <;> decide +kernel
      nested := by rcases h with rfl | rfl <;> decide +kernel
      child := by rcases h with rfl | rfl <;> decide +kernel
      histories := by rcases h with rfl | rfl <;> decide +kernel
      initialOnce := fun p hp _ _ htag => absurd htag (hnone p hp)
      initialPlace := fun p hp htag => absurd htag (hnone p hp)
      initialTransition := fun p hp htag => absurd htag (hnone p hp)
      initialTargets := fun p hp htag => absurd htag (hnone p hp)
      initialAttr := by
        intro p hp ids hids
        rcases hattr p hp with hnone | rfl
        · rw [hnone] at hids
          cases hids
        · obtain rfl := Option.some.inj (hnamed.symm.trans hids)
          exact hspec }

/-- Both agree when the attribute names the child. -/
theorem establishEntrySet_eq_nested :
    establishEntrySet (ChartToC.prepare (nested "b")).tables ∅ ∅ ∅ {[0]} ∅ =
      FastMicroStep.establishEntrySet (ChartToC.prepare (nested "b")).tables ∅ ∅ ∅ {[0]} ∅ :=
  (establishEntrySet_eq_iff (nested_legal (Or.inl rfl))).mpr (by decide +kernel) ∅ ∅ ∅ {[0]} ∅

/-- When it names the grandchild, the model leaves out the state in between. -/
theorem nested_entry_differs :
    LegalInitials (ChartToC.resortStates (nested "c")) ∧
      (FastMicroStep.establishEntrySet (ChartToC.prepare (nested "c")).tables ∅ ∅ ∅ {[0]} ∅).entrySet =
        {[], [0], [0, 0], [0, 0, 0]} ∧
      (establishEntrySet (ChartToC.prepare (nested "c")).tables ∅ ∅ ∅ {[0]} ∅).entrySet = {[], [0], [0, 0, 0]} :=
  ⟨nested_legal (Or.inr rfl), by decide +kernel, by decide +kernel⟩

end ChartToPromela

end Uscxml
