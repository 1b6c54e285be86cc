import Uscxml.Debug.InterpreterIssue
import Uscxml.FastMicroStep.LegalConfiguration

/-!
# Charts without issues

What the absence of issues says about a document. With what the validator takes on trust it is enough for every run of the
microstepper to go through legal configurations only.
-/

namespace Uscxml

variable {β : Type}

namespace Document

variable {d : Document β}

/-- The validator has no more than informations for the document. -/
def Validated (d : Document β) (name : Option String) : Prop :=
  ∃ issues, d.forInterpreter name = some issues ∧ ∀ i ∈ issues, i.severity = .info

theorem mem_nodeSet {p : TreePath} {tag : Tag} : p ∈ d.nodeSet tag ↔ p ≠ [] ∧ d.tag? p = some tag := by
  rw [nodeSet, List.mem_filter, decide_eq_true_iff]
  exact ⟨fun h => h.2, fun h => ⟨mem_states_of_tag h.2, h⟩⟩

theorem mem_allStates {p : TreePath} :
    p ∈ d.allStates ↔ p ≠ [] ∧
      (d.tag? p = some .state ∨ d.tag? p = some .parallel ∨ d.tag? p = some .history ∨ d.tag? p = some .final) := by
  simp only [allStates, List.mem_append, mem_nodeSet]
  tauto

/-! ### The loop over the states -/

theorem seenStates_checkState {name name' : Option String} {reachable reachable' : List TreePath} {acc acc' : Seen}
    (h : acc.seenStates = acc'.seenStates) (p : TreePath) :
    (d.checkState name reachable acc p).seenStates = (d.checkState name' reachable' acc' p).seenStates := by
  simp only [checkState, h]
  split
  · split
    · exact h
    · rfl
  · split
    · rfl
    · split <;> rfl

/-- The states found do not depend on the name of the document and on what is reachable. -/
theorem seenStates_checkStates (name : Option String) (reachable : List TreePath) :
    (d.checkStates name reachable).seenStates = (d.checkStates none []).seenStates := by
  suffices h : ∀ (l : List TreePath) (acc acc' : Seen), acc.seenStates = acc'.seenStates →
      (l.foldl (d.checkState name reachable) acc).seenStates = (l.foldl (d.checkState none []) acc').seenStates by
    exact h _ _ _ rfl
  intro l
  induction l with
  | nil => exact fun _ _ h => h
  | cons p l ih => exact fun acc acc' h => ih _ _ (seenStates_checkState h p)

/-- What a round that finds no more than informations does: it passes over a final state without an id or adds the state
under an id that is new. -/
theorem checkState_of_info {name : Option String} {reachable : List TreePath} {acc : Seen} {p : TreePath}
    (h : ∀ i ∈ (d.checkState name reachable acc p).issues, i.severity = .info) :
    (d.tag? p = some .final ∧ d.id? p = none ∧ d.checkState name reachable acc p = acc) ∨
      ∃ stateId, d.id? p = some stateId ∧ acc.seenStates.lookup stateId = none ∧
        (d.checkState name reachable acc p).seenStates = acc.seenStates ++ [(stateId, p)] := by
  simp only [checkState] at h ⊢
  cases hid : d.id? p with
  | none =>
    rw [hid] at h
    simp only at h ⊢
    split at h
    · rename_i hfinal
      exact Or.inl ⟨hfinal, trivial, if_pos hfinal⟩
    · exact absurd (h _ (List.mem_append_right _ (List.mem_singleton_self _))) (by simp)
  | some stateId =>
    rw [hid] at h
    simp only at h ⊢
    split at h
    · exact absurd (h _ (List.mem_append_right _ (List.mem_singleton_self _))) (by simp)
    rename_i hempty
    split at h
    · exact absurd (h _ (List.mem_append_right _ (List.mem_singleton_self _))) (by simp)
    rename_i hnew
    rw [Bool.not_eq_true, Option.isSome_eq_false_iff, Option.isNone_iff_eq_none] at hnew
    refine Or.inr ⟨stateId, rfl, hnew, ?_⟩
    rw [if_neg hempty, if_neg (by simp [hnew])]

theorem issues_checkState {name : Option String} {reachable : List TreePath} {acc : Seen} {p : TreePath} {i : Issue}
    (h : i ∈ acc.issues) : i ∈ (d.checkState name reachable acc p).issues := by
  simp only [checkState]
  grind

theorem foldl_checkState_of_info {name : Option String} {reachable : List TreePath} {l : List TreePath} {acc : Seen}
    (h : ∀ i ∈ (l.foldl (d.checkState name reachable) acc).issues, i.severity = .info) :
    (∀ p ∈ l, (d.tag? p = some .final ∧ d.id? p = none) ∨
      ∃ stateId, d.id? p = some stateId ∧
        (l.foldl (d.checkState name reachable) acc).seenStates.lookup stateId = some p) ∧
    (∀ stateId p, acc.seenStates.lookup stateId = some p →
      (l.foldl (d.checkState name reachable) acc).seenStates.lookup stateId = some p) ∧
    ∀ stateId p, (l.foldl (d.checkState name reachable) acc).seenStates.lookup stateId = some p →
      acc.seenStates.lookup stateId = some p ∨ p ∈ l ∧ d.id? p = some stateId := by
  induction l generalizing acc with
  | nil => exact ⟨List.forall_mem_nil _, fun _ _ h => h, fun _ _ h => Or.inl h⟩
  | cons p l ih =>
    rw [List.foldl_cons] at h ⊢
    obtain ⟨hl, hkeep, hfrom⟩ := ih h
    have hround : ∀ i ∈ (d.checkState name reachable acc p).issues, i.severity = .info :=
      fun i hi => h i (List.foldl_invariant (fun s : Seen => i ∈ s.issues) (fun _ _ _ h => issues_checkState h) hi)
    rcases checkState_of_info hround with ⟨hfinal, hid, heq⟩ | ⟨stateId, hid, hnew, hseen⟩
    · rw [heq] at hkeep hfrom
      refine ⟨List.forall_mem_cons.mpr ⟨Or.inl ⟨hfinal, hid⟩, hl⟩, by rwa [heq], ?_⟩
      intro stateId q hq
      rw [heq] at hq
      exact (hfrom stateId q hq).imp_right fun h => ⟨List.mem_cons_of_mem p h.1, h.2⟩
    · have hlookup : ∀ i, (d.checkState name reachable acc p).seenStates.lookup i =
          (acc.seenStates.lookup i).or (if i = stateId then some p else none) := by
        intro i
        rw [hseen, List.lookup_append]
        by_cases hi : i = stateId
        · simp [hi]
        · simp [hi, List.lookup_cons, beq_eq_false_iff_ne.mpr hi]
      refine ⟨List.forall_mem_cons.mpr ⟨Or.inr ⟨stateId, hid, hkeep stateId p ?_⟩, hl⟩, ?_, ?_⟩
      · simp [hlookup, hnew]
      · exact fun i q hq => hkeep i q (by simp [hlookup, hq])
      · intro i q hq
        rcases hfrom i q hq with h | h
        · rw [hlookup, Option.or_eq_some_iff] at h
          rcases h with h | ⟨-, h⟩
          · exact Or.inl h
          · split at h
            · rename_i hi
              cases h
              exact Or.inr ⟨List.mem_cons_self, hi ▸ hid⟩
            · cases h
        · exact Or.inr ⟨List.mem_cons_of_mem p h.1, h.2⟩

/-- In a validated document the states carry different ids, by which they are found. -/
theorem Validated.seen_spec {name : Option String} (h : d.Validated name) :
    (∀ p ∈ d.allStates, ∀ stateId, d.id? p = some stateId → d.seen stateId = some p) ∧
      ∀ stateId p, d.seen stateId = some p → p ∈ d.allStates ∧ d.id? p = some stateId := by
  obtain ⟨issues, hissues, hinfo⟩ := h
  obtain ⟨reachable, -, rfl⟩ := Option.map_eq_some_iff.mp hissues
  have hround : ∀ i ∈ (d.checkStates name reachable).issues, i.severity = .info :=
    fun i hi => hinfo i (by simp [hi])
  obtain ⟨hall, -, hfrom⟩ := foldl_checkState_of_info hround
  change (∀ p ∈ d.allStates, (d.tag? p = some .final ∧ d.id? p = none) ∨
    ∃ stateId, d.id? p = some stateId ∧ (d.checkStates name reachable).seenStates.lookup stateId = some p) at hall
  change ∀ stateId p, (d.checkStates name reachable).seenStates.lookup stateId = some p → _ at hfrom
  rw [seenStates_checkStates] at hall hfrom
  constructor
  · intro p hp stateId hid
    rcases hall p hp with ⟨-, hnone⟩ | ⟨i, hi, hlookup⟩
    · rw [hid] at hnone
      cases hnone
    · rw [hid] at hi
      cases hi
      exact hlookup
  · intro stateId p hp
    exact (hfrom stateId p hp).resolve_left (by simp)

theorem Validated.silent {name : Option String} (h : d.Validated name) :
    d.targetIssues name = [] ∧ d.initialAttrIssues = [] ∧ d.illegalTargetIssues = [] ∧ d.initialIssues = [] ∧
      d.parentIssues = [] := by
  obtain ⟨issues, hissues, hinfo⟩ := h
  obtain ⟨reachable, -, rfl⟩ := Option.map_eq_some_iff.mp hissues
  simp only [List.mem_append] at hinfo
  have hempty : ∀ {l : List Issue} {severity : IssueSeverity}, (∀ i ∈ l, i.severity = .info) →
      (∀ i ∈ l, i.severity = severity) → severity ≠ .info → l = [] := by
    intro l severity hall hsev hne
    rw [List.eq_nil_iff_forall_not_mem]
    exact fun i hi => hne ((hsev i hi).symm.trans (hall i hi))
  refine ⟨?_, ?_, ?_, ?_, ?_⟩
  · exact hempty (fun i hi => hinfo i (by simp [hi])) (fun _ => targetIssues_severity) (by decide)
  · exact hempty (fun i hi => hinfo i (by simp [hi])) (fun _ => initialAttrIssues_severity) (by decide)
  · exact hempty (fun i hi => hinfo i (by simp [hi])) (fun _ => illegalTargetIssues_severity) (by decide)
  · exact hempty (fun i hi => hinfo i (by simp [hi])) (fun _ => initialIssues_severity) (by decide)
  · exact hempty (fun i hi => hinfo i (by simp [hi])) (fun _ => parentIssues_severity) (by decide)

/-! ### Where elements stand -/

theorem parentIssue_eq_nil {localName : String} {p : TreePath} {node : IssueNode} (h : d.parentIssue localName p node = []) :
    (validParents localName).contains ((d.tag? p).elim "" Tag.localName) = true := by
  simp only [parentIssue] at h
  by_contra hno
  rw [if_neg hno] at h
  cases h

theorem Validated.parents {name : Option String} (h : d.Validated name) :
    d.elementIssues d.allStates = [] ∧ d.childIssues "transition" (·.transitions.length) .transition = [] ∧
      d.elementIssues (d.nodeSet .initial) = [] := by
  have hparents := h.silent.2.2.2.2
  simp only [parentIssues, List.append_eq_nil_iff] at hparents
  exact ⟨hparents.1.1.1.1.1.1.1.1, hparents.1.1.1.1.1.1.2, hparents.1.1.1.1.1.2⟩

theorem validParents_eq (tag : Tag) : validParents tag.localName =
    match tag with
    | .scxml => []
    | .state | .parallel => ["scxml", "state", "parallel"]
    | .final => ["scxml", "state"]
    | .initial => ["state"]
    | .history => ["state", "parallel"] := by
  cases tag <;> decide +kernel

theorem validParents_transition : validParents "transition" = ["state", "parallel", "initial", "history"] := by
  decide +kernel

theorem parent_of_state {tag : Tag} {parent : Option Tag}
    (h : (validParents tag.localName).contains (parent.elim "" Tag.localName) = true) :
    parent = some .scxml ∨ parent = some .state ∨ parent = some .parallel := by
  rw [validParents_eq] at h
  cases parent with
  | none => cases tag <;> simp at h
  | some parent => cases tag <;> cases parent <;> simp [Tag.localName] at h ⊢

theorem parent_of_initial {parent : Option Tag}
    (h : (validParents Tag.initial.localName).contains (parent.elim "" Tag.localName) = true) : parent = some .state := by
  rw [validParents_eq] at h
  cases parent with
  | none => simp at h
  | some parent => cases parent <;> simp [Tag.localName] at h ⊢

theorem parent_of_transition {parent : Option Tag}
    (h : (validParents "transition").contains (parent.elim "" Tag.localName) = true) :
    parent = some .state ∨ parent = some .parallel ∨ parent = some .initial ∨ parent = some .history := by
  rw [validParents_transition] at h
  cases parent with
  | none => simp at h
  | some parent => cases parent <;> simp [Tag.localName] at h ⊢

theorem elementIssues_eq_nil {states : List TreePath} (h : d.elementIssues states = []) {p : TreePath} (hp : p ∈ states)
    {tag : Tag} (htag : d.tag? p = some tag) (hne : tag ≠ .scxml) :
    (validParents tag.localName).contains ((d.tag? p.parent).elim "" Tag.localName) = true := by
  have hround := List.flatMap_eq_nil_iff.mp h p hp
  rw [htag] at hround
  cases tag with
  | scxml => exact absurd rfl hne
  | state => exact parentIssue_eq_nil hround
  | parallel => exact parentIssue_eq_nil hround
  | final => exact parentIssue_eq_nil hround
  | initial => exact parentIssue_eq_nil hround
  | history => exact parentIssue_eq_nil hround

theorem childIssues_eq_nil {localName : String} {count : Elem β → Nat} {node : TreePath → Nat → Ref}
    (h : d.childIssues localName count node = []) {p : TreePath} {e : Elem β} (he : d.elem? p = some e)
    (hcount : 0 < count e) : (validParents localName).contains ((d.tag? p).elim "" Tag.localName) = true := by
  have hp : p ∈ d.states := Document.mem_states.mpr (by simp [he])
  have hround := List.flatMap_eq_nil_iff.mp (List.flatMap_eq_nil_iff.mp h p hp) 0
  simp only [he, Option.elim_some, List.mem_range] at hround
  exact parentIssue_eq_nil (hround hcount)

/-- What the validator takes on trust: there is one machine, with states and without histories; an `<initial>` has no
attributes, and a transition with a target; the `initial` attribute of a state names one child; two states of a transition's
target that it lets pass can be active together; and so can those that the `initial` attribute of the root names. -/
structure Unchecked (d : Document β) : Prop where
  onlyRoot : ∀ p ∈ d.states, d.tag? p = some .scxml ↔ p = []
  child : ∃ c ∈ d.states, d.ProperChild [] c
  histories : ∀ p ∈ d.states, d.tag? p ≠ some .history
  finalAttr : ∀ p ∈ d.states, (d.elem? p).any (·.finalAttr) = false
  noIds : ∀ p ∈ d.states, d.tag? p = some .scxml ∨ d.tag? p = some .initial → d.id? p = none
  noInitialAttr : ∀ p ∈ d.states, d.tag? p = some .initial → d.initialAttr p = none
  initialTarget : ∀ p ∈ d.states, d.tag? p = some .initial → ∀ t ∈ d.transIds p, ((d.trans? t).bind (·.target)).isSome
  oneChild : ∀ p ∈ d.states, p ≠ [] → ∀ ids ∈ d.initialAttr p,
    ids.length = 1 ∧ ∀ i ∈ ids, ∀ c ∈ d.seen i, c ≠ [] ∧ c.parent = p
  regions : ∀ t ∈ d.allTransitions, ∀ s1 ∈ d.getTargetStates t, ∀ s2 ∈ d.getTargetStates t,
    d.legalPair s1 s2 = true → d.Together s1 s2
  rootAttr : ∀ ids ∈ d.initialAttr [], ids ≠ [] ∧ (ids.filterMap d.seen).Pairwise (· < ·) ∧
    ∀ s1 ∈ ids.filterMap d.seen, ∀ s2 ∈ ids.filterMap d.seen, d.Together s1 s2

instance (s1 s2 : TreePath) : Decidable (d.Together s1 s2) := inferInstanceAs (Decidable (_ ∧ _ ∧ _ → _))

theorem map_eq_map_filterMap {α γ : Type} {f : α → Option γ} {l : List α} (h : ∀ a ∈ l, (f a).isSome) :
    l.map f = (l.filterMap f).map some := by
  induction l with
  | nil => rfl
  | cons a l ih =>
    obtain ⟨ha, hl⟩ := List.forall_mem_cons.mp h
    obtain ⟨c, hc⟩ := Option.isSome_iff_exists.mp ha
    rw [List.map_cons, List.filterMap_cons_some hc, List.map_cons, hc, ih hl]

theorem exists_tag {p : TreePath} (hp : p ∈ d.states) : ∃ tag, d.tag? p = some tag := by
  obtain ⟨e, he⟩ := Option.isSome_iff_exists.mp (Document.mem_states.mp hp)
  exact ⟨e.tag, by rw [Document.tag?, he]; rfl⟩

theorem Unchecked.mem_allStates_of_id (hu : d.Unchecked) {p : TreePath} {stateId : String} (hid : d.id? p = some stateId) :
    p ∈ d.allStates := by
  have hp := mem_states_of_id hid
  obtain ⟨tag, htag⟩ := exists_tag hp
  have hnot : tag ≠ .scxml ∧ tag ≠ .initial := by
    have hno := hu.noIds p hp
    rw [htag, hid] at hno
    exact ⟨fun h => by simp [h] at hno, fun h => by simp [h] at hno⟩
  have hne : p ≠ [] := fun h => hnot.1 (Option.some.inj (htag.symm.trans ((hu.onlyRoot p hp).mpr h)))
  rw [mem_allStates, htag]
  refine ⟨hne, ?_⟩
  cases tag <;> simp at hnot ⊢

theorem Unchecked.mem_initials (hu : d.Unchecked) {p : TreePath} (hp : p ∈ d.states) (htag : d.tag? p = some .initial) :
    p ∈ d.nodeSet .initial := by
  refine mem_nodeSet.mpr ⟨?_, htag⟩
  rintro rfl
  simp [(hu.onlyRoot [] hp).mpr rfl] at htag

/-- The `initial` attribute of a state or of the root names states below it. -/
theorem Validated.initialAttr_spec {name : Option String} (hv : d.Validated name) {p : TreePath}
    (hp : p ∈ d.allStates ++ [[]]) {ids : List String} (hids : d.initialAttr p = some ids) {i : String} (hi : i ∈ ids) :
    ∃ s, d.seen i = some s ∧ s ∈ d.childsOf p := by
  have hround := List.flatMap_eq_nil_iff.mp (List.flatMap_eq_nil_iff.mp hv.silent.2.1 p hp) i (by rw [hids]; exact hi)
  split at hround
  · cases hround
  · rename_i s hs
    refine ⟨s, hs, ?_⟩
    by_contra hno
    rw [if_neg hno] at hround
    cases hround

section

variable {name : Option String} (hv : d.Validated name) (hu : d.Unchecked)

include hv hu

theorem Unchecked.uniqueIds : d.UniqueIds := by
  intro p _ q _ hsome heq
  obtain ⟨stateId, hid⟩ := Option.isSome_iff_exists.mp hsome
  have hp := hv.seen_spec.1 p (hu.mem_allStates_of_id hid) stateId hid
  have hq := hv.seen_spec.1 q (hu.mem_allStates_of_id (heq ▸ hid)) stateId (heq ▸ hid)
  exact Option.some.inj (hp.symm.trans hq)

theorem Unchecked.getState_eq (stateId : String) : d.getState stateId = d.seen stateId := by
  ext p
  rw [getState_eq_some_iff (hu.uniqueIds hv)]
  constructor
  · exact fun hid => hv.seen_spec.1 p (hu.mem_allStates_of_id hid) stateId hid
  · exact fun h => (hv.seen_spec.2 stateId p h).2

theorem Unchecked.nesting : d.Nesting where
  rootTag := hu.onlyRoot
  nested := by
    intro p hp hne
    obtain ⟨tag, htag⟩ := exists_tag hp
    have htagne : tag ≠ .scxml := fun h => hne ((hu.onlyRoot p hp).mp (h ▸ htag))
    by_cases hinitial : tag = .initial
    · have hmem : p ∈ d.nodeSet .initial := mem_nodeSet.mpr ⟨hne, hinitial ▸ htag⟩
      exact parent_of_state (elementIssues_eq_nil hv.parents.2.2 hmem htag htagne)
    · have hmem : p ∈ d.allStates := by
        rw [mem_allStates, htag]
        refine ⟨hne, ?_⟩
        cases tag <;> simp at hinitial htagne ⊢
      exact parent_of_state (elementIssues_eq_nil hv.parents.1 hmem htag htagne)
  child := hu.child

/-- The targets of a transition are those its ids stand for, all of them proper states. -/
theorem Unchecked.targets_spec {t : TransId} (ht : t ∈ d.allTransitions) {ids : List String}
    (hids : (d.trans? t).bind (·.target) = some ids) :
    ids ≠ [] ∧ (∀ i ∈ ids, (d.seen i).isSome) ∧ d.getTargetStates t = ids.filterMap d.seen := by
  have hround := List.flatMap_eq_nil_iff.mp hv.silent.1 t ht
  rw [hids] at hround
  simp only [List.append_eq_nil_iff, List.flatMap_eq_nil_iff] at hround
  refine ⟨?_, ?_, ?_⟩
  · rintro rfl
    simp at hround
  · intro i hi
    have hseen := hround.2 i hi
    split at hseen
    · cases hseen
    · rename_i hsome
      rwa [Bool.not_eq_true, Option.isNone_eq_false_iff] at hsome
  · rw [getTargetStates, hids, Option.getD_some]
    exact List.filterMap_congr fun i _ => hu.getState_eq hv i

theorem Unchecked.proper_of_seen {stateId : String} {p : TreePath} (h : d.seen stateId = some p) : d.ProperState p := by
  have hp := mem_allStates.mp (hv.seen_spec.2 stateId p h).1
  rw [properState_iff]
  rcases hp.2 with h | h | h | h
  · exact Or.inr (Or.inl h)
  · exact Or.inl h
  · exact absurd h (hu.histories p (mem_states_of_tag h))
  · exact Or.inr (Or.inr h)

theorem Unchecked.compatible {states : List TreePath} (hproper : ∀ s ∈ states, d.ProperState s)
    (htog : ∀ s1 ∈ states, ∀ s2 ∈ states, d.Together s1 s2) : d.Compatible states :=
  ⟨hproper, (completable_iff (hu.nesting hv)).mpr ⟨fun s hs => Or.inr (hproper s hs), htog⟩⟩

theorem Unchecked.targets_compatible {t : TransId} (ht : t ∈ d.allTransitions) : d.Compatible (d.getTargetStates t) := by
  cases hids : (d.trans? t).bind (·.target) with
  | none =>
    have hnil : d.getTargetStates t = [] := by rw [getTargetStates, hids]; rfl
    rw [hnil]
    exact hu.compatible hv (List.forall_mem_nil _) (List.forall_mem_nil _)
  | some ids =>
    obtain ⟨-, hseen, htargets⟩ := hu.targets_spec hv ht hids
    have hlegal : d.hasLegalCompletion (d.getTargetStates t) = true := by
      have hmem : (IssueNode.transition t, ids) ∈ d.targetIdSets :=
        List.mem_append_left _ (List.mem_filterMap.mpr ⟨t, ht, by rw [hids]; rfl⟩)
      have hround := List.flatMap_eq_nil_iff.mp hv.silent.2.2.1 _ hmem
      rw [htargets]
      by_contra hno
      rw [Bool.not_eq_true] at hno
      have hall : ids.all (fun i => (d.seen i).isSome) = true := List.all_eq_true.mpr hseen
      simp [hall, hno] at hround
    refine hu.compatible hv ?_ ?_
    · intro s hs
      rw [htargets, List.mem_filterMap] at hs
      obtain ⟨i, -, hi⟩ := hs
      exact hu.proper_of_seen hv hi
    · intro s1 h1 s2 h2 hun
      have habove := (hasLegalCompletion_iff.mp hlegal).1 s1 h1 s2 h2 hun
      exact hu.regions t ht s1 h1 s2 h2 (legalPair_iff.mpr (Or.inr (Or.inr habove))) hun

theorem Unchecked.initTransitions_eq {p : TreePath} (hp : p ∈ d.states) (htag : d.tag? p = some .initial) :
    d.initTransitions p = d.transIds p := by
  have hn := hu.nesting hv
  have hperm : (d.states.filter fun q => p <+: q).Perm [p] := by
    refine (List.perm_ext_iff_of_nodup (d.tree.preorder_nodup.filter _) (List.nodup_singleton p)).mpr ?_
    intro q
    rw [List.mem_filter, decide_eq_true_iff, List.mem_singleton]
    constructor
    · rintro ⟨hq, habove⟩
      rcases TreePath.below_or_eq_of_prefix habove with rfl | hbelow
      · rfl
      · rcases hn.tag_of_below hq hbelow with h | h | h <;> simp [htag] at h
    · rintro rfl
      exact ⟨hp, List.prefix_refl q⟩
  rw [initTransitions, List.perm_singleton.mp hperm, List.flatMap_singleton]

theorem Unchecked.initialTransition {p : TreePath} (hp : p ∈ d.states) (htag : d.tag? p = some .initial) :
    (d.transitionsAt p).length = 1 ∧ d.getTargetStates (p, 0) ≠ [] := by
  have hmem := hu.mem_initials hp htag
  have hlen : (d.transitionsAt p).length = 1 := by
    have hround := List.flatMap_eq_nil_iff.mp (List.append_eq_nil_iff.mp hv.silent.2.2.2.1).1 p hmem
    rw [hu.initTransitions_eq hv hp htag, transIds, List.length_map, List.length_range] at hround
    by_contra hno
    rw [if_pos hno] at hround
    cases hround
  have ht : (p, 0) ∈ d.transIds p := List.mem_map.mpr ⟨0, List.mem_range.mpr (by omega), rfl⟩
  obtain ⟨ids, hids⟩ := Option.isSome_iff_exists.mp (hu.initialTarget p hp htag (p, 0) ht)
  obtain ⟨hne, hseen, htargets⟩ := hu.targets_spec hv (List.mem_flatMap.mpr ⟨p, hp, ht⟩) hids
  refine ⟨hlen, ?_⟩
  obtain ⟨i, hi⟩ := List.exists_mem_of_ne_nil ids hne
  obtain ⟨s, hs⟩ := Option.isSome_iff_exists.mp (hseen i hi)
  rw [htargets]
  exact List.ne_nil_of_mem (List.mem_filterMap.mpr ⟨i, hi, hs⟩)

theorem Unchecked.initialTargets_below {p : TreePath} (hp : p ∈ d.states) (htag : d.tag? p = some .initial) {s : TreePath}
    (hs : s ∈ d.getTargetStates (p, 0)) : s.Below p.parent := by
  have hmem := hu.mem_initials hp htag
  have ht : (p, 0) ∈ d.transIds p :=
    List.mem_map.mpr ⟨0, List.mem_range.mpr (by have := (hu.initialTransition hv hp htag).1; omega), rfl⟩
  obtain ⟨ids, hids⟩ := Option.isSome_iff_exists.mp (hu.initialTarget p hp htag (p, 0) ht)
  have hparent := parent_of_initial (elementIssues_eq_nil hv.parents.2.2 hmem htag (by decide))
  have hstate : d.isState p.parent true = true := by simp [isState, hparent]
  have hinit : (p, 0) ∈ (d.nodeSet .initial).flatMap d.initTransitions :=
    List.mem_flatMap.mpr ⟨p, hmem, hu.initTransitions_eq hv hp htag ▸ ht⟩
  have hround := List.flatMap_eq_nil_iff.mp (List.append_eq_nil_iff.mp hv.silent.2.2.2.1).2 _ hinit
  simp only [initTransIssues, List.append_eq_nil_iff, hstate, if_true, hids, Option.getD_some] at hround
  rw [(hu.targets_spec hv (List.mem_flatMap.mpr ⟨p, hp, ht⟩) hids).2.2, List.mem_filterMap] at hs
  obtain ⟨i, hi, hseen⟩ := hs
  have hchild := List.flatMap_eq_nil_iff.mp hround.2 i hi
  rw [hseen] at hchild
  have hin : s ∈ d.childsOf p.parent := by
    by_contra hno
    simp [hno] at hchild
  simp only [childsOf, List.mem_append, List.mem_filter, Bool.and_eq_true, isDescendant_iff] at hin
  tauto

/-- A validated document of which what the validator takes on trust is true is one whose runs are legal. -/
theorem Unchecked.legalChart : d.LegalChart where
  toGrammar := {
    toNesting := hu.nesting hv
    finalAttr := hu.finalAttr
    initialTransition := fun _ hp htag => hu.initialTransition hv hp htag }
  histories := hu.histories
  uniqueIds := hu.uniqueIds hv
  transitionSources := by
    intro p hp htrans
    obtain ⟨e, he⟩ := Option.isSome_iff_exists.mp (Document.mem_states.mp hp)
    have hcount : 0 < e.transitions.length := by
      rw [transitionsAt, he] at htrans
      exact List.length_pos_of_ne_nil htrans
    have htag := parent_of_transition (childIssues_eq_nil hv.parents.2.1 he hcount)
    have hno := hu.histories p hp
    tauto
  transitionTargets := fun p hp t ht => hu.targets_compatible hv (List.mem_flatMap.mpr ⟨p, hp, ht⟩)
  initialTargets := fun p hp htag s hs => hu.initialTargets_below hv hp htag hs
  initialAttr := by
    intro p hp hne ids hids
    obtain ⟨hone, hchild⟩ := hu.oneChild p hp hne ids hids
    obtain ⟨i, rfl⟩ := List.length_eq_one_iff.mp hone
    have hmem : p ∈ d.allStates := by
      obtain ⟨tag, htag⟩ := exists_tag hp
      have hroot := hu.onlyRoot p hp
      have hinitial := hu.noInitialAttr p hp
      rw [htag] at hroot hinitial
      rw [mem_allStates, htag]
      refine ⟨hne, ?_⟩
      cases tag <;> simp_all [Document.initialAttr]
    obtain ⟨s, hs, -⟩ := hv.initialAttr_spec (List.mem_append_left _ hmem) hids (List.mem_singleton_self i)
    obtain ⟨hsne, hparent⟩ := hchild i (List.mem_singleton_self i) s hs
    exact ⟨i, s, rfl, (hu.getState_eq hv i).trans hs, hsne, hparent, hu.proper_of_seen hv hs⟩
  rootAttr := by
    intro ids hids
    obtain ⟨hne, hsorted, htog⟩ := hu.rootAttr ids hids
    have hseen : ids.map d.seen = (ids.filterMap d.seen).map some := by
      refine map_eq_map_filterMap fun i hi => ?_
      obtain ⟨s, hs, -⟩ := hv.initialAttr_spec (List.mem_append_right _ (List.mem_singleton_self [])) hids hi
      exact hs ▸ rfl
    refine ⟨ids.filterMap d.seen, ?_, ?_, hsorted, hu.compatible hv ?_ htog⟩
    · rw [getStates, List.map_congr_left fun i _ => hu.getState_eq hv i, hseen]
    · intro hnil
      rw [hnil, List.map_nil, List.map_eq_nil_iff] at hseen
      exact hne hseen
    · intro s hs
      obtain ⟨i, -, hi⟩ := List.mem_filterMap.mp hs
      exact hu.proper_of_seen hv hi

end

end Document

/-! ### Runs -/

namespace FastMicroStep

/-- In every run on a validated document of which what the validator takes on trust is true, the configuration is legal as
soon as the first microstep was taken. -/
theorem validated_configuration_legal {d : Document β} {name : Option String} (hv : (resortStates d).Validated name)
    (hu : (resortStates d).Unchecked) {ω : Type} {cb : Callbacks ω} {s : St ω} (hs : Reachable (init d) cb s)
    (hstarted : s.flags.pristine = false) : (resortStates d).Legal s.configuration := by
  rcases legalRun_of_reachable (hu.legalChart hv) (initialsFirst_resortStates d) hs with h | h
  · simp [h.1, Flags.pristine] at hstarted
  · exact h.2

theorem twoRegions_validated : (resortStates twoRegions).Validated none :=
  ⟨[], by decide +kernel, List.forall_mem_nil _⟩

theorem twoRegions_unchecked : (resortStates twoRegions).Unchecked where
  onlyRoot := by decide +kernel
  child := by decide +kernel
  histories := by decide +kernel
  finalAttr := by decide +kernel
  noIds := by decide +kernel
  noInitialAttr := by decide +kernel
  initialTarget := by decide +kernel
  oneChild := by decide +kernel
  regions := by decide +kernel
  rootAttr := by decide +kernel

/-- The run in which the chart moves inside one region and then leaves both. -/
theorem validated_configuration_legal_twoRegions :
    (resortStates twoRegions).Legal
      (steps (init twoRegions) externalEvents 5 { env := [{ name := "e" }, { name := "f" }] }).configuration :=
  validated_configuration_legal twoRegions_validated twoRegions_unchecked ((Reachable.init _).steps _ _ 5)
    (by decide +kernel)

def oneRegion : Document Unit where
  tree :=
    { root := { tag := .scxml }
      kids := .cons { tag := .state, id := some "s", transitions := [{ target := some ["a", "b"] }] } .nil
        (.cons { tag := .parallel, id := some "p" }
          (.cons { tag := .state, id := some "r" }
            (.cons { tag := .state, id := some "a" } .nil (.cons { tag := .state, id := some "b" } .nil .nil))
            (.cons { tag := .state, id := some "q" } .nil .nil)) .nil) }

/-- The validator has nothing to say about it, and both states of the region become active. -/
theorem oneRegion_not_legal : (resortStates oneRegion).forInterpreter none = some [] ∧
    ¬ (resortStates oneRegion).Legal (steps (init oneRegion) externalEvents 2 { env := [] }).configuration := by
  decide +kernel

end FastMicroStep
end Uscxml
