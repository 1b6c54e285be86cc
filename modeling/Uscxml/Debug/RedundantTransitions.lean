import Uscxml.Debug.InterpreterIssue
import Uscxml.FastMicroStep.LegalConfiguration

/-!
# Redundant transitions

`InterpreterIssue` reports a transition behind one that is always enabled when it is. The microstepper need not take the
earlier one in its place: that can be kept back by a transition of another region that leaves the later one alone. Nor does
the report hold for names that differ in the case of letters, for empty attributes and for descriptors with several wild
cards, of which `nameMatch` takes only one for a wild card.
-/

namespace Uscxml

/-! ### Texts without upper-case letters -/

/-- A text without upper-case letters. -/
def PlainText (text : List Char) : Prop := ∀ c ∈ text, c.isUpper = false

instance (text : List Char) : Decidable (PlainText text) :=
  List.decidableBAll (fun c : Char => c.isUpper = false) text

theorem toUpper_code (c : Char) : c.toUpper.val.toNat =
    if 97 ≤ c.val.toNat ∧ c.val.toNat ≤ 122 then c.val.toNat - 32 else c.val.toNat := by
  have hle : 'a'.val ≤ c.val ∧ c.val ≤ 'z'.val ↔ 97 ≤ c.val.toNat ∧ c.val.toNat ≤ 122 := by
    rw [UInt32.le_iff_toNat_le, UInt32.le_iff_toNat_le]
    rfl
  delta Char.toUpper
  split
  · rename_i hc
    rw [if_pos (hle.mp hc)]
    change (c.val + ('A'.val - 'a'.val)).toNat = _
    have hdiff : ('A'.val - 'a'.val).toNat = 4294967264 := by decide
    have hc' := hle.mp hc
    rw [UInt32.toNat_add, hdiff]
    omega
  · rename_i hc
    rw [if_neg (fun h => hc (hle.mpr h))]

theorem code_of_not_isUpper {c : Char} (hc : c.isUpper = false) : c.val.toNat < 65 ∨ 90 < c.val.toNat := by
  change decide (c.val ≥ 'A'.val ∧ c.val ≤ 'Z'.val) = false at hc
  rw [decide_eq_false_iff_not, ge_iff_le, UInt32.le_iff_toNat_le, UInt32.le_iff_toNat_le] at hc
  have hA : 'A'.val.toNat = 65 := rfl
  have hZ : 'Z'.val.toNat = 90 := rfl
  omega

theorem toUpper_inj {a b : Char} (ha : a.isUpper = false) (hb : b.isUpper = false) (h : a.toUpper = b.toUpper) : a = b := by
  have hval : a.toUpper.val.toNat = b.toUpper.val.toNat := by rw [h]
  apply Char.ext
  apply UInt32.toNat.inj
  have := code_of_not_isUpper ha
  have := code_of_not_isUpper hb
  rw [toUpper_code, toUpper_code] at hval
  split at hval <;> split at hval <;> omega

theorem iequals_iff_of_plain {a b : List Char} (ha : PlainText a) (hb : PlainText b) : iequals a b = true ↔ a = b := by
  constructor
  · intro h
    rw [iequals, decide_eq_true_iff] at h
    induction a generalizing b with
    | nil => exact (List.map_eq_nil_iff.mp h.symm).symm
    | cons c a ih =>
      cases b with
      | nil => cases h
      | cons c' b =>
        rw [List.map_cons, List.map_cons, List.cons.injEq] at h
        obtain ⟨hc, ha⟩ := List.forall_mem_cons.mp ha
        obtain ⟨hc', hb⟩ := List.forall_mem_cons.mp hb
        rw [toUpper_inj hc hc' h.1, ih ha hb h.2]
  · intro h
    rw [h]
    exact iequals_refl b

theorem PlainText.removeWildcard {w : List Char} (h : PlainText w) : PlainText (removeWildcard w) := by
  have hlast : ∀ {w : List Char}, PlainText w → PlainText w.dropLast := fun h c hc => h c (List.mem_of_mem_dropLast hc)
  simp only [Uscxml.removeWildcard]
  split <;> split
  · exact hlast (hlast h)
  · exact hlast h
  · exact hlast h
  · exact h

theorem PlainText.descriptor {text w : List Char} (h : PlainText text) (hw : w ∈ descriptors text) : PlainText w :=
  fun c hc => h c (List.mem_of_mem_runs hw c hc)

/-- The text of an `event` attribute: not empty, without upper-case letters, and with at most one wild card at the end of a
descriptor. -/
structure PlainEvent (text : List Char) : Prop where
  nonempty : text ≠ []
  plain : PlainText text
  wildcard : ∀ w ∈ descriptors text, removeWildcard (removeWildcard w) = removeWildcard w

/-- The name of an event: without upper-case letters and white space. -/
structure PlainName (name : List Char) : Prop where
  plain : PlainText name
  noSpace : ∀ c ∈ name, isspace c = false

def Document.PlainEvents {β : Type} (d : Document β) : Prop :=
  ∀ p ∈ d.states, ∀ transition ∈ d.transitionsAt p, ∀ event ∈ transition.event, PlainEvent event.toList

theorem Document.PlainEvents.of_trans {β : Type} {d : Document β} (h : d.PlainEvents) {t : TransId}
    {transition : TransitionElem β} (ht : d.trans? t = some transition) :
    ∀ event ∈ transition.event, PlainEvent event.toList := by
  have hmem : transition ∈ d.transitionsAt t.1 := List.mem_of_getElem? ht
  refine h t.1 (Document.mem_states.mpr ?_) transition hmem
  rw [Document.transitionsAt] at hmem
  cases he : d.elem? t.1 with
  | none => simp [he] at hmem
  | some e => rfl

instance (text : List Char) : Decidable (PlainEvent text) :=
  decidable_of_iff
    (text ≠ [] ∧ PlainText text ∧ ∀ w ∈ descriptors text, removeWildcard (removeWildcard w) = removeWildcard w)
    ⟨fun h => ⟨h.1, h.2.1, h.2.2⟩, fun h => ⟨h.nonempty, h.plain, h.wildcard⟩⟩

instance (name : List Char) : Decidable (PlainName name) :=
  letI := List.decidableBAll (fun c => isspace c = false) name
  decidable_of_iff (PlainText name ∧ ∀ c ∈ name, isspace c = false) ⟨fun h => ⟨h.1, h.2⟩, fun h => ⟨h.plain, h.noSpace⟩⟩

theorem nameMatch_iff_of_plain {eventDescs eventName : List Char} (hd : PlainText eventDescs) (hn : PlainText eventName) :
    nameMatch eventDescs eventName = true ↔ eventName ≠ [] ∧
      ((∃ w ∈ descriptors eventDescs, Scanned eventDescs w ∧ Matches w eventName) ∨ eventDescs = eventName) := by
  rw [nameMatch_iff]
  refine and_congr_right fun _ => ?_
  constructor
  · rintro (h | h | ⟨w, hw, hs, h⟩)
    · exact Or.inl h
    · exact Or.inr ((iequals_iff_of_plain hd hn).mp h)
    · exact Or.inl ⟨w, hw, hs, Or.inr (Or.inl ((iequals_iff_of_plain (hd.descriptor hw).removeWildcard hn).mp h))⟩
  · rintro (h | h)
    · exact Or.inl h
    · exact Or.inr (Or.inl ((iequals_iff_of_plain hd hn).mpr h))

theorem dropLast_append (x r : List Char) : (x ++ '.' :: r).dropLast = x ++ ('.' :: r).dropLast :=
  List.dropLast_append_of_ne_nil (List.cons_ne_nil '.' r)

theorem removeWildcard_append (x r : List Char) :
    removeWildcard (x ++ '.' :: r) = x ∨ x ++ ['.'] <+: removeWildcard (x ++ '.' :: r) := by
  have hdot : ∀ r, (if (x ++ '.' :: r).getLast? = some '.' then (x ++ '.' :: r).dropLast else x ++ '.' :: r) = x ∨
      x ++ ['.'] <+: if (x ++ '.' :: r).getLast? = some '.' then (x ++ '.' :: r).dropLast else x ++ '.' :: r := by
    intro r
    split
    · rw [dropLast_append]
      cases r with
      | nil => exact Or.inl (List.append_nil x)
      | cons c r => exact Or.inr ⟨(c :: r).dropLast, by simp⟩
    · exact Or.inr ⟨r, by simp⟩
  have hstar : ∃ r',
      (if (x ++ '.' :: r).getLast? = some '*' then (x ++ '.' :: r).dropLast else x ++ '.' :: r) = x ++ '.' :: r' := by
    split
    · rename_i h
      rw [dropLast_append]
      cases r with
      | nil => simp at h
      | cons c r => exact ⟨(c :: r).dropLast, rfl⟩
    · exact ⟨r, rfl⟩
  obtain ⟨r', hr'⟩ := hstar
  simp only [removeWildcard, hr']
  exact hdot r'

/-- A descriptor matches what another one matches that it matches itself. -/
theorem Matches.trans {v w name : List Char} (hv : removeWildcard (removeWildcard v) = removeWildcard v) (h : Matches v w)
    (hw : Matches w name) : Matches v name := by
  rcases h with h | h | ⟨r, h⟩
  · exact Or.inl h
  · rw [Matches, ← h, hv] at hw
    exact hw
  · rw [List.append_assoc, List.singleton_append] at h
    rw [Matches, ← h] at hw
    rcases removeWildcard_append (removeWildcard v) r with hx | hx
    · rwa [hx] at hw
    · rcases hw with hw | hw | hw
      · rw [hw] at hx
        exact absurd (List.prefix_nil.mp hx) (by simp)
      · exact Or.inr (Or.inr (hw ▸ hx))
      · exact Or.inr (Or.inr (hx.trans ((List.prefix_append _ _).trans hw)))

/-- What the descriptors of the later transition let pass, those of the earlier one do too. -/
theorem nameMatch_of_descriptors {earlier later name : List Char} (he : PlainEvent earlier) (hl : PlainEvent later)
    (hn : PlainName name) (hall : ∀ w ∈ tokenize later, nameMatch earlier w = true) (h : nameMatch later name = true) :
    nameMatch earlier name = true := by
  rw [tokenize_eq] at hall
  obtain ⟨hne, ⟨w, hw, -, hmatch⟩ | rfl⟩ := (nameMatch_iff_of_plain hl.plain hn.plain).mp h
  · rw [nameMatch_iff_of_plain he.plain hn.plain]
    refine ⟨hne, Or.inl ?_⟩
    obtain ⟨hwne, ⟨v, hv, hs, hvw⟩ | rfl⟩ := (nameMatch_iff_of_plain he.plain (hl.plain.descriptor hw)).mp (hall w hw)
    · exact ⟨v, hv, hs, hvw.trans (he.wildcard v hv) hmatch⟩
    · refine ⟨earlier, ?_, Or.inr rfl, hmatch⟩
      rw [descriptors_of_none (not_space_of_mem_descriptors hw), if_neg hwne]
      exact List.mem_singleton_self earlier
  · refine hall later ?_
    rw [descriptors_of_none hn.noSpace, if_neg hne]
    exact List.mem_singleton_self later

/-! ### The selection loop -/

namespace FastMicroStep

variable {β ω : Type}

section

variable (T : Tables) (cb : Callbacks ω) (C : Finset TreePath) (event : Event)

/-- The round of the selection loop for `i` selects it. -/
def Takes (s : Selection ω) (i : TransId) : Prop :=
  ((T.trans i).history || (T.trans i).initial) = false ∧ (T.trans i).source ∈ C ∧ i ∉ s.conflicts ∧
    kindMatches event (T.trans i) = true ∧ (enabled cb C event (T.trans i) s.env).1 = true

def Enabled (i : TransId) : Prop :=
  ((T.trans i).history || (T.trans i).initial) = false ∧ (T.trans i).source ∈ C ∧
    kindMatches event (T.trans i) = true ∧ ∀ w, (enabled cb C event (T.trans i) w).1 = true

theorem selectTransition_cases (s : Selection ω) (i : TransId) :
    Takes T cb C event s i ∧ (selectTransition T cb C event s i).transSet = insert i s.transSet ∨
      ¬ Takes T cb C event s i ∧ (selectTransition T cb C event s i).transSet = s.transSet := by
  simp only [selectTransition, Takes]
  by_cases hpseudo : ((T.trans i).history || (T.trans i).initial) = true
  · rw [if_pos hpseudo]
    exact Or.inr ⟨fun h => by simp [hpseudo] at h, rfl⟩
  rw [if_neg hpseudo]
  rw [Bool.not_eq_true] at hpseudo
  by_cases hcond : (T.trans i).source ∈ C ∧ i ∉ s.conflicts ∧ kindMatches event (T.trans i) = true
  · rw [if_pos hcond]
    cases henabled : (enabled cb C event (T.trans i) s.env).1 with
    | true => exact Or.inl ⟨⟨hpseudo, hcond.1, hcond.2.1, hcond.2.2, rfl⟩, by simp⟩
    | false => exact Or.inr ⟨fun h => Bool.false_ne_true h.2.2.2.2, by simp⟩
  · rw [if_neg hcond]
    exact Or.inr ⟨fun h => hcond ⟨h.2.1, h.2.2.1, h.2.2.2.1⟩, rfl⟩

theorem transSet_subset_round (s : Selection ω) (i : TransId) :
    s.transSet ⊆ (selectTransition T cb C event s i).transSet := by
  rcases selectTransition_cases T cb C event s i with ⟨-, h⟩ | ⟨-, h⟩
  · rw [h]
    exact Finset.subset_insert i s.transSet
  · rw [h]

variable {T cb C event}

theorem transSet_subset (l : List TransId) (s : Selection ω) :
    s.transSet ⊆ (l.foldl (selectTransition T cb C event) s).transSet :=
  List.foldl_invariant (fun s' : Selection ω => s.transSet ⊆ s'.transSet)
    (fun s' i _ h => h.trans (transSet_subset_round T cb C event s' i)) (Finset.Subset.refl _)

theorem exists_round {l : List TransId} {s : Selection ω} {t : TransId} (hs : t ∉ s.transSet)
    (ht : t ∈ (l.foldl (selectTransition T cb C event) s).transSet) :
    ∃ before after, l = before ++ t :: after ∧ Takes T cb C event (before.foldl (selectTransition T cb C event) s) t := by
  induction l generalizing s with
  | nil => exact absurd ht hs
  | cons i l ih =>
    rw [List.foldl_cons] at ht
    by_cases hround : t ∈ (selectTransition T cb C event s i).transSet
    · rcases selectTransition_cases T cb C event s i with ⟨htakes, h⟩ | ⟨-, h⟩
      · rw [h, Finset.mem_insert] at hround
        obtain rfl := hround.resolve_right hs
        exact ⟨[], l, rfl, htakes⟩
      · exact absurd (h ▸ hround) hs
    · obtain ⟨before, after, rfl, htakes⟩ := ih hround ht
      exact ⟨i :: before, after, rfl, htakes⟩

/-- A transition that is enabled is selected in its round, or conflicts with one selected before. -/
theorem selected_or_preempted {l : List TransId} {s : Selection ω} (hs : Selected T C s) (hl : ∀ i ∈ l, i ∈ T.transitions)
    {e : TransId} (he : e ∈ l) (henabled : Enabled T cb C event e) :
    e ∈ (l.foldl (selectTransition T cb C event) s).transSet ∨
      ∃ u ∈ (l.foldl (selectTransition T cb C event) s).transSet, e ∈ (T.trans u).conflicts := by
  refine List.foldl_establish (Selected T C) (fun s => e ∈ s.transSet ∨ ∃ u ∈ s.transSet, e ∈ (T.trans u).conflicts)
    (fun s i hi h => selectTransition_selected T cb (hl i hi) h) ?_ he ?_ hs
  · intro s i _ h
    have hsub := transSet_subset_round T cb C event s i
    exact h.imp (fun h => hsub h) (fun ⟨u, hu, hc⟩ => ⟨u, hsub hu, hc⟩)
  · intro s hs
    rcases selectTransition_cases T cb C event s e with ⟨-, h⟩ | ⟨hnot, h⟩
    · exact Or.inl (h ▸ Finset.mem_insert_self e s.transSet)
    · have hconf : e ∈ s.conflicts := by
        by_contra hfree
        exact hnot ⟨henabled.1, henabled.2.1, hfree, henabled.2.2.1, henabled.2.2.2 s.env⟩
      exact Or.inr (h ▸ (hs.conflicts e).mp hconf)

end

/-- When a transition is selected although an enabled one of the same element stands in front of it, that one conflicts
with a selected transition that leaves the later one alone. -/
theorem preempted_of_selected {d : Document β} {cb : Callbacks ω} {C : Finset TreePath} {event : Event} {w : ω}
    {e t : TransId} (hsource : e.1 = t.1) (hfront : e.2 < t.2) (henabled : Enabled (tables d) cb C event e)
    (ht : t ∈ (selectTransitions (tables d) cb C event w).transSet) :
    ∃ u ∈ (selectTransitions (tables d) cb C event w).transSet, d.conflicts u e = true ∧ d.conflicts u t = false := by
  obtain ⟨before, after, hl, htakes⟩ := exists_round (by simp) ht
  have htmem : t ∈ postFixTransitions d := ((selectTransitions_selected (tables d) cb C event w).active t ht).1
  have hemem : e ∈ postFixTransitions d := by
    rw [mem_postFixTransitions, hsource]
    exact hfront.trans (mem_postFixTransitions.mp htmem)
  have hbefore : e ∈ before := by
    have hpair : (before ++ t :: after).Pairwise Before := hl ▸ postFixTransitions_pairwise
    have hmem : e ∈ before ++ t :: after := hl ▸ hemem
    have hlt : Before e t := Or.inr ⟨hsource, hfront⟩
    rcases List.mem_append.mp hmem with h | h
    · exact h
    rcases List.mem_cons.mp h with rfl | h
    · exact absurd hfront (Nat.lt_irrefl _)
    · have := (List.pairwise_cons.mp (List.pairwise_append.mp hpair).2.1).1 e h
      exact absurd hlt this.asymm
  have hsub : (before.foldl (selectTransition (tables d) cb C event) { env := w }).transSet ⊆
      (selectTransitions (tables d) cb C event w).transSet := by
    rw [selectTransitions, hl, List.foldl_append]
    exact transSet_subset _ _
  have hin : ∀ i ∈ before, i ∈ (tables d).transitions := by
    intro i hi
    rw [hl]
    exact List.mem_append_left _ hi
  have hselected : Selected (tables d) C (before.foldl (selectTransition (tables d) cb C event) { env := w }) :=
    List.foldl_invariant _ (fun _ i hi h => selectTransition_selected (tables d) cb (hin i hi) h)
      (Selected.start (tables d) C w)
  have hfree : ∀ u ∈ (before.foldl (selectTransition (tables d) cb C event) { env := w }).transSet,
      d.conflicts u t = false := by
    intro u hu
    rw [← Bool.not_eq_true]
    intro hc
    refine htakes.2.2.1 ((hselected.conflicts t).mpr ⟨u, hu, ?_⟩)
    simp [tables, transitionInfo, htmem, hc]
  rcases selected_or_preempted (Selected.start (tables d) C w) hin hbefore henabled with h | ⟨u, hu, hc⟩
  · have hsame : d.conflicts e t = true := by
      rw [Document.conflicts_iff]
      left
      simp only [Document.getSourceState, hsource]
    exact absurd hsame (by simp [hfree e h])
  · refine ⟨u, hsub hu, ?_, hfree u hu⟩
    simp only [tables, transitionInfo, List.mem_toFinset, List.mem_filter] at hc
    exact hc.2

/-! ### Runs -/

section

variable (T : Tables)

def Unconditional (e : TransId) : Prop :=
  e ∈ T.transitions ∧ ((T.trans e).history || (T.trans e).initial) = false ∧ (T.trans e).event = "" ∧ (T.trans e).cond = ""

/-- After a search for eventless transitions in vain none of those without a condition has an active source. -/
def Exhausted (s : St ω) : Prop :=
  s.flags.pristine = false → s.flags.spontaneous = false →
    ∀ e, Unconditional T e → (T.trans e).source ∉ s.configuration

variable {T} {cb : Callbacks ω}

theorem Unconditional.enabled {e : TransId} (h : Unconditional T e) {C : Finset TreePath} (hC : (T.trans e).source ∈ C) :
    Enabled T cb C {} e := by
  obtain ⟨-, hpseudo, hevent, hcond⟩ := h
  refine ⟨hpseudo, hC, ?_, fun w => ?_⟩
  · simp [kindMatches, hevent, Event.toBool]
  · simp [FastMicroStep.enabled, hcond, Event.toBool]

theorem found_of_enabled (cb : Callbacks ω) {C : Finset TreePath} {event : Event} {e : TransId} (hmem : e ∈ T.transitions)
    (h : Enabled T cb C event e) (w : ω) : (selectTransitions T cb C event w).found = true := by
  rw [(selectTransitions_selected T cb C event w).found]
  rcases selected_or_preempted (Selected.start T C w) (fun _ hi => hi) hmem h with h | ⟨u, hu, -⟩
  · exact ⟨e, h⟩
  · exact ⟨u, hu⟩

theorem exhausted_step {s : St ω} (h : Exhausted T s) : Exhausted T (step T cb s).2 := by
  have hkeep : ∀ {s' : St ω}, s.flags.pristine = false → s'.configuration = s.configuration →
      s'.flags.spontaneous = s.flags.spontaneous → Exhausted T s' := by
    intro s' hp hC hf _ hs
    rw [hC]
    exact h hp (hf ▸ hs)
  have hspontaneous : ∀ {s' : St ω}, s'.flags.spontaneous = true → Exhausted T s' :=
    fun hs' _ hs => absurd (hs'.symm.trans hs) Bool.true_eq_false.mp
  have hselect : ∀ {s₀ : St ω}, s₀.configuration = s.configuration →
      ((selectTransitions T cb s₀.configuration s₀.event s₀.env).found = false →
        ∀ e, Unconditional T e → (T.trans e).source ∉ s.configuration) → Exhausted T (selectAndStep T cb s₀).2 := by
    intro s₀ hC hnone
    generalize hsel : selectTransitions T cb s₀.configuration s₀.event s₀.env = sel at hnone
    cases hfound : sel.found with
    | true =>
      rw [selectAndStep_of_found T cb hsel hfound]
      exact hspontaneous (by rw [microstep_toMicro]; rfl)
    | false =>
      rw [selectAndStep_of_not_found T cb hsel hfound]
      intro _ _
      rw [hC]
      exact hnone hfound
  have hdrained : (drained T cb s).configuration = s.configuration ∧ (drained T cb s).flags = s.flags := by
    rw [drained_toMicro]
    exact ⟨rfl, rfl⟩
  have harises := phase_arises T cb s
  rw [step_eq_phase]
  generalize phase T cb s = ph at harises
  cases harises with
  | finished => exact h
  | completion _ ht =>
    have hp : s.flags.pristine = false := by
      rw [Flags.pristine, decide_eq_false_iff_not]
      intro hf
      simp [hf] at ht
    exact hkeep hp (by rw [Phase.finish, complete_toMicro]) (by rw [Phase.finish, complete_toMicro])
  | start => exact hspontaneous (by rw [Phase.finish, microstep_toMicro]; rfl)
  | eventless hr _ =>
    refine hselect rfl fun hfound e he hsource => ?_
    have := found_of_enabled cb he.1 (he.enabled hsource) s.env
    exact absurd (hfound.symm.trans this) Bool.false_ne_true
  | internal hr hs _ => exact hselect rfl fun _ => h hr.pristine hs
  | stable hr _ => exact hkeep hr.pristine hdrained.1 (by simp [Phase.finish, hdrained.2])
  | thrown hr w u _ =>
    exact hkeep hr.pristine (by simp [Phase.finish, dequeued, hdrained.1]) (by simp [Phase.finish, dequeued, hdrained.2])
  | external hr event w _ _ =>
    exact hselect (by simp [processing, dequeued, hdrained.1]) fun _ => h hr.pristine hr.spontaneous
  | unblocked hr event w _ _ =>
    rw [Phase.finish]
    split
    · exact hkeep hr.pristine (by simp [dequeued, hdrained.1]) (by simp [dequeued, hdrained.2])
    · exact hkeep hr.pristine (by simp [dequeued, hdrained.1]) (by simp [dequeued, hdrained.2])

theorem exhausted_of_reachable {s : St ω} (hs : Reachable T cb s) : Exhausted T s := by
  induction hs with
  | init w => exact fun hp => absurd hp (by simp [Flags.pristine])
  | step _ ih => exact exhausted_step ih
  | environment w _ ih => exact ih
  | cancel _ ih => exact ih

end

/-- Callbacks that match events by name, and whose queues deliver events with plain names. -/
structure PlainWorld (cb : Callbacks ω) : Prop where
  isMatched : ∀ event text w, (cb.isMatched event text w).1 = nameMatch text.toList event.name.toList
  internal : ∀ w, PlainName (cb.dequeueInternal w).1.name.toList
  external : ∀ C w event w', cb.dequeueExternal C w = (.ok event, w') → PlainName event.name.toList

/-- The selection a microstep begins with: for an event with a plain name, or for none at all, and then eventless transitions
without a condition have no active source unless it is for none. -/
theorem selection_of_microstep {T : Tables} {cb : Callbacks ω} (hcb : PlainWorld cb) {s : St ω} (hs : Reachable T cb s)
    {m : Microstep} (hm : microstepOf T cb s = some m) {t : TransId} (ht : t ∈ m.transSet) :
    ∃ event w, m.transSet = (selectTransitions T cb s.configuration event w).transSet ∧
      (event = {} ∨ event.toBool = true ∧ PlainName event.name.toList ∧
        ∀ e, Unconditional T e → (T.trans e).source ∉ s.configuration) := by
  have hexhausted := exhausted_of_reachable hs
  have hdrained : (drained T cb s).configuration = s.configuration := by rw [drained_toMicro]
  have harises := phase_arises T cb s
  rw [microstepOf] at hm
  generalize phase T cb s = ph at harises hm
  have hselect : ∀ s₀ : St ω, s₀.configuration = s.configuration →
      (if (selectTransitions T cb s₀.configuration s₀.event s₀.env).found = true then
        some ((selectTransitions T cb s₀.configuration s₀.event s₀.env).microstep T s₀.toMicro) else none) = some m →
      m.transSet = (selectTransitions T cb s.configuration s₀.event s₀.env).transSet := by
    intro s₀ hC h
    split at h
    · cases h
      rw [← hC]
      rfl
    · cases h
  cases harises with
  | finished => cases hm
  | completion => cases hm
  | start =>
    cases hm
    simp at ht
  | eventless => exact ⟨{}, _, hselect { s with event := {} } rfl hm, Or.inl rfl⟩
  | internal hr hspont he =>
    refine ⟨_, _,
      hselect (processing (cb.dequeueInternal s.env).1 { s with env := (cb.dequeueInternal s.env).2 }) rfl hm, ?_⟩
    refine Or.inr ⟨he, ?_, ?_⟩
    · exact hcb.internal s.env
    · exact hexhausted hr.pristine hspont
  | stable => cases hm
  | thrown => cases hm
  | external hr event w hd he =>
    refine ⟨_, _, hselect (processing event (dequeued event w (drained T cb s))) ?_ hm, Or.inr ⟨he, ?_, ?_⟩⟩
    · simp [processing, dequeued, hdrained]
    · exact hcb.external _ _ event w hd
    · exact hexhausted hr.pristine hr.spontaneous
  | unblocked => cases hm

/-- An earlier transition is always enabled when a later one of the same element is selected. -/
theorem enabled_of_alwaysEnabled {d : Document β} {cb : Callbacks ω}
    (hmatch : ∀ event text w, (cb.isMatched event text w).1 = nameMatch text.toList event.name.toList)
    {C : Finset TreePath} {event : Event} {e t : TransId} (hsource : e.1 = t.1) {earlier later : TransitionElem β}
    (he : d.trans? e = some earlier) (ht : d.trans? t = some later) (halways : Document.alwaysEnabled earlier later = true)
    (hplain : ∀ text ∈ earlier.event, PlainEvent text.toList) (hplain' : ∀ text ∈ later.event, PlainEvent text.toList)
    (hname : event.toBool = true → PlainName event.name.toList)
    {sel : Selection ω} (htakes : Takes (tables d) cb C event sel t) (hkind : earlier.event = none → event.toBool = false) :
    Enabled (tables d) cb C event e := by
  have hinfo : ∀ i, (tables d).trans i = transitionInfo d i := fun _ => rfl
  simp only [Takes, hinfo] at htakes
  obtain ⟨hpseudo, hC, -, hk, hen⟩ := htakes
  rw [Document.alwaysEnabled, Bool.and_eq_true, Option.isNone_iff_eq_none] at halways
  have hcond : (transitionInfo d e).cond = "" := by simp [transitionInfo, he, halways.1]
  simp only [Enabled, hinfo]
  refine ⟨?_, ?_, ?_⟩
  · simpa [transitionInfo, hsource] using hpseudo
  · simpa [transitionInfo, hsource] using hC
  cases hearlier : earlier.event with
  | none =>
    have hnone := hkind hearlier
    have hev : (transitionInfo d e).event = "" := by simp [transitionInfo, he, hearlier]
    exact ⟨by simp [kindMatches, hev, hnone], fun w => by simp [enabled, hnone, hcond]⟩
  | some descs =>
    rw [hearlier] at halways
    cases hlater : later.event with
    | none => simp [hlater] at halways
    | some events =>
      rw [hlater] at halways
      have hpe := hplain descs hearlier
      have hpl := hplain' events hlater
      have hdescs : descs ≠ "" := fun h => hpe.nonempty (by simp [h])
      have hevents : events ≠ "" := fun h => hpl.nonempty (by simp [h])
      have hev : (transitionInfo d e).event = descs := by simp [transitionInfo, he, hearlier]
      have hevt : (transitionInfo d t).event = events := by simp [transitionInfo, ht, hlater]
      have hbool : event.toBool = true := by simpa [kindMatches, hevt, hevents] using hk
      have hmatched : nameMatch events.toList event.name.toList = true := by
        rw [← hmatch event events sel.env]
        by_contra hno
        rw [Bool.not_eq_true] at hno
        rcases hq : cb.isMatched event events sel.env with ⟨b, w⟩
        rw [hq] at hno
        simp [enabled, hbool, hevt, hq, hno] at hen
      have hall : ∀ w ∈ tokenize events.toList, nameMatch descs.toList w = true := List.all_eq_true.mp halways.2
      have hearly := nameMatch_of_descriptors hpe hpl (hname hbool) hall hmatched
      refine ⟨by simp [kindMatches, hev, hdescs, hbool], fun w => ?_⟩
      have hm := hmatch event descs w
      rw [hearly] at hm
      rcases hq : cb.isMatched event descs w with ⟨b, w'⟩
      rw [hq] at hm
      simp [enabled, hbool, hev, hq, hm, hcond]

/-- An eventless transition that makes a selected one redundant has no condition. -/
theorem unconditional_of_front {d : Document β} {cb : Callbacks ω} {C : Finset TreePath} {event : Event} {w : ω}
    {t : TransId} {k : Nat} (hk : k < t.2) {earlier later : TransitionElem β} (he : d.trans? (t.1, k) = some earlier)
    (hnone : earlier.event = none) (halways : Document.alwaysEnabled earlier later = true)
    (ht : t ∈ (selectTransitions (tables d) cb C event w).transSet) : Unconditional (tables d) (t.1, k) := by
  have hselected := selectTransitions_selected (tables d) cb C event w
  have hlen : t.2 < (d.transitionsAt t.1).length := mem_postFixTransitions.mp (hselected.active t ht).1
  obtain ⟨hhistory, hinitial⟩ := hselected.proper t ht
  rw [Document.alwaysEnabled, Bool.and_eq_true, Option.isNone_iff_eq_none] at halways
  refine ⟨mem_postFixTransitions.mpr (hk.trans hlen), ?_, ?_, ?_⟩
  · change ((transitionInfo d t).history || (transitionInfo d t).initial) = false
    change (transitionInfo d t).history = false at hhistory
    change (transitionInfo d t).initial = false at hinitial
    rw [hhistory, hinitial]
    rfl
  · simp [tables, transitionInfo, he, hnone]
  · simp [tables, transitionInfo, he, halways.1]

theorem takes_of_selected {T : Tables} {cb : Callbacks ω} {C : Finset TreePath} {event : Event} {w : ω} {t : TransId}
    (ht : t ∈ (selectTransitions T cb C event w).transSet) : ∃ sel, Takes T cb C event sel t := by
  obtain ⟨before, -, -, htakes⟩ := exists_round (by simp) ht
  exact ⟨_, htakes⟩

/-- Transitions that are selected together without a conflict leave different regions of a parallel. -/
theorem parallel_of_selected {d : Document β} {cb : Callbacks ω} {C : Finset TreePath} {event : Event} {w : ω}
    {u t : TransId} (hu : u ∈ (selectTransitions (tables d) cb C event w).transSet)
    (ht : t ∈ (selectTransitions (tables d) cb C event w).transSet) (hfree : d.conflicts u t = false) (hn : d.Nesting)
    (hC : d.Legal C) : d.isParallel (TreePath.meet u.1 t.1) = true := by
  have hselected := selectTransitions_selected (tables d) cb C event w
  have hsource : ∀ i ∈ (selectTransitions (tables d) cb C event w).transSet, d.getSourceState i = i.1 := by
    intro i hi
    have hinitial := (hselected.proper i hi).2
    rw [Document.getSourceState, if_neg]
    intro htag
    simp [tables, transitionInfo, htag] at hinitial
  refine hC.together hn (hselected.active u hu).2 (hselected.active t ht).2 ?_
  rw [← Bool.not_eq_true, Document.conflicts_iff, hsource u hu, hsource t ht] at hfree
  exact ⟨fun h => hfree (Or.inl h), fun h => hfree (Or.inr (Or.inl h)), fun h => hfree (Or.inr (Or.inr (Or.inl h)))⟩

/-- In every run with plain texts a transition that is reported as redundant is taken only in a microstep in which another
one, of a different region, keeps the earlier transition from being taken and leaves the later one alone. When the earlier
transition is eventless, so is the later one. -/
theorem redundant_preempted {d : Document β} (hplain : d.PlainEvents) {name : Option String} {issues : List Issue}
    (hissues : d.forInterpreter name = some issues) {t : TransId} (hissue : Document.redundancyIssue t ∈ issues)
    {cb : Callbacks ω} (hcb : PlainWorld cb) {s : St ω} (hs : Reachable (tables d) cb s) {m : Microstep}
    (hm : microstepOf (tables d) cb s = some m) (ht : t ∈ m.transSet) :
    ∃ k < t.2, ∃ earlier ∈ d.trans? (t.1, k), ∃ later ∈ d.trans? t,
      Document.alwaysEnabled earlier later = true ∧ (earlier.event = none → later.event = none) ∧
        ∃ u ∈ m.transSet, d.conflicts u (t.1, k) = true ∧ d.conflicts u t = false ∧
          (d.Nesting → d.Legal s.configuration → d.isParallel (TreePath.meet u.1 t.1) = true) := by
  obtain ⟨event, w, htrans, hevent⟩ := selection_of_microstep hcb hs hm ht
  have hredundant := Document.redundant_of_issue hissues hissue
  simp only [Document.redundant, List.any_eq_true, List.mem_range, Option.any_eq_true] at hredundant
  obtain ⟨k, hk, earlier, he, later, hl, halways⟩ := hredundant
  rw [htrans] at ht ⊢
  obtain ⟨sel, htakes⟩ := takes_of_selected ht
  have hpl := hplain.of_trans hl
  -- With an event at hand there is no eventless transition without a condition in front of this one.
  have hkind : earlier.event = none → event.toBool = false := by
    intro hnone
    rcases hevent with rfl | ⟨-, -, hexhausted⟩
    · rfl
    · exact absurd htakes.2.1 (hexhausted (t.1, k) (unconditional_of_front hk he hnone halways ht))
  have hname : event.toBool = true → PlainName event.name.toList := by
    intro h
    rcases hevent with rfl | ⟨-, hn, -⟩
    · exact absurd h (by decide)
    · exact hn
  have henabled : Enabled (tables d) cb s.configuration event (t.1, k) :=
    enabled_of_alwaysEnabled (e := (t.1, k)) (t := t) hcb.isMatched rfl he hl halways (hplain.of_trans he) hpl hname
      htakes hkind
  obtain ⟨u, hu, hconf, hfree⟩ := preempted_of_selected (e := (t.1, k)) (t := t) rfl hk henabled ht
  refine ⟨k, hk, earlier, he, later, hl, halways, ?_, u, hu, hconf, hfree, parallel_of_selected hu ht hfree⟩
  intro hnone
  have hempty : (transitionInfo d t).event = "" := by
    have hk := htakes.2.2.2.1
    change kindMatches event (transitionInfo d t) = true at hk
    simpa [kindMatches, hkind hnone] using hk
  cases hlater : later.event with
  | none => rfl
  | some text =>
    have htext : text = "" := by simpa [transitionInfo, hl, hlater] using hempty
    exact absurd (by simp [htext]) (hpl text hlater).nonempty

/-! ### A redundant transition that is taken -/

/-- Two regions. The first transition of `a` leaves both, the second one stays inside its region. -/
def leavingBoth : Document Unit where
  tree :=
    { root := { tag := .scxml }
      kids := .cons { tag := .parallel, id := some "p" }
        (.cons { tag := .state, id := some "r" }
          (.cons { tag := .state, id := some "c", transitions := [{ target := some ["d"], event := some "go" }] } .nil
            (.cons { tag := .state, id := some "d" } .nil .nil))
          (.cons { tag := .state, id := some "s" }
            (.cons { tag := .state, id := some "a", transitions :=
                [{ target := some ["q"], event := some "go" }, { target := some ["b"], event := some "go.on go" }] } .nil
              (.cons { tag := .state, id := some "b" } .nil .nil)) .nil))
        (.cons { tag := .state, id := some "q" } .nil .nil) }

def plainEvents : Callbacks (List Event) where
  dequeueInternal w := ({}, w)
  dequeueExternal _ w :=
    match w with
    | [] => (.ok {}, [])
    | event :: w => if PlainName event.name.toList then (.ok event, w) else (.ok {}, w)
  isMatched event text w := (nameMatch text.toList event.name.toList, w)
  raiseDoneEvent _ _ _ w := w
  isTrue _ _ w := (true, w)
  initData _ _ w := w
  process _ _ w := w
  invoke _ _ w := w
  uninvoke _ _ w := w

theorem plainEvents_plain : PlainWorld plainEvents where
  isMatched _ _ _ := rfl
  internal _ := ⟨List.forall_mem_nil _, List.forall_mem_nil _⟩
  external C w event w' h := by
    cases w with
    | nil =>
      cases h
      decide
    | cons e w =>
      simp only [plainEvents] at h
      split at h
      · rename_i hplain
        cases h
        exact hplain
      · cases h
        decide

def beforeGo : St (List Event) := steps (tables leavingBoth) plainEvents 3 { env := [{ name := "go" }] }

theorem leavingBoth_plainEvents : leavingBoth.PlainEvents := by
  unfold Document.PlainEvents
  decide +kernel

/-- The second transition of `a` is reported as redundant, and taken: the one out of `c` stays inside the other region. -/
theorem redundant_preempted_leavingBoth :
    ∃ m ∈ microstepOf (tables leavingBoth) plainEvents beforeGo, ([0, 1, 0], 1) ∈ m.transSet ∧
      ∃ k < 1, ∃ earlier ∈ leavingBoth.trans? ([0, 1, 0], k), ∃ later ∈ leavingBoth.trans? ([0, 1, 0], 1),
        Document.alwaysEnabled earlier later = true ∧ (earlier.event = none → later.event = none) ∧
          ∃ u ∈ m.transSet, leavingBoth.conflicts u ([0, 1, 0], k) = true ∧ leavingBoth.conflicts u ([0, 1, 0], 1) = false ∧
            (leavingBoth.Nesting → leavingBoth.Legal beforeGo.configuration →
              leavingBoth.isParallel (TreePath.meet u.1 [0, 1, 0]) = true) := by
  have hissues : leavingBoth.forInterpreter none = some [Document.redundancyIssue ([0, 1, 0], 1)] := by decide +kernel
  have hsome : (microstepOf (tables leavingBoth) plainEvents beforeGo).isSome = true := by decide +kernel
  have hboth : ∀ m ∈ microstepOf (tables leavingBoth) plainEvents beforeGo, ([0, 1, 0], 1) ∈ m.transSet := by decide +kernel
  obtain ⟨m, hm⟩ := Option.isSome_iff_exists.mp hsome
  exact ⟨m, hm, hboth m hm, redundant_preempted leavingBoth_plainEvents hissues (List.mem_singleton_self _)
    plainEvents_plain ((Reachable.init _).steps _ _ 3) hm (hboth m hm)⟩

end FastMicroStep

end Uscxml
