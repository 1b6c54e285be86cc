import Mathlib.Data.Finset.Max
import Uscxml.ChartToC.Finals
import Uscxml.ChartToC.History

/-!
# Done events of parallels in the generated code

For a parallel above an entered final state the generated code collects the active states below it and lets every active
final state remove its ancestors. It does so in the middle of the loop that enters states, and asks neither whether all
regions are active yet nor how far below a region a final state is.
-/

namespace Uscxml

namespace ChartToC

open Document
open FastMicroStep (Entry Microstep)

variable {β ω : Type}

/-! ### The loop over the entry set -/

section Loop

variable (M : Machine) (f : Functions ω)

/-- The context in which a pass establishes its entry set, or goes on without one. -/
def establishing (c : Ctx ω) : Ctx ω :=
  match enterStep M f c with
  | .leave _ c => c
  | .establish c => c
  | .select c =>
    let sel := selectTransitions M f c.config c.event c.env
    { c with
      env := sel.env
      flags := { c.flags with spontaneous := true }
      history := FastMicroStep.rememberHistory M.tables c.config (sel.exitSet ∩ c.config) c.history }

/-- The context in which the loop over the entry set of a microstep comes to `i`. -/
def comesTo (m : Microstep) (c : Ctx ω) (i : TreePath) : Ctx ω :=
  (M.states.takeWhile (· ≠ i)).foldl (enterState M f (m.entry M.tables))
    (takeTransitions M f (m.entry M.tables).transSet (exitStates M f m.exitSet (establishing M f c)))

variable {M f}

theorem onePass_eq_microstep {c : Ctx ω} {m : Microstep} (h : microstepOf M f c = some m) :
    (establishing M f c).config = m.configuration ∧ (establishing M f c).history = m.history ∧
      onePass M f c = (microstep M f m.targetSet m.exitSet m.transSet (establishing M f c)).2 := by
  rw [microstepOf] at h
  rw [establishing, onePass]
  cases hj : enterStep M f c with
  | leave ret c' =>
    rw [hj] at h
    cases h
  | establish c' =>
    rw [hj] at h
    cases h
    exact ⟨rfl, rfl, rfl⟩
  | select c' =>
    rw [hj] at h
    simp only at h
    split at h
    · rename_i hfound
      cases h
      simp only [Jump.follow, hfound]
      exact ⟨trivial, trivial, rfl⟩
    · cases h

theorem enterState_err {e : Entry} {c : Ctx ω} {i : TreePath} (h : (enterState M f e c i).err = false) : c.err = false := by
  by_contra herr
  rw [Bool.not_eq_false] at herr
  rw [enterState_of_not M f (.inl herr), herr] at h
  cases h

theorem enterState_config {e : Entry} {c : Ctx ω} {i : TreePath} (herr : c.err = false)
    (h : FastMicroStep.enters M.tables e.entrySet c.config i) : (enterState M f e c i).config = insert i c.config := by
  obtain ⟨c', hc', heq⟩ := enterState_of_enters M f herr h
  rw [heq]
  split
  · rw [(handleFinal_spec M f i c').config, hc'.config]
  · exact hc'.config

theorem doneActs_enterState (e : Entry) (c : Ctx ω) (i : TreePath) :
    doneActs (enterState M f e c i).acts = doneActs c.acts ++ raisedBy c (enterState M f e c i) := by
  have hprefix : doneActs c.acts <+: doneActs (enterState M f e c i).acts := by
    by_cases h : c.err = true ∨ ¬ FastMicroStep.enters M.tables e.entrySet c.config i
    · rw [enterState_of_not M f h]
    · rw [not_or, not_not, Bool.not_eq_true] at h
      obtain ⟨c', hc', heq⟩ := enterState_of_enters M f h.1 h.2
      have hsame : doneActs c'.acts = doneActs c.acts := hc'.done
      rw [heq, ← hsame]
      split
      · rw [(handleFinal_spec M f i c').done]
        exact List.prefix_append _ _
      · exact List.prefix_rfl
  exact (List.prefix_iff_eq_append.mp hprefix).symm

/-- When nothing has failed the loop has entered what there was to enter. -/
theorem foldl_enterState_config (e : Entry) {l : List TreePath} (hl : l.Pairwise (· < ·)) {c : Ctx ω}
    (herr : (l.foldl (enterState M f e) c).err = false) :
    c.err = false ∧ (l.foldl (enterState M f e) c).config =
      c.config ∪ (FastMicroStep.entered M.tables e.entrySet c.config l).toFinset := by
  induction l generalizing c with
  | nil => exact ⟨herr, by simp [FastMicroStep.entered]⟩
  | cons i l ih =>
    rw [List.pairwise_cons] at hl
    rw [List.foldl_cons] at herr ⊢
    obtain ⟨hround, hrest⟩ := ih hl.2 herr
    have herr' := enterState_err hround
    refine ⟨herr', ?_⟩
    rw [hrest]
    by_cases h : FastMicroStep.enters M.tables e.entrySet c.config i
    · have hi : i ∉ l := fun hm => lt_irrefl i (hl.1 i hm)
      rw [enterState_config herr' h, FastMicroStep.entered_cons M.tables hi h, List.toFinset_cons, Finset.insert_union,
        Finset.union_insert]
    · rw [enterState_of_not M f (.inr h), FastMicroStep.entered, FastMicroStep.entered, List.filter_cons,
        if_neg (by simpa using h)]

theorem takeWhile_ne_eq_filter {l : List TreePath} (hl : l.Pairwise (· < ·)) {i : TreePath} (hi : i ∈ l) :
    l.takeWhile (· ≠ i) = l.filter (· < i) := by
  induction l with
  | nil => cases hi
  | cons a l ih =>
    rw [List.pairwise_cons] at hl
    by_cases ha : a = i
    · subst ha
      have hnone : l.filter (· < a) = [] := by
        rw [List.filter_eq_nil_iff]
        exact fun b hb => by simpa using (hl.1 b hb).le
      rw [List.takeWhile_cons, if_neg (by simp), List.filter_cons, if_neg (by simp), hnone]
    · have hil : i ∈ l := (List.mem_cons.mp hi).resolve_left (Ne.symm ha)
      rw [List.takeWhile_cons, if_pos (by simpa using ha), List.filter_cons, if_pos (by simpa using hl.1 i hil),
        ih hl.2 hil]

/-- The configuration that the loop makes when it enters `i`: what stays active, and the states entered up to `i`. -/
theorem insert_comesTo (hsorted : M.states.Pairwise (· < ·)) {c : Ctx ω} {m : Microstep}
    (hm : microstepOf M f c = some m) {i : TreePath} (hi : i ∈ M.states) (herr : (comesTo M f m c i).err = false)
    (henters : FastMicroStep.enters M.tables (m.entry M.tables).entrySet (comesTo M f m c i).config i) :
    insert i (comesTo M f m c i).config = m.configurationAt M.tables i := by
  obtain ⟨hconfig, hhistory, -⟩ := onePass_eq_microstep hm
  have hexit := exitStates_spec M f m.exitSet (establishing M f c)
  have htake := takeTransitions_spec M f (m.entry M.tables).transSet (exitStates M f m.exitSet (establishing M f c))
  have hstart : (takeTransitions M f (m.entry M.tables).transSet (exitStates M f m.exitSet (establishing M f c))).config =
      FastMicroStep.remaining M.tables m.exitSet m.configuration := by
    rw [htake.config, hexit.config]
    simp only [hconfig]
  have hbefore := (foldl_enterState_config (m.entry M.tables) (hsorted.sublist (List.takeWhile_sublist _)) herr).2
  have hcomes : (comesTo M f m c i).config = _ := hbefore
  rw [hstart, takeWhile_ne_eq_filter hsorted hi] at hcomes
  rw [hcomes] at henters ⊢
  ext j
  simp only [Microstep.configurationAt, FastMicroStep.configurationAt, Microstep.newStates, FastMicroStep.newStates,
    FastMicroStep.enteredStates, Finset.mem_insert, Finset.mem_union, List.mem_toFinset, List.mem_filter,
    FastMicroStep.mem_entered, decide_eq_true_eq]
  have hself : FastMicroStep.enters M.tables (m.entry M.tables).entrySet
      (FastMicroStep.remaining M.tables m.exitSet m.configuration) i :=
    ⟨henters.1, fun hmem => henters.2.1 (Finset.mem_union_left _ hmem), henters.2.2⟩
  constructor
  · rintro (rfl | hj | ⟨⟨hj, hlt⟩, hentered⟩)
    · exact .inr ⟨⟨hi, hself⟩, le_refl _⟩
    · exact .inl hj
    · exact .inr ⟨⟨hj, hentered⟩, hlt.le⟩
  · rintro (hj | ⟨⟨hj, hentered⟩, hle⟩)
    · exact .inr (.inl hj)
    · rcases hle.lt_or_eq with hlt | rfl
      · exact .inr (.inr ⟨⟨hj, hlt⟩, hentered⟩)
      · exact .inl rfl

/-- The done events of a pass are those of the rounds of this loop. -/
theorem doneActs_onePass (hsorted : M.states.Pairwise (· < ·)) {c : Ctx ω} {m : Microstep} (hm : microstepOf M f c = some m) :
    doneActs (onePass M f c).acts = doneActs (establishing M f c).acts ++ M.states.flatMap fun i =>
      raisedBy (comesTo M f m c i) (enterState M f (m.entry M.tables) (comesTo M f m c i) i) := by
  obtain ⟨hconfig, hhistory, hpass⟩ := onePass_eq_microstep hm
  have hentry : FastMicroStep.establishEntrySet M.tables (establishing M f c).config m.exitSet (establishing M f c).history
      m.targetSet m.transSet = m.entry M.tables := by
    rw [hconfig, hhistory]
    rfl
  have hstart : doneActs (takeTransitions M f (m.entry M.tables).transSet
      (exitStates M f m.exitSet (establishing M f c))).acts = doneActs (establishing M f c).acts :=
    (takeTransitions_spec M f _ _).done.trans (exitStates_spec M f m.exitSet (establishing M f c)).done
  -- Round by round, from the states that stand before the others.
  have hloop : ∀ (l : List TreePath) (c' : Ctx ω), l.Nodup → doneActs (l.foldl (enterState M f (m.entry M.tables)) c').acts =
      doneActs c'.acts ++ l.flatMap fun i =>
        raisedBy ((l.takeWhile (· ≠ i)).foldl (enterState M f (m.entry M.tables)) c')
          (enterState M f (m.entry M.tables) ((l.takeWhile (· ≠ i)).foldl (enterState M f (m.entry M.tables)) c') i) := by
    intro l
    induction l with
    | nil => simp
    | cons i l ih =>
      intro c' hnodup
      rw [List.nodup_cons] at hnodup
      have hrest : ∀ j ∈ l, (i :: l).takeWhile (· ≠ j) = i :: l.takeWhile (· ≠ j) := by
        intro j hj
        rw [List.takeWhile_cons, if_pos]
        simpa using fun h : i = j => hnodup.1 (h ▸ hj)
      have hflat : (l.flatMap fun j => raisedBy (((i :: l).takeWhile (· ≠ j)).foldl (enterState M f (m.entry M.tables)) c')
          (enterState M f (m.entry M.tables)
            (((i :: l).takeWhile (· ≠ j)).foldl (enterState M f (m.entry M.tables)) c') j)) =
          l.flatMap fun j => raisedBy ((l.takeWhile (· ≠ j)).foldl (enterState M f (m.entry M.tables))
            (enterState M f (m.entry M.tables) c' i)) (enterState M f (m.entry M.tables)
            ((l.takeWhile (· ≠ j)).foldl (enterState M f (m.entry M.tables)) (enterState M f (m.entry M.tables) c' i)) j) := by
        refine List.flatMap_congr fun j hj => ?_
        rw [hrest j hj, List.foldl_cons]
      rw [List.foldl_cons, ih _ hnodup.2, doneActs_enterState, List.flatMap_cons, hflat, List.append_assoc]
      congr 2
      rw [List.takeWhile_cons, if_neg (by simp)]
      rfl
  have hwhole := hloop M.states (takeTransitions M f (m.entry M.tables).transSet
    (exitStates M f m.exitSet (establishing M f c))) (hsorted.imp fun h => ne_of_lt h)
  rw [hstart] at hwhole
  rw [hpass, microstep]
  simp only [hentry]
  split
  · exact hwhole
  · simp only [act, doneActs_append]
    rw [← enterStates] at hwhole
    rw [hwhole]
    exact List.append_nil _

end Loop

/-! ### What is left of a parallel -/

section Parallels

variable {d : Document β}

/-- An active state below `P` among some states that is not final and above no active final one of them. -/
def Unended (d : Document β) (C : Finset TreePath) (P : TreePath) (l : List TreePath) (x : TreePath) : Prop :=
  x ∈ l ∧ x ∈ C ∧ x.Below P ∧ d.tag? x ≠ some .final ∧ ∀ k ∈ l, k ∈ C → d.tag? k = some .final → ¬ k.Below x

theorem unended_concat_iff {C : Finset TreePath} {P k x : TreePath} {l : List TreePath} :
    Unended d C P (l ++ [k]) x ↔ (x ∈ l ∨ x = k) ∧ x ∈ C ∧ x.Below P ∧ d.tag? x ≠ some .final ∧
      (∀ k' ∈ l, k' ∈ C → d.tag? k' = some .final → ¬ k'.Below x) ∧ (k ∈ C → d.tag? k = some .final → ¬ k.Below x) := by
  rw [Unended, List.mem_append, List.mem_singleton, List.forall_mem_append, List.forall_mem_singleton]

/-- Behind a final state nothing that is above it stays. -/
theorem unended_final {C : Finset TreePath} {P k x : TreePath} {l : List TreePath} (hC : k ∈ C) (hfinal : d.tag? k = some .final) :
    Unended d C P (l ++ [k]) x ↔ Unended d C P l x ∧ ¬ k.Below x := by
  rw [unended_concat_iff]
  constructor
  · rintro ⟨hx, hxC, hb, hnf, hnone, hlast⟩
    refine ⟨⟨hx.resolve_right ?_, hxC, hb, hnf, hnone⟩, hlast hC hfinal⟩
    rintro rfl
    exact hnf hfinal
  · rintro ⟨⟨hx, hxC, hb, hnf, hnone⟩, hnot⟩
    exact ⟨Or.inl hx, hxC, hb, hnf, hnone, fun _ _ => hnot⟩

theorem unended_insert {C : Finset TreePath} {P k x : TreePath} {l : List TreePath} (hC : k ∈ C) (hP : k.Below P)
    (hfinal : d.tag? k ≠ some .final) (hlast : ∀ y ∈ l, y < k) : Unended d C P (l ++ [k]) x ↔ x = k ∨ Unended d C P l x := by
  rw [unended_concat_iff]
  constructor
  · rintro ⟨hx | hx, hxC, hb, hnf, hnone, -⟩
    · exact Or.inr ⟨hx, hxC, hb, hnf, hnone⟩
    · exact Or.inl hx
  · rintro (rfl | ⟨hx, hxC, hb, hnf, hnone⟩)
    · exact ⟨Or.inr rfl, hC, hP, hfinal, fun k' hk' _ _ hb' => lt_asymm (hlast k' hk') hb'.lt, fun _ h => absurd h hfinal⟩
    · exact ⟨Or.inl hx, hxC, hb, hnf, hnone, fun _ h => absurd h hfinal⟩

/-- A state that is not active or not below `P` has no part in the scan. -/
theorem unended_skip {C : Finset TreePath} {P k x : TreePath} {l : List TreePath} (hnot : ¬ (k ∈ C ∧ k.Below P)) :
    Unended d C P (l ++ [k]) x ↔ Unended d C P l x := by
  rw [unended_concat_iff]
  constructor
  · rintro ⟨hx, hxC, hb, hnf, hnone, -⟩
    refine ⟨hx.resolve_right ?_, hxC, hb, hnf, hnone⟩
    rintro rfl
    exact hnot ⟨hxC, hb⟩
  · rintro ⟨hx, hxC, hb, hnf, hnone⟩
    exact ⟨Or.inl hx, hxC, hb, hnf, hnone, fun hC _ hb' => hnot ⟨hC, hb'.trans hb⟩⟩

/-- What the scan of the active states below a parallel leaves: the states that are not final and above no final one. -/
theorem mem_tmpStates (hf : ∀ p ∈ d.states, (d.elem? p).any (·.finalAttr) = false) {C : Finset TreePath} {P x : TreePath}
    (hP : P ∈ d.states) :
    x ∈ tmpStates (machine d) C P ↔ x ∈ d.states ∧ x ∈ C ∧ x.Below P ∧ d.tag? x ≠ some .final ∧
      ∀ k ∈ d.states, k ∈ C → d.tag? k = some .final → ¬ k.Below x := by
  suffices hscan : ∀ l : List TreePath, l.Pairwise (· < ·) → (∀ k ∈ l, k ∈ d.states) → (x ∈ l.foldl (fun tmp k =>
      if P ∈ ((machine d).state k).ancestors ∧ k ∈ C then
        if ((machine d).state k).type = .final then tmp \ ((machine d).state k).ancestors else insert k tmp
      else tmp) ∅ ↔ Unended d C P l x) from
    hscan d.states d.tree.preorder_pairwise fun _ hk => hk
  intro l
  induction l using List.reverseRecOn with
  | nil => simp [Unended]
  | append_singleton l k ih =>
    intro hsorted hl
    rw [List.pairwise_append] at hsorted
    have hlast : ∀ y ∈ l, y < k := fun y hy => hsorted.2.2 y hy k List.mem_cons_self
    have ih := ih hsorted.1 fun y hy => hl y (List.mem_append_left _ hy)
    have htype : ((machine d).state k).type = .final ↔ d.tag? k = some .final := stateType_final_iff hf
    have habove : ∀ a, a ∈ ((machine d).state k).ancestors ↔ a ∈ d.states ∧ k.Below a := fun a => mem_stateInfo_ancestors
    rw [List.foldl_append, List.foldl_cons, List.foldl_nil]
    by_cases hactive : P ∈ ((machine d).state k).ancestors ∧ k ∈ C
    · rw [if_pos hactive]
      have hkP := ((habove P).mp hactive.1).2
      by_cases hfinal : d.tag? k = some .final
      · rw [if_pos (htype.mpr hfinal), Finset.mem_sdiff, ih, habove, unended_final hactive.2 hfinal]
        apply and_congr_right
        intro hx
        rw [and_iff_right (hl x (List.mem_append_left _ hx.1))]
      · rw [if_neg fun h => hfinal (htype.mp h), Finset.mem_insert, ih, unended_insert hactive.2 hkP hfinal hlast]
    · rw [if_neg hactive, ih, unended_skip fun h => hactive ⟨(habove P).mpr ⟨hP, h.2⟩, h.1⟩]

/-- The regions of a parallel: the children, of it and of the parallels nested in it through parallels only, that are no
parallels themselves. -/
def RegionOf (d : Document β) (P R : TreePath) : Prop :=
  ∃ Q, d.NestedParallel P Q ∧ d.ProperChild Q R ∧ d.tag? R ≠ some .parallel

def HasFinalChild (d : Document β) (C : Finset TreePath) (R : TreePath) : Prop :=
  ∃ k ∈ C, d.ProperChild R k ∧ d.tag? k = some .final

/-- Every active state below `P` is final or has an active final state below it. -/
def Ended (d : Document β) (C : Finset TreePath) (P : TreePath) : Prop :=
  ∀ x ∈ d.states, x ∈ C → x.Below P →
    d.tag? x = some .final ∨ ∃ k ∈ d.states, k ∈ C ∧ d.tag? k = some .final ∧ k.Below x

theorem tmpStates_eq_empty_iff (hf : ∀ p ∈ d.states, (d.elem? p).any (·.finalAttr) = false) {C : Finset TreePath}
    {P : TreePath} (hP : P ∈ d.states) : tmpStates (machine d) C P = ∅ ↔ Ended d C P := by
  rw [Finset.eq_empty_iff_forall_notMem]
  constructor
  · intro h x hx hC hb
    by_contra hcon
    rw [not_or] at hcon
    refine h x ((mem_tmpStates hf hP).mpr ⟨hx, hC, hb, hcon.1, ?_⟩)
    exact fun k hk hkC hkf hkx => hcon.2 ⟨k, hk, hkC, hkf, hkx⟩
  · intro h x hx
    obtain ⟨hstate, hC, hb, hnf, hnone⟩ := (mem_tmpStates hf hP).mp hx
    rcases h x hstate hC hb with hfinal | ⟨k, hk, hkC, hkf, hkx⟩
    · exact hnf hfinal
    · exact hnone k hk hkC hkf hkx

theorem subtreeSize_lt {p c : TreePath} (h : d.ProperChild p c) : d.subtreeSize c < d.subtreeSize p := by
  have hp : p ∈ d.states := mem_states_of_above h.below.1 h.mem_states
  refine Finset.card_lt_card ⟨?_, ?_⟩
  · intro q hq
    rw [Finset.mem_filter] at hq ⊢
    exact ⟨hq.1, h.below.1.trans hq.2⟩
  · intro hsub
    have hmem := hsub (Finset.mem_filter.mpr ⟨List.mem_toFinset.mpr hp, List.prefix_refl p⟩)
    exact absurd (Finset.mem_filter.mp hmem).2.length_le (Nat.not_le.mpr h.below.length_lt)

theorem NestedParallel.child {P c : TreePath} (hP : d.tag? P = some .parallel) (hc : d.ProperChild P c) {Q : TreePath}
    (h : d.NestedParallel c Q) : d.NestedParallel P Q := by
  refine ⟨hc.below.1.trans h.1, ?_⟩
  intro a ha haQ
  by_cases hca : c <+: a
  · exact h.2 a hca haQ
  · -- Above the child there is only the parallel itself.
    rcases TreePath.comparable haQ h.1 with he | he | he
    · exact absurd (he ▸ List.prefix_refl c) hca
    · exact absurd he.1 hca
    · have hle := TreePath.prefix_parent_of_below he
      rw [hc.2.1] at hle
      rwa [TreePath.prefix_antisymm hle ha]

/-- The children of a parallel are in final states exactly when all its regions have active final children. -/
theorem inFinalState_iff_regions {C : Finset TreePath} {P : TreePath} (hP : d.tag? P = some .parallel) :
    (∀ c, d.ProperChild P c → d.InFinalState C c) ↔ ∀ R, RegionOf d P R → HasFinalChild d C R := by
  constructor
  · -- From the parallel down to the one that holds the region.
    rintro h R ⟨Q, hQ, hR, hnp⟩
    have hall : ∀ n (Q : TreePath), Q.length = P.length + n → d.NestedParallel P Q →
        ∀ c, d.ProperChild Q c → d.InFinalState C c := by
      intro n
      induction n with
      | zero =>
        intro Q hlen hQ
        obtain rfl : P = Q := hQ.1.eq_of_length hlen.symm
        exact h
      | succ n ih =>
        intro Q hlen hQ c hc
        have hne : Q ≠ [] := by
          rintro rfl
          simp at hlen
        have hbelow : Q.Below P := ⟨hQ.1, fun he => by rw [he] at hlen; omega⟩
        have hpar : d.tag? Q = some .parallel := hQ.2 Q hQ.1 (List.prefix_refl Q)
        have hparent : d.NestedParallel P Q.parent :=
          ⟨TreePath.prefix_parent_of_below hbelow, fun a ha haQ => hQ.2 a ha (haQ.trans (TreePath.below_parent hne).1)⟩
        have hlen' : Q.parent.length = P.length + n := by
          rw [TreePath.parent, List.length_dropLast]
          omega
        have hin := ih Q.parent hlen' hparent Q ⟨hne, rfl, properState_iff.mpr (Or.inl hpar)⟩
        cases hin with
        | compound hs => exact absurd hpar hs
        | parallel _ hchildren => exact hchildren c hc
    have hin := hall (Q.length - P.length) Q (by have := hQ.1.length_le; omega) hQ R hR
    cases hin with
    | compound _ hk hchild hfinal => exact ⟨_, hk, hchild, hfinal⟩
    | parallel hs => exact absurd hs hnp
  · intro h c hc
    induction hn : d.subtreeSize c using Nat.strong_induction_on generalizing P c with
    | h n ih =>
      by_cases hpar : d.tag? c = some .parallel
      · refine .parallel hpar ?_
        intro c' hc'
        refine ih (d.subtreeSize c') (hn ▸ subtreeSize_lt hc') hpar ?_ c' hc' rfl
        rintro R ⟨Q, hQ, hR, hnp⟩
        exact h R ⟨Q, NestedParallel.child hP hc hQ, hR, hnp⟩
      · obtain ⟨k, hk, hchild, hfinal⟩ := h c ⟨P, NestedParallel.refl hP, hc, hpar⟩
        exact .compound hpar hk hchild hfinal

/-! ### When the two agree -/

/-- An active state below `P` with no active state below it. -/
def Innermost (d : Document β) (C : Finset TreePath) (P x : TreePath) : Prop :=
  x ∈ d.states ∧ x ∈ C ∧ x.Below P ∧ ∀ y ∈ d.states, y ∈ C → ¬ y.Below x

/-- A region of `P` that is in no final state. -/
def OpenRegion (d : Document β) (C : Finset TreePath) (P R : TreePath) : Prop :=
  RegionOf d P R ∧ ¬ HasFinalChild d C R

/-- An open region has come to an innermost state that is not final. -/
def Underway (d : Document β) (C : Finset TreePath) (P : TreePath) : Prop :=
  ∃ R x, OpenRegion d C P R ∧ Innermost d C P x ∧ R <+: x ∧ d.tag? x ≠ some .final

/-- All there is in some open region are final states: it is entered later, or its final states are further below. -/
def Astray (d : Document β) (C : Finset TreePath) (P : TreePath) : Prop :=
  ∃ R, OpenRegion d C P R ∧ ∀ x, Innermost d C P x → R <+: x → d.tag? x = some .final

/-- An innermost state outside the open regions is not final: a nested parallel whose regions are entered later. -/
def Hollow (d : Document β) (C : Finset TreePath) (P : TreePath) : Prop :=
  ∃ x, Innermost d C P x ∧ d.tag? x ≠ some .final ∧ ∀ R, OpenRegion d C P R → ¬ R <+: x

/-- Some open region is underway, or the states that mislead the scan stand on both sides or on none. -/
def Tells (d : Document β) (C : Finset TreePath) (P : TreePath) : Prop :=
  Underway d C P ∨ (Hollow d C P ↔ Astray d C P)

theorem exists_innermost {C : Finset TreePath} {P x : TreePath} (hx : x ∈ d.states) (hC : x ∈ C) (hb : x.Below P) :
    ∃ y, Innermost d C P y ∧ x <+: y := by
  have hself : x ∈ C.filter fun y => y ∈ d.states ∧ x <+: y := Finset.mem_filter.mpr ⟨hC, hx, List.prefix_refl x⟩
  obtain ⟨y, hy, hlongest⟩ := Finset.exists_max_image _ List.length ⟨x, hself⟩
  obtain ⟨hyC, hys, hxy⟩ := Finset.mem_filter.mp hy
  refine ⟨y, ⟨hys, hyC, ?_, ?_⟩, hxy⟩
  · rcases TreePath.below_or_eq_of_prefix hxy with rfl | hyx
    · exact hb
    · exact hyx.trans hb
  · intro z hz hzC hzy
    exact absurd (hlongest z (Finset.mem_filter.mpr ⟨hzC, hz, hxy.trans hzy.1⟩)) (Nat.not_le.mpr hzy.length_lt)

/-- The scan leaves nothing exactly when every innermost state is final. -/
theorem ended_iff_innermost {C : Finset TreePath} {P : TreePath} :
    Ended d C P ↔ ∀ x, Innermost d C P x → d.tag? x = some .final := by
  constructor
  · rintro h x ⟨hx, hC, hb, hnone⟩
    rcases h x hx hC hb with hfinal | ⟨k, hk, hkC, -, hkx⟩
    · exact hfinal
    · exact absurd hkx (hnone k hk hkC)
  · intro h x hx hC hb
    obtain ⟨y, hy, hxy⟩ := exists_innermost hx hC hb
    rcases TreePath.below_or_eq_of_prefix hxy with rfl | hyx
    · exact .inl (h _ hy)
    · exact .inr ⟨y, hy.1, hy.2.1, h y hy, hyx⟩

theorem ended_iff {C : Finset TreePath} {P : TreePath} : Ended d C P ↔ ¬ Underway d C P ∧ ¬ Hollow d C P := by
  rw [ended_iff_innermost]
  constructor
  · intro h
    constructor
    · rintro ⟨R, x, -, hx, -, hfinal⟩
      exact hfinal (h x hx)
    · rintro ⟨x, hx, hfinal, -⟩
      exact hfinal (h x hx)
  · rintro ⟨hunderway, hhollow⟩ x hx
    by_contra hfinal
    exact hhollow ⟨x, hx, hfinal, fun R hR hRx => hunderway ⟨R, x, hR, hx, hRx, hfinal⟩⟩

theorem regions_final_iff {C : Finset TreePath} {P : TreePath} :
    (∀ R, RegionOf d P R → HasFinalChild d C R) ↔ ¬ Underway d C P ∧ ¬ Astray d C P := by
  constructor
  · intro h
    constructor
    · rintro ⟨R, x, hR, -⟩
      exact hR.2 (h R hR.1)
    · rintro ⟨R, hR, -⟩
      exact hR.2 (h R hR.1)
  · rintro ⟨hunderway, hastray⟩ R hR
    by_contra hopen
    refine hastray ⟨R, ⟨hR, hopen⟩, fun x hx hRx => ?_⟩
    by_contra hfinal
    exact hunderway ⟨R, x, ⟨hR, hopen⟩, hx, hRx, hfinal⟩

theorem tells_iff {C : Finset TreePath} {P : TreePath} :
    (Ended d C P ↔ ∀ R, RegionOf d P R → HasFinalChild d C R) ↔ Tells d C P := by
  rw [ended_iff, regions_final_iff, Tells]
  by_cases hunderway : Underway d C P
  · simp [hunderway]
  · rw [or_iff_right hunderway, and_iff_right hunderway, and_iff_right hunderway, not_iff_not]

/-- A region of a chart that stands astray is not active yet, or has an active final state below its children. -/
theorem Astray.later_or_deep (hd : d.FinalChart) {C : Finset TreePath} {P : TreePath} (h : Astray d C P) :
    ∃ R, OpenRegion d C P R ∧ (R ∉ C ∨ ∃ k ∈ C, d.tag? k = some .final ∧ k.Below R ∧ ¬ d.ProperChild R k) := by
  obtain ⟨R, hR, hall⟩ := h
  obtain ⟨Q, hQ, hchild, -⟩ := hR.1
  refine ⟨R, hR, ?_⟩
  by_cases hC : R ∈ C
  · have hparent : d.tag? R.parent = some .parallel := hchild.2.1 ▸ hQ.2 Q hQ.1 (List.prefix_refl Q)
    have hnf : d.tag? R ≠ some .final := fun hfinal => hd.finalParent R hchild.mem_states hfinal hparent
    obtain ⟨k, hk, hRk⟩ := exists_innermost hchild.mem_states hC (hchild.below.trans_above hQ.1)
    have hfinal := hall k hk hRk
    rcases TreePath.below_or_eq_of_prefix hRk with rfl | hb
    · exact absurd hfinal hnf
    · exact .inr ⟨k, hk.2.1, hfinal, hb, fun hc => hR.2 ⟨k, hk.2.1, hc, hfinal⟩⟩
  · exact .inl hC

end Parallels

/-- In every microstep, for every parallel above a final state it enters: the generated code raises its done event exactly
when its children are in final states, if and only if the states that are active by then tell. -/
theorem raises_parallel_iff {d : Document β} (hd : (resortStates d).FinalChart) {f : Functions ω} {c : Ctx ω}
    {m : Microstep} (hm : microstepOf (prepare d) f c = some m) {i P : TreePath} (hi : i ∈ (resortStates d).states)
    (h : EntersFinal (prepare d) f (m.entry (prepare d).tables) (comesTo (prepare d) f m c i) i)
    (hP : (resortStates d).tag? P = some .parallel) (hb : i.Below P) :
    (P ∈ raisedBy (comesTo (prepare d) f m c i)
          (enterState (prepare d) f (m.entry (prepare d).tables) (comesTo (prepare d) f m c i) i) ↔
        ∀ R, (resortStates d).ProperChild P R →
          (resortStates d).InFinalState (m.configurationAt (prepare d).tables i) R) ↔
      Tells (resortStates d) (m.configurationAt (prepare d).tables i) P := by
  have hPs := mem_states_of_tag hP
  have hfinal : (resortStates d).tag? i = some .final := (stateType_final_iff hd.finalAttr).mp h.final
  have hne : P ≠ i.parent := by
    rintro rfl
    exact hd.finalParent i hi hfinal hP
  have hconfig : insert i (comesTo (prepare d) f m c i).config = m.configurationAt (prepare d).tables i :=
    insert_comesTo (resortStates d).tree.preorder_pairwise hm hi h.running h.enters
  have hraised : P ∈ raisedBy (comesTo (prepare d) f m c i)
        (enterState (prepare d) f (m.entry (prepare d).tables) (comesTo (prepare d) f m c i) i) ↔
      Ended (resortStates d) (m.configurationAt (prepare d).tables i) P := by
    rw [h.spec.2, List.mem_append, hconfig]
    have hfirst : P ∉ (if looksTopLevel (prepare d) i then [] else [((prepare d).state i).parent]) := by
      split
      · simp
      · exact fun hmem => hne (List.mem_singleton.mp hmem)
    have hmem : P ∈ doneParallels (prepare d) (m.configurationAt (prepare d).tables i) i ↔
        tmpStates (prepare d) (m.configurationAt (prepare d).tables i) P = ∅ := by
      have htype : ((prepare d).state P).type = .parallel := (stateType_parallel_iff hd.finalAttr).mpr hP
      have habove : P ∈ ((prepare d).state i).ancestors := mem_stateInfo_ancestors.mpr ⟨hPs, hb⟩
      rw [doneParallels, List.mem_filter, decide_eq_true_iff]
      exact ⟨fun h => h.2.2.2, fun h => ⟨hPs, htype, habove, h⟩⟩
    rw [hmem, or_iff_right hfirst]
    exact tmpStates_eq_empty_iff hd.finalAttr hPs
  rw [hraised, inFinalState_iff_regions hP]
  exact tells_iff

/-- A parallel whose first region is in a final state at once and whose second one is not. -/
def earlyFinal : Document Unit where
  tree :=
    { root := { tag := .scxml }
      kids := .cons { tag := .parallel, id := some "p" }
        (.cons { tag := .state, id := some "a" } (.cons { tag := .final, id := some "fa" } .nil .nil)
          (.cons { tag := .state, id := some "b" } (.cons { tag := .state, id := some "b1" } .nil .nil) .nil)) .nil }

/-- The first call raises the done events of the region and of the parallel, although the second region is entered
behind it and never comes to a final state. -/
theorem parallel_done_early :
    doneActs (onePass (prepare earlyFinal) externalEvents { env := [] }).acts = [[0, 0], [0]] ∧
      (onePass (prepare earlyFinal) externalEvents { env := [] }).config = {[], [0], [0, 0], [0, 0, 0], [0, 1], [0, 1, 0]} ∧
      ¬ ∀ (c : Ctx (List Event)) (m : Microstep) (i P : TreePath), microstepOf (prepare earlyFinal) externalEvents c = some m →
        i ∈ (resortStates earlyFinal).states →
        EntersFinal (prepare earlyFinal) externalEvents (m.entry (prepare earlyFinal).tables)
          (comesTo (prepare earlyFinal) externalEvents m c i) i →
        (resortStates earlyFinal).tag? P = some .parallel → i.Below P →
        (P ∈ raisedBy (comesTo (prepare earlyFinal) externalEvents m c i)
            (enterState (prepare earlyFinal) externalEvents (m.entry (prepare earlyFinal).tables)
              (comesTo (prepare earlyFinal) externalEvents m c i) i) ↔
          ∀ R, (resortStates earlyFinal).ProperChild P R →
            (resortStates earlyFinal).InFinalState (m.configurationAt (prepare earlyFinal).tables i) R) := by
  refine ⟨by decide +kernel, by decide +kernel, ?_⟩
  intro h
  have hraised := h { env := [] } ⟨∅, ∅, ((prepare earlyFinal).state []).completion, ∅, ∅⟩ [0, 0, 0] [0] rfl
    (by decide +kernel) (by decide +kernel) (by decide +kernel) (by decide)
  have hin := hraised.mp (by decide +kernel) [0, 1] (by decide +kernel)
  cases hin with
  | compound _ hk hchild _ =>
    -- Nothing below the second region is active.
    have hnone : ∀ k ∈ Microstep.configurationAt (prepare earlyFinal).tables
        ⟨∅, ∅, ((prepare earlyFinal).state []).completion, ∅, ∅⟩ [0, 0, 0],
        ¬ (resortStates earlyFinal).ProperChild [0, 1] k := by decide +kernel
    exact hnone _ hk hchild
  | parallel hs => exact absurd hs (by decide +kernel)

/-- The second region is in its final state at once, the first one is underway. -/
theorem raises_parallel_iff_finalRegions :
    [0] ∈ raisedBy
        (comesTo (prepare FastMicroStep.finalRegions) externalEvents
          ⟨∅, ∅, ((prepare FastMicroStep.finalRegions).state []).completion, ∅, ∅⟩ { env := [] } [0, 1, 0])
        (enterState (prepare FastMicroStep.finalRegions) externalEvents
          (Microstep.entry (prepare FastMicroStep.finalRegions).tables
            ⟨∅, ∅, ((prepare FastMicroStep.finalRegions).state []).completion, ∅, ∅⟩)
          (comesTo (prepare FastMicroStep.finalRegions) externalEvents
            ⟨∅, ∅, ((prepare FastMicroStep.finalRegions).state []).completion, ∅, ∅⟩ { env := [] } [0, 1, 0]) [0, 1, 0]) ↔
      ∀ R, (resortStates FastMicroStep.finalRegions).ProperChild [0] R →
        (resortStates FastMicroStep.finalRegions).InFinalState
          (Microstep.configurationAt (prepare FastMicroStep.finalRegions).tables
            ⟨∅, ∅, ((prepare FastMicroStep.finalRegions).state []).completion, ∅, ∅⟩ [0, 1, 0]) R := by
  refine (raises_parallel_iff (c := { env := [] }) ?_ rfl (by decide +kernel) (by decide +kernel) (by decide +kernel)
    (by decide)).mpr (.inl ⟨[0, 0], [0, 0, 0], ⟨⟨[0], ⟨List.prefix_refl _, ?_⟩, by decide +kernel, by decide +kernel⟩, ?_⟩,
      ⟨by decide +kernel, by decide +kernel, by decide, by decide +kernel⟩, by decide, by decide +kernel⟩)
  · rw [resortStates_eq]
    exact FastMicroStep.finalRegions_finalChart
  · intro a ha ha'
    obtain rfl := TreePath.prefix_antisymm ha' ha
    decide +kernel
  · unfold HasFinalChild
    decide +kernel

end ChartToC

end Uscxml
