import Uscxml.Domains
import Mathlib.Data.List.Duplicate

/-!
# States that can be active together

`hasLegalCompletion` of `debug/InterpreterIssue.cpp` compares the states of a list pair by pair. That is enough: states
that meet in parallels pairwise are all active in some legal configuration. But it looks for any parallel above a pair
and not for the innermost element above it.
-/

namespace Uscxml

variable {β : Type}

namespace Document

/-- `hasLegalCompletion` lets two states pass: one is below the other, or some parallel is above both. -/
def legalPair (d : Document β) (s1 s2 : TreePath) : Bool :=
  isDescendant s1 s2 || isDescendant s2 s1 || (parentNodes s1).any fun parent => isDescendant s2 parent && d.isParallel parent

/-- The pairs of a list, each in the order of the list. -/
def legalPairs (d : Document β) : List TreePath → Bool
  | [] => true
  | s1 :: states => states.all (d.legalPair s1) && d.legalPairs states

def hasLegalCompletion (d : Document β) (states : List TreePath) : Bool :=
  if states.length < 2 then true else d.legalPairs states

variable {d : Document β}

def Unrelated (s1 s2 : TreePath) : Prop := s1 ≠ s2 ∧ ¬ s1.Below s2 ∧ ¬ s2.Below s1

/-- The two can be active together as far as they themselves go. -/
def Together (d : Document β) (s1 s2 : TreePath) : Prop := Unrelated s1 s2 → d.isParallel (TreePath.meet s1 s2) = true

theorem Unrelated.below_meet {s1 s2 : TreePath} (h : Unrelated s1 s2) :
    s1.Below (TreePath.meet s1 s2) ∧ s2.Below (TreePath.meet s1 s2) := by
  have hleft := TreePath.meet_above_left s1 s2
  have hright := TreePath.meet_above_right s1 s2
  constructor
  · refine (TreePath.below_or_eq_of_prefix hleft).resolve_left fun heq => ?_
    rw [← heq] at hright
    exact (TreePath.below_or_eq_of_prefix hright).elim (fun he => h.1 he.symm) h.2.2
  · refine (TreePath.below_or_eq_of_prefix hright).resolve_left fun heq => ?_
    rw [← heq] at hleft
    exact (TreePath.below_or_eq_of_prefix hleft).elim h.1 h.2.1

/-- Two states below different children of an element meet in the element. -/
theorem meet_eq_of_children {p c c' s s' : TreePath} (hc : c <+: s) (hc' : c' <+: s') (hne : c ≠ []) (hne' : c' ≠ [])
    (hp : c.parent = p) (hp' : c'.parent = p) (h : c ≠ c') : Unrelated s s' ∧ TreePath.meet s s' = p := by
  have hcp := TreePath.below_of_parent_eq hne hp
  have hcp' := TreePath.below_of_parent_eq hne' hp'
  have hsame : ∀ {x : TreePath}, c <+: x → c' <+: x → False := fun h₁ h₂ =>
    h (TreePath.eq_of_prefix_of_parent_eq h₁ h₂ hne hne' (hp.trans hp'.symm))
  refine ⟨⟨?_, ?_, ?_⟩, ?_⟩
  · rintro rfl
    exact hsame hc hc'
  · exact fun hb => hsame hc (hc'.trans hb.1)
  · exact fun hb => hsame (hc.trans hb.1) hc'
  · have hpm : p <+: TreePath.meet s s' := TreePath.le_meet (hcp.1.trans hc) (hcp'.1.trans hc')
    by_contra hnot
    obtain ⟨k, hk⟩ := TreePath.exists_child_of_below ((TreePath.below_or_eq_of_prefix hpm).resolve_left hnot)
    have hks := hk.trans (TreePath.meet_above_left s s')
    have hks' := hk.trans (TreePath.meet_above_right s s')
    have heq := TreePath.eq_of_prefix_of_parent_eq hks hc (by simp) hne ((TreePath.parent_concat p k).trans hp.symm)
    have heq' := TreePath.eq_of_prefix_of_parent_eq hks' hc' (by simp) hne' ((TreePath.parent_concat p k).trans hp'.symm)
    exact h (heq.symm.trans heq')

/-- In a legal configuration two unrelated states meet in a parallel. -/
theorem Legal.together (hn : d.Nesting) {C : Finset TreePath} (hC : d.Legal C) {s1 s2 : TreePath} (h1 : s1 ∈ C)
    (h2 : s2 ∈ C) : d.Together s1 s2 := by
  intro hun
  obtain ⟨hb1, hb2⟩ := hun.below_meet
  obtain ⟨k1, hk1⟩ := TreePath.exists_child_of_below hb1
  obtain ⟨k2, hk2⟩ := TreePath.exists_child_of_below hb2
  generalize hm : TreePath.meet s1 s2 = m at hb1 hb2 hk1 hk2 ⊢
  have hproper : ∀ k, m ++ [k] ∈ C → d.ProperChild m (m ++ [k]) :=
    fun k hk => ⟨by simp, TreePath.parent_concat m k, hC.proper _ hk (by simp)⟩
  have hc1 := hC.above h1 hk1
  have hc2 := hC.above h2 hk2
  by_contra hpar
  have hcomp := hn.isCompound_of_child (hproper k1 hc1) (mt isParallel_iff.mpr hpar)
  obtain ⟨c, -, huniq⟩ := hC.compound m (hC.ancestor s1 h1 m hb1) (Or.inr hcomp)
  have heq : m ++ [k1] = m ++ [k2] := (huniq _ ⟨hc1, hproper k1 hc1⟩).trans (huniq _ ⟨hc2, hproper k2 hc2⟩).symm
  -- The common child would be a common ancestor further down.
  have hdeeper : m ++ [k1] <+: TreePath.meet s1 s2 := TreePath.le_meet hk1 (heq ▸ hk2)
  have hlen := (hm ▸ hdeeper).length_le
  rw [List.length_append, List.length_singleton] at hlen
  omega

/-- A child of every compound state that leads to all the given states below it. -/
theorem exists_child_toward (hn : d.Nesting) {states : List TreePath} (hproper : ∀ s ∈ states, s = [] ∨ d.ProperState s)
    (htog : ∀ s1 ∈ states, ∀ s2 ∈ states, d.Together s1 s2) {p : TreePath} (hp : d.isCompound p = true) :
    ∃ c, d.ProperChild p c ∧ ∀ s ∈ states, s.Below p → c <+: s := by
  by_cases hsome : ∃ s ∈ states, s.Below p
  · obtain ⟨s, hs, hsp⟩ := hsome
    obtain ⟨k, hk⟩ := TreePath.exists_child_of_below hsp
    have hsproper : d.ProperState s := (hproper s hs).resolve_left fun h => TreePath.not_nil_below p (h ▸ hsp)
    have hchild : d.ProperState (p ++ [k]) := by
      rcases TreePath.below_or_eq_of_prefix hk with heq | hb
      · exact heq ▸ hsproper
      · exact (hn.proper_of_below hsproper.mem_states hb).resolve_left (by simp)
    refine ⟨p ++ [k], ⟨by simp, TreePath.parent_concat p k, hchild⟩, ?_⟩
    intro s' hs' hsp'
    obtain ⟨k', hk'⟩ := TreePath.exists_child_of_below hsp'
    by_cases heq : p ++ [k] = p ++ [k']
    · exact heq ▸ hk'
    · obtain ⟨hun, hmeet⟩ := meet_eq_of_children hk hk' (by simp) (by simp) (TreePath.parent_concat p k)
        (TreePath.parent_concat p k') heq
      have hpar := htog s hs s' hs' hun
      rw [hmeet] at hpar
      simp [isCompound, hpar] at hp
  · obtain ⟨c, hc⟩ := (hn.isCompound_iff.mp hp).2
    exact ⟨c, hc, fun s hs hsp => absurd ⟨s, hs, hsp⟩ hsome⟩

/-- A state on the way to which every compound state is left for the child that `toward` chooses. -/
def Follows (d : Document β) (toward : TreePath → TreePath) (q : TreePath) : Prop :=
  (q = [] ∨ d.ProperState q) ∧
    ∀ c : TreePath, c <+: q → c ≠ [] → d.isCompound c.parent = true → c = toward c.parent

theorem Follows.child {toward : TreePath → TreePath} {p c : TreePath} (hp : d.Follows toward p) (hc : d.ProperChild p c)
    (htoward : d.isCompound p = true → c = toward p) : d.Follows toward c := by
  refine ⟨Or.inr hc.2.2, ?_⟩
  intro x hx hne hcomp
  rcases TreePath.below_or_eq_of_prefix hx with rfl | hb
  · rw [hc.2.1] at hcomp ⊢
    exact htoward hcomp
  · refine hp.2 x ?_ hne hcomp
    have hpre := TreePath.prefix_parent_of_below hb
    rwa [hc.2.1] at hpre

/-- Choosing a child for every compound state gives a legal configuration. -/
theorem Nesting.exists_legal_follows (hn : d.Nesting) {toward : TreePath → TreePath}
    (htoward : ∀ p, d.isCompound p = true → d.ProperChild p (toward p)) :
    ∃ C, d.Legal C ∧ ∀ q, q ∈ C ↔ d.Follows toward q := by
  classical
  have hstate : ∀ q, d.Follows toward q → q ∈ d.states := by
    rintro q ⟨rfl | h, -⟩
    · exact d.root_mem_states
    · exact h.mem_states
  have hmem : ∀ q, q ∈ d.states.toFinset.filter (d.Follows toward) ↔ d.Follows toward q := by
    intro q
    rw [Finset.mem_filter, List.mem_toFinset]
    exact ⟨fun h => h.2, fun h => ⟨hstate q h, h⟩⟩
  refine ⟨d.states.toFinset.filter (d.Follows toward), ⟨?_, ?_, ?_, ?_, ?_⟩, hmem⟩
  · exact (hmem []).mpr ⟨Or.inl rfl, fun c hc hne => absurd (List.prefix_nil.mp hc) hne⟩
  · exact fun q hq hne => ((hmem q).mp hq).1.resolve_left hne
  · intro q hq a ha
    have hq' := (hmem q).mp hq
    exact (hmem a).mpr ⟨hn.proper_of_below (hstate q hq') ha, fun c hc => hq'.2 c (hc.trans ha.1)⟩
  · intro p hp hcomp
    have hc : d.isCompound p = true := hcomp.elim (fun h => h ▸ hn.isCompound_root) id
    have hchild := htoward p hc
    refine ⟨toward p, ⟨(hmem _).mpr (((hmem p).mp hp).child hchild fun _ => rfl), hchild⟩, ?_⟩
    intro y hy
    have hy' := ((hmem y).mp hy.1).2 y (List.prefix_refl y) hy.2.1
    rw [hy.2.2.1] at hy'
    exact hy' hc
  · intro p hp hpar c hc
    refine (hmem c).mpr (((hmem p).mp hp).child hc fun hcomp => ?_)
    simp [isCompound, hpar] at hcomp

/-- States that can be active together pairwise can be active together: every compound state is left for the child that
leads to them. -/
theorem exists_legal_of_together (hn : d.Nesting) {states : List TreePath} (hproper : ∀ s ∈ states, s = [] ∨ d.ProperState s)
    (htog : ∀ s1 ∈ states, ∀ s2 ∈ states, d.Together s1 s2) : ∃ C, d.Legal C ∧ ∀ s ∈ states, s ∈ C := by
  choose! toward htoward hleads using fun p (hp : d.isCompound p = true) => exists_child_toward hn hproper htog hp
  obtain ⟨C, hC, hmem⟩ := hn.exists_legal_follows htoward
  refine ⟨C, hC, fun s hs => (hmem s).mpr ⟨hproper s hs, fun c hc hne hcomp => ?_⟩⟩
  have hsc : s.Below c.parent := TreePath.Below.prefix_trans hc (TreePath.below_parent hne)
  have hchild := htoward c.parent hcomp
  exact TreePath.eq_of_prefix_of_parent_eq hc (hleads c.parent hcomp s hs hsc) hne hchild.1 hchild.2.1.symm

/-- Some legal configuration holds all the states. -/
def Completable (d : Document β) (states : List TreePath) : Prop := ∃ C, d.Legal C ∧ ∀ s ∈ states, s ∈ C

theorem completable_iff (hn : d.Nesting) {states : List TreePath} :
    d.Completable states ↔
      (∀ s ∈ states, s = [] ∨ d.ProperState s) ∧ ∀ s1 ∈ states, ∀ s2 ∈ states, d.Together s1 s2 := by
  constructor
  · rintro ⟨C, hC, hmem⟩
    refine ⟨fun s hs => ?_, fun s1 h1 s2 h2 => hC.together hn (hmem s1 h1) (hmem s2 h2)⟩
    exact or_iff_not_imp_left.mpr (hC.proper s (hmem s hs))
  · rintro ⟨hproper, htog⟩
    exact exists_legal_of_together hn hproper htog

/-! ### What `hasLegalCompletion` tests -/

def ParallelAbove (d : Document β) (s1 s2 : TreePath) : Prop := ∃ a, s1.Below a ∧ s2.Below a ∧ d.isParallel a = true

theorem legalPair_iff {s1 s2 : TreePath} :
    d.legalPair s1 s2 = true ↔ s1.Below s2 ∨ s2.Below s1 ∨ d.ParallelAbove s1 s2 := by
  simp [legalPair, ParallelAbove, or_assoc]

theorem legalPair_symm {s1 s2 : TreePath} (h : d.legalPair s1 s2 = true) : d.legalPair s2 s1 = true := by
  rw [legalPair_iff] at h ⊢
  rcases h with hb | hb | ⟨a, h1, h2, ha⟩
  · exact Or.inr (Or.inl hb)
  · exact Or.inl hb
  · exact Or.inr (Or.inr ⟨a, h2, h1, ha⟩)

theorem legalPairs_iff {states : List TreePath} :
    d.legalPairs states = true ↔ states.Pairwise fun s1 s2 => d.legalPair s1 s2 = true := by
  induction states with
  | nil => simp [legalPairs]
  | cons s1 states ih => simp [legalPairs, ih, List.pairwise_cons]

/-- A list passes when all its pairs do, the one a repeated state forms with itself included. -/
theorem hasLegalCompletion_iff {states : List TreePath} :
    d.hasLegalCompletion states = true ↔
      (∀ s1 ∈ states, ∀ s2 ∈ states, Unrelated s1 s2 → d.ParallelAbove s1 s2) ∧
        ∀ s, List.Duplicate s states → d.ParallelAbove s s := by
  have hpairs : d.hasLegalCompletion states = true ↔ states.Pairwise fun s1 s2 => d.legalPair s1 s2 = true := by
    rw [hasLegalCompletion, ← legalPairs_iff]
    split
    · rename_i hlen
      match states, hlen with
      | [], _ => simp [legalPairs]
      | [s], _ => simp [legalPairs]
    · rfl
  rw [hpairs]
  constructor
  · intro h
    constructor
    · intro s1 h1 s2 h2 hun
      have : Std.Symm fun s1 s2 => d.legalPair s1 s2 = true := ⟨fun _ _ => legalPair_symm⟩
      have hpair := h.forall h1 h2 hun.1
      exact ((legalPair_iff.mp hpair).resolve_left hun.2.1).resolve_left hun.2.2
    · intro s hs
      have hsub : [s, s].Sublist states := List.duplicate_iff_sublist.mp hs
      have hpair := legalPair_iff.mp (List.pairwise_iff_forall_sublist.mp h hsub)
      exact (hpair.resolve_left (TreePath.not_below_self s)).resolve_left (TreePath.not_below_self s)
  · rintro ⟨hdiff, hsame⟩
    refine List.pairwise_iff_forall_sublist.mpr ?_
    intro s1 s2 hsub
    rw [legalPair_iff]
    by_cases heq : s1 = s2
    · subst heq
      exact Or.inr (Or.inr (hsame s1 (List.duplicate_iff_sublist.mpr hsub)))
    by_cases h12 : s1.Below s2
    · exact Or.inl h12
    by_cases h21 : s2.Below s1
    · exact Or.inr (Or.inl h21)
    · exact Or.inr (Or.inr (hdiff s1 (hsub.subset (by simp)) s2 (hsub.subset (by simp)) ⟨heq, h12, h21⟩))

/-- The innermost element above both is not parallel, but some element further out is. -/
def ParallelFurtherOut (d : Document β) (s1 s2 : TreePath) : Prop :=
  Unrelated s1 s2 ∧ d.isParallel (TreePath.meet s1 s2) = false ∧ d.ParallelAbove s1 s2

theorem together_iff {s1 s2 : TreePath} :
    d.Together s1 s2 ↔ (Unrelated s1 s2 → d.ParallelAbove s1 s2) ∧ ¬ d.ParallelFurtherOut s1 s2 := by
  constructor
  · intro h
    refine ⟨fun hun => ?_, fun ⟨hun, hpar, _⟩ => by simp [h hun] at hpar⟩
    exact ⟨_, hun.below_meet.1, hun.below_meet.2, h hun⟩
  · rintro ⟨habove, hnot⟩ hun
    by_contra hpar
    exact hnot ⟨hun, by simpa using hpar, habove hun⟩

/-- `hasLegalCompletion` answers as it should exactly when two unrelated states of the list have no parallel above them,
or when the list repeats a state without a parallel above just in case it holds a pseudo-state or two unrelated states
whose innermost common ancestor is not parallel while one further out is. -/
theorem hasLegalCompletion_correct_iff (hn : d.Nesting) {states : List TreePath} (hstates : ∀ s ∈ states, s ∈ d.states) :
    (d.hasLegalCompletion states = true ↔ d.Completable states) ↔
      (∃ s1 ∈ states, ∃ s2 ∈ states, Unrelated s1 s2 ∧ ¬ d.ParallelAbove s1 s2) ∨
        ((∃ s, List.Duplicate s states ∧ ¬ d.ParallelAbove s s) ↔
          (∃ s ∈ states, d.tag? s = some .history ∨ d.tag? s = some .initial) ∨
            ∃ s1 ∈ states, ∃ s2 ∈ states, d.ParallelFurtherOut s1 s2) := by
  have hpseudo : (∀ s ∈ states, s = [] ∨ d.ProperState s) ↔
      ¬ ∃ s ∈ states, d.tag? s = some .history ∨ d.tag? s = some .initial := by
    push Not
    refine forall₂_congr fun s hs => ?_
    rw [← hn.root, properState_iff]
    obtain ⟨e, he⟩ := Option.isSome_iff_exists.mp (Document.mem_states.mp (hstates s hs))
    cases htag : e.tag <;> simp [tag?, he, htag]
  have htog : (∀ s1 ∈ states, ∀ s2 ∈ states, d.Together s1 s2) ↔
      (¬ ∃ s1 ∈ states, ∃ s2 ∈ states, Unrelated s1 s2 ∧ ¬ d.ParallelAbove s1 s2) ∧
        ¬ ∃ s1 ∈ states, ∃ s2 ∈ states, d.ParallelFurtherOut s1 s2 := by
    push Not
    simp only [together_iff, ← forall_and]
  have hcode : d.hasLegalCompletion states = true ↔
      (¬ ∃ s1 ∈ states, ∃ s2 ∈ states, Unrelated s1 s2 ∧ ¬ d.ParallelAbove s1 s2) ∧
        ¬ ∃ s, List.Duplicate s states ∧ ¬ d.ParallelAbove s s := by
    rw [hasLegalCompletion_iff]
    push Not
    rfl
  rw [hcode, completable_iff hn, hpseudo, htog]
  clear hcode hpseudo htog hstates hn
  generalize (∃ s1 ∈ states, ∃ s2 ∈ states, Unrelated s1 s2 ∧ ¬ d.ParallelAbove s1 s2) = apart
  generalize (∃ s, List.Duplicate s states ∧ ¬ d.ParallelAbove s s) = repeated
  generalize (∃ s ∈ states, d.tag? s = some .history ∨ d.tag? s = some .initial) = pseudo
  generalize (∃ s1 ∈ states, ∃ s2 ∈ states, d.ParallelFurtherOut s1 s2) = outer
  tauto

/-- Two states of one region are taken for states that can be active together, since the parallel is above both, and a
state named twice for one that cannot. -/
theorem siblings_accepted :
    (leavingRegion.hasLegalCompletion [[0, 0, 0], [0, 0, 1]] = true ∧ ¬ leavingRegion.Completable [[0, 0, 0], [0, 0, 1]]) ∧
      leavingRegion.hasLegalCompletion [[1], [1]] = false ∧ leavingRegion.Completable [[1], [1]] := by
  refine ⟨⟨by decide +kernel, ?_⟩, by decide +kernel, {[], [1]}, by decide +kernel, by decide⟩
  rintro ⟨C, hC, hmem⟩
  have htog := hC.together leavingRegion_nesting (hmem [0, 0, 0] (by simp)) (hmem [0, 0, 1] (by simp))
  exact absurd (htog ⟨by decide, by decide, by decide⟩) (by decide +kernel)

/-- Two states of different regions. -/
theorem hasLegalCompletion_correct_regions :
    leavingRegion.Nesting ∧
      (leavingRegion.hasLegalCompletion [[0, 0, 0], [0, 1, 0]] = true ↔ leavingRegion.Completable [[0, 0, 0], [0, 1, 0]]) := by
  refine ⟨leavingRegion_nesting, (hasLegalCompletion_correct_iff leavingRegion_nesting (by decide +kernel)).mpr ?_⟩
  refine Or.inr (iff_of_false ?_ ?_)
  · rintro ⟨s, hs, -⟩
    exact List.nodup_iff_forall_not_duplicate.mp (by decide) s hs
  · rintro (⟨s, hs, htag⟩ | ⟨s1, h1, s2, h2, hun, hpar, -⟩)
    · have hall : ∀ s ∈ ([[0, 0, 0], [0, 1, 0]] : List TreePath), leavingRegion.tag? s = some .state := by decide +kernel
      simp [hall s hs] at htag
    · have hall : ∀ s1 ∈ ([[0, 0, 0], [0, 1, 0]] : List TreePath), ∀ s2 ∈ ([[0, 0, 0], [0, 1, 0]] : List TreePath),
          s1 = s2 ∨ leavingRegion.isParallel (TreePath.meet s1 s2) = true := by decide +kernel
      rcases hall s1 h1 s2 h2 with heq | hp
      · exact hun.1 heq
      · simp [hp] at hpar

end Document

end Uscxml
