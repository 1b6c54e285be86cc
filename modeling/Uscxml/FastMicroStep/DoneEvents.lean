import Uscxml.FastMicroStep.Calls
import Uscxml.Legal

/-!
# Done events

When a final state is entered, its parent is done, and so is every parallel of the chain above the parent all of
whose children are in final states. The microstepper decides this for a parallel by removing from its descendants,
for every active final state among them, the parent of that state with everything below it, and a nested parallel
when nothing below it is left. Pseudo-states that are children of parallels and parallels without children are
never removed.
-/

namespace Uscxml

variable {β : Type}

namespace Document

/-- In a final state: a state with an active final child, or a parallel whose children are all in final states. -/
inductive InFinalState (d : Document β) (C : Finset TreePath) : TreePath → Prop where
  | compound {s k : TreePath} (hs : d.tag? s ≠ some .parallel) (hk : k ∈ C) (hchild : d.ProperChild s k)
      (hfinal : d.tag? k = some .final) : InFinalState d C s
  | parallel {s : TreePath} (hs : d.tag? s = some .parallel)
      (hall : ∀ c, d.ProperChild s c → InFinalState d C c) : InFinalState d C s

def parallelsAbove (d : Document β) (p : TreePath) : List TreePath := (parentNodes p).takeWhile d.isParallel

/-- The done events that are due when the final state `F` is entered and the configuration is then `C`: that of its
parent, and those of the parallels above it whose children are all in final states. -/
def DoneDue (d : Document β) (C : Finset TreePath) (F : TreePath) (done : List TreePath) : Prop :=
  ∃ l, done = F.parent :: l ∧ l.Sublist (d.parallelsAbove F.parent) ∧
    ∀ P ∈ d.parallelsAbove F.parent, P ∈ l ↔ ∀ c, d.ProperChild P c → d.InFinalState C c

/-- Charts in which final states stand below states, and no attribute makes a state final. -/
structure FinalChart (d : Document β) : Prop extends Nesting d where
  finalAttr : ∀ p ∈ d.states, (d.elem? p).any (·.finalAttr) = false
  finalParent : ∀ p ∈ d.states, d.tag? p = some .final → d.tag? p.parent ≠ some .parallel

def NestedParallel (d : Document β) (P Q : TreePath) : Prop :=
  P <+: Q ∧ ∀ a, P <+: a → a <+: Q → d.tag? a = some .parallel

/-- The parallels at and right below `P` have children, and only proper states among them. -/
def Plain (d : Document β) (P : TreePath) : Prop :=
  ∀ Q, d.NestedParallel P Q → d.children Q ≠ [] ∧ ∀ c ∈ d.children Q, d.ProperState c

/-- The parents of active final states below `P` do not stand above each other. -/
def FinalsApart (d : Document β) (C : Finset TreePath) (P : TreePath) : Prop :=
  ∀ k ∈ C, ∀ k' ∈ C, d.tag? k = some .final → d.tag? k' = some .final → k.Below P → k'.Below P → k ≠ k' →
    ¬ k.parent <+: k'.parent

/-! ### What is removed -/

/-- Removed for the sake of the final states in `K`: at or below the parent of one of them, or a parallel with
children all of whose children are removed. -/
inductive Removed (d : Document β) (K : Finset TreePath) : TreePath → Prop where
  | region {s k : TreePath} (hk : k ∈ K) (h : k.parent <+: s) : Removed d K s
  | parallel {s : TreePath} (hs : d.tag? s = some .parallel) (hne : d.children s ≠ [])
      (hall : ∀ c ∈ d.children s, Removed d K c) : Removed d K s

variable {d : Document β}

theorem exists_child_mem {a x : TreePath} (hx : x ∈ d.states) (h : x.Below a) : ∃ c ∈ d.children a, c <+: x := by
  obtain ⟨k, hk⟩ := TreePath.exists_child_of_below h
  exact ⟨a ++ [k], mem_children.mpr ⟨mem_states_of_above hk hx, by simp, by simp⟩, hk⟩

theorem below_of_mem_children {a c : TreePath} (h : c ∈ d.children a) : c.Below a :=
  TreePath.below_of_parent_eq (mem_children.mp h).2.1 (mem_children.mp h).2.2

theorem NestedParallel.refl {Q : TreePath} (hQ : d.tag? Q = some .parallel) : d.NestedParallel Q Q :=
  ⟨List.prefix_refl Q, fun _ h h' => TreePath.prefix_antisymm h h' ▸ hQ⟩

theorem plain_of_children {Q : TreePath} (hne : d.children Q ≠ [])
    (h : ∀ c ∈ d.children Q, d.ProperState c ∧ (d.tag? c = some .parallel → Plain d c)) : Plain d Q := by
  intro R hR
  rcases TreePath.below_or_eq_of_prefix hR.1 with rfl | hb
  · exact ⟨hne, fun c hc => (h c hc).1⟩
  · obtain ⟨k, hk⟩ := TreePath.exists_child_of_below hb
    have hQk := TreePath.below_of_parent_eq (List.concat_ne_nil k Q) (TreePath.parent_concat Q k)
    have hpar := hR.2 (Q ++ [k]) hQk.1 hk
    refine (h (Q ++ [k]) (mem_children.mpr ⟨mem_states_of_tag hpar, by simp, by simp⟩)).2 hpar R ⟨hk, ?_⟩
    exact fun a ha => hR.2 a (hQk.1.trans ha)

theorem Plain.child {Q c : TreePath} (h : Plain d Q) (hQ : d.tag? Q = some .parallel) (hc : c ∈ d.children Q)
    (hpar : d.tag? c = some .parallel) : Plain d c := by
  have hb := below_of_mem_children hc
  intro R hR
  refine h R ⟨hb.1.trans hR.1, fun a ha haR => ?_⟩
  by_cases hca : c <+: a
  · exact hR.2 a hca haR
  · -- Above the child there is only the parallel itself.
    rcases TreePath.comparable haR hR.1 with he | he | he
    · exact he ▸ hpar
    · exact absurd he.1 hca
    · have := TreePath.prefix_parent_of_below he
      rw [(mem_children.mp hc).2.2] at this
      rwa [TreePath.prefix_antisymm this ha]

namespace Removed

variable {K : Finset TreePath}

theorem mono {K' : Finset TreePath} (hK : K ⊆ K') {s : TreePath} (h : Removed d K s) : Removed d K' s := by
  induction h with
  | region hk h => exact .region (hK hk) h
  | parallel hs hne _ ih => exact .parallel hs hne ih

theorem descend {s x : TreePath} (h : Removed d K s) (hx : x ∈ d.states) (hsx : s <+: x) : Removed d K x := by
  induction h with
  | region hk h => exact .region hk (h.trans hsx)
  | parallel hs hne hall ih =>
    rcases TreePath.below_or_eq_of_prefix hsx with rfl | hb
    · exact .parallel hs hne hall
    · obtain ⟨c, hc, hcx⟩ := exists_child_mem hx hb
      exact ih c hc hcx

theorem not_empty {s : TreePath} : ¬ Removed d ∅ s := by
  intro h
  induction h with
  | region hk _ => simp at hk
  | parallel _ hne _ ih =>
    obtain ⟨c, hc⟩ := List.exists_mem_of_ne_nil _ hne
    exact ih c hc

/-- Nothing is removed at or below a state that no parent of a final state in `K` is comparable with. -/
theorem not_of_apart {X s : TreePath} (hX : ∀ k ∈ K, ¬ k.parent <+: X ∧ ¬ X <+: k.parent) (hs : X <+: s) :
    ¬ Removed d K s := by
  intro h
  induction h with
  | region hk h =>
    rcases List.prefix_or_prefix_of_prefix h hs with h | h
    · exact (hX _ hk).1 h
    · exact (hX _ hk).2 h
  | parallel _ hne _ ih =>
    obtain ⟨c, hc⟩ := List.exists_mem_of_ne_nil _ hne
    exact ih c hc (hs.trans (below_of_mem_children hc).1)

end Removed

end Document

namespace FastMicroStep

open Document

variable {d : Document β}

/-! ### One active final state -/

section Climb

variable (hd : d.FinalChart) {P : TreePath} (hP : d.tag? P = some .parallel) {K : Finset TreePath} {k : TreePath}

/-- What is left below `P` when the removal for the final state `k` has come up to `p`. -/
structure Climbed (d : Document β) (P : TreePath) (K : Finset TreePath) (k p : TreePath) (tmpStates : Finset TreePath) :
    Prop where
  left : ∀ s, s ∈ tmpStates ↔ s ∈ d.states ∧ s.Below P ∧ ¬ Removed d K s ∧ ¬ p <+: s
  removed : Removed d (insert k K) p
  above : p <+: k.parent
  below : P <+: p

def ClimbEnds (d : Document β) (P p : TreePath) (tmpStates : Finset TreePath) : Prop :=
  tmpStates = ∅ ∨ p = P ∨ ¬ (d.tag? p.parent = some .parallel ∧ ∀ s ∈ tmpStates, ¬ s.Below p.parent)

theorem Climbed.next {p : TreePath} {tmpStates : Finset TreePath} (h : Climbed d P K k p tmpStates) (hp : p ≠ P)
    (hpar : d.tag? p.parent = some .parallel) (hleft : ∀ s ∈ tmpStates, ¬ s.Below p.parent) (hk : k ∈ d.states) :
    Climbed d P K k p.parent (tmpStates.erase p.parent) := by
  have hbelow : p.Below P := ⟨h.below, hp.symm⟩
  have hne : p ≠ [] := fun he => TreePath.not_nil_below P (he ▸ hbelow)
  have hparent : P <+: p.parent := TreePath.prefix_parent_of_below hbelow
  have hpp : p.Below p.parent := TreePath.below_parent hne
  have hpstates : p ∈ d.states :=
    mem_states_of_above (h.above.trans (List.dropLast_prefix k)) hk
  refine ⟨?_, ?_, (hpp.1.trans h.above), hparent⟩
  · intro s
    rw [Finset.mem_erase, h.left s]
    constructor
    · rintro ⟨hsne, hs⟩
      refine ⟨hs.1, hs.2.1, hs.2.2.1, fun hpre => ?_⟩
      rcases TreePath.below_or_eq_of_prefix hpre with he | hb
      · exact hsne he
      · exact hleft s ((h.left s).mpr hs) hb
    · rintro ⟨hs, hsP, hrem, hnot⟩
      refine ⟨fun he => hnot (he ▸ List.prefix_refl _), hs, hsP, hrem, fun hpre => hnot (hpp.1.trans hpre)⟩
  · -- All children of the parallel are gone: `p` itself, and the others because nothing is left of them.
    refine .parallel hpar ?_ ?_
    · exact List.ne_nil_of_mem (mem_children.mpr ⟨hpstates, hne, rfl⟩)
    · intro c hc
      by_cases hpc : p <+: c
      · have hcp : c = p := by
          rcases TreePath.below_or_eq_of_prefix hpc with he | hb
          · exact he
          · have hlt := (TreePath.prefix_parent_of_below hb).length_le
            rw [(mem_children.mp hc).2.2] at hlt
            exact absurd hpp.length_lt (Nat.not_lt.mpr hlt)
        exact hcp ▸ h.removed
      · have hcb := below_of_mem_children hc
        have hnot : c ∉ tmpStates := fun hmem => hleft c hmem hcb
        rw [h.left c] at hnot
        by_contra hrem
        refine hnot ⟨(mem_children.mp hc).1, hcb.trans_above hparent, fun hr => ?_, hpc⟩
        exact hrem (hr.mono (Finset.subset_insert k K))

include hd in
theorem removeParallels_climbed (hk : k ∈ d.states) (n : Nat) {p : TreePath} {tmpStates : Finset TreePath}
    (hn : p.length ≤ n) (h : Climbed d P K k p tmpStates) (hp : p ≠ P) :
    ∃ q, Climbed d P K k q (removeParallels (tables d) P n p tmpStates) ∧
      ClimbEnds d P q (removeParallels (tables d) P n p tmpStates) := by
  induction n generalizing p tmpStates with
  | zero =>
    have hnil : p = [] := List.length_eq_zero_iff.mp (Nat.le_zero.mp hn)
    exact absurd (hnil ▸ ⟨h.below, hp.symm⟩ : TreePath.Below [] P) (TreePath.not_nil_below P)
  | succ n ih =>
    have hdisj : Disjoint tmpStates (stateInfo d p.parent).children ↔ ∀ s ∈ tmpStates, ¬ s.Below p.parent := by
      rw [Finset.disjoint_left]
      refine forall₂_congr fun s hs => ?_
      rw [mem_stateInfo_children]
      exact ⟨fun hnot hb => hnot ⟨((h.left s).mp hs).1, hb⟩, fun hnot hb => hnot hb.2⟩
    have htype : (stateInfo d p.parent).type = .parallel ↔ d.tag? p.parent = some .parallel :=
      stateType_parallel_iff hd.finalAttr
    have hne : p ≠ [] := fun he => TreePath.not_nil_below P (he ▸ ⟨h.below, hp.symm⟩)
    simp only [removeParallels, tables, show (stateInfo d p).parent = p.parent from rfl, htype, hdisj]
    split
    · rename_i hclimb
      have hnext := h.next hp hclimb.1 hclimb.2 hk
      split
      · rename_i hend
        exact ⟨p.parent, hnext, hend.elim Or.inl fun he => Or.inr (Or.inl he)⟩
      · rename_i hend
        refine ih ?_ hnext fun he => hend (Or.inr he)
        have := (TreePath.below_parent hne).length_lt
        omega
    · rename_i hstop
      exact ⟨p, h, Or.inr (Or.inr hstop)⟩

/-- `tmpStates` holds what is not removed below `P` for the sake of the final states in `K`. -/
def LeftBy (d : Document β) (P : TreePath) (K tmpStates : Finset TreePath) : Prop :=
  ∀ s, s ∈ tmpStates ↔ s ∈ d.states ∧ s.Below P ∧ ¬ Removed d K s

/-- When the climb has ended, all that can be removed is removed. -/
theorem Climbed.leftBy {p : TreePath} {tmpStates : Finset TreePath} (h : Climbed d P K k p tmpStates)
    (hend : ClimbEnds d P p tmpStates) : LeftBy d P (insert k K) tmpStates := by
  have hold : ∀ s ∈ d.states, s.Below P → Removed d (insert k K) s → Removed d K s ∨ p <+: s := by
    intro s hs hsP hrem
    induction hrem with
    | @region s j hj hjs =>
      rcases Finset.mem_insert.mp hj with rfl | hj
      · exact Or.inr (h.above.trans hjs)
      · exact Or.inl (.region hj hjs)
    | @parallel s hpar hne hall ih =>
      have ih : ∀ c ∈ d.children s, Removed d K c ∨ p <+: c := fun c hc =>
        ih c hc (mem_children.mp hc).1 ((below_of_mem_children hc).trans hsP)
      by_cases hold : ∀ c ∈ d.children s, Removed d K c
      · exact Or.inl (.parallel hpar hne hold)
      push Not at hold
      obtain ⟨c, hc, hcK⟩ := hold
      have hpc := (ih c hc).resolve_left hcK
      rcases TreePath.below_or_eq_of_prefix hpc with rfl | hb
      · -- Nothing is left below the parent of `p`, so the climb could only end above it.
        have hcs := (mem_children.mp hc).2.2
        have hleft : ∀ x ∈ tmpStates, ¬ x.Below c.parent := by
          intro x hx hxb
          obtain ⟨hxs, -, hxK, hxp⟩ := (h.left x).mp hx
          obtain ⟨c', hc', hcx⟩ := exists_child_mem hxs (hcs ▸ hxb)
          rcases ih c' hc' with hr | hpre
          · exact hxK (hr.descend hxs hcx)
          · exact hxp (hpre.trans hcx)
        rcases hend with he | he | he
        · have hnot : s ∉ tmpStates := by simp [he]
          rw [h.left s] at hnot
          by_contra hcon
          push Not at hcon
          exact hnot ⟨hs, hsP, hcon.1, hcon.2⟩
        · exact Or.inr (he ▸ hsP.1)
        · exact absurd ⟨hcs ▸ hpar, hleft⟩ he
      · exact Or.inr ((mem_children.mp hc).2.2 ▸ TreePath.prefix_parent_of_below hb)
  intro s
  rw [h.left s]
  constructor
  · rintro ⟨hs, hsP, hK, hp⟩
    exact ⟨hs, hsP, fun hr => (hold s hs hsP hr).elim hK hp⟩
  · rintro ⟨hs, hsP, hr⟩
    refine ⟨hs, hsP, fun hK => hr (hK.mono (Finset.subset_insert k K)), fun hp => hr ?_⟩
    exact h.removed.descend hs hp

include hd hP in
theorem removeFinal_leftBy {tmpStates : Finset TreePath} (h : LeftBy d P K tmpStates) (hk : k ∈ d.states)
    (hfinal : d.tag? k = some .final) (hkP : k.Below P)
    (hapart : ∀ j ∈ K, ¬ j.parent <+: k.parent ∧ ¬ k.parent <+: j.parent) :
    LeftBy d P (insert k K) (removeFinal (tables d) P tmpStates k) := by
  have hPX : P <+: k.parent := TreePath.prefix_parent_of_below hkP
  have hne : k.parent ≠ P := fun he => hd.finalParent k hk hfinal (he ▸ hP)
  have hXP : k.parent.Below P := ⟨hPX, hne.symm⟩
  have hguard : P ∈ ((tables d).state k).ancestors ∧ ((tables d).state k).type = .final :=
    ⟨mem_stateInfo_ancestors.mpr hkP, stateType_of_final hd.finalAttr hfinal⟩
  have hstart : Climbed d P K k k.parent ((symmDiff tmpStates (stateInfo d k.parent).children).erase k.parent) := by
    refine ⟨?_, .region (Finset.mem_insert_self k K) (List.prefix_refl _), List.prefix_refl _, hPX⟩
    intro s
    rw [Finset.mem_erase, Finset.mem_symmDiff, h s, mem_stateInfo_children]
    constructor
    · rintro ⟨hsX, ⟨hs, hnot⟩ | ⟨hs, hnot⟩⟩
      · refine ⟨hs.1, hs.2.1, hs.2.2, fun hpre => ?_⟩
        rcases TreePath.below_or_eq_of_prefix hpre with he | hb
        · exact hsX he
        · exact hnot ⟨hs.1, hb⟩
      · -- Nothing at or below the parent of `k` was removed before, so nothing comes back.
        exact absurd ⟨hs.1, hs.2.trans hXP, Removed.not_of_apart hapart hs.2.1⟩ hnot
    · rintro ⟨hs, hsP, hK, hnot⟩
      exact ⟨fun he => hnot (he ▸ List.prefix_refl _), Or.inl ⟨⟨hs, hsP, hK⟩, fun hb => hnot hb.2.1⟩⟩
  obtain ⟨q, hq, hend⟩ := removeParallels_climbed hd hk k.parent.length le_rfl hstart hne
  rw [removeFinal, if_pos hguard]
  change LeftBy d P (insert k K) (removeParallels (tables d) P (stateInfo d k.parent).ancestors.card k.parent _)
  rw [card_ancestors]
  exact hq.leftBy hend

def finalsBelow (d : Document β) (P : TreePath) (l : List TreePath) : Finset TreePath :=
  (l.filter fun k => d.tag? k = some .final ∧ k.Below P).toFinset

theorem mem_finalsBelow {l : List TreePath} : k ∈ finalsBelow d P l ↔ k ∈ l ∧ d.tag? k = some .final ∧ k.Below P := by
  simp [finalsBelow]

include hd hP in
theorem foldl_removeFinal_leftBy {C : Finset TreePath} (hapart : FinalsApart d C P) {l : List TreePath} (hl : l.Nodup)
    (hC : ∀ i ∈ l, i ∈ d.states ∧ i ∈ C) :
    LeftBy d P (finalsBelow d P l) (l.foldl (removeFinal (tables d) P) (stateInfo d P).children) := by
  induction l using List.reverseRecOn with
  | nil =>
    intro s
    rw [List.foldl_nil, mem_stateInfo_children]
    exact ⟨fun h => ⟨h.1, h.2, Removed.not_empty⟩, fun h => ⟨h.1, h.2.1⟩⟩
  | append_singleton l k ih =>
    have hnot : k ∉ l := fun h => (List.disjoint_of_nodup_append hl) h (List.mem_singleton_self k)
    obtain ⟨hk, hkC⟩ := hC k (by simp)
    have ih := ih (List.nodup_append.mp hl).1 fun i hi => hC i (List.mem_append_left _ hi)
    rw [List.foldl_append, List.foldl_cons, List.foldl_nil]
    by_cases hfinal : d.tag? k = some .final ∧ k.Below P
    · have hins : finalsBelow d P (l ++ [k]) = insert k (finalsBelow d P l) := by
        ext j
        rw [Finset.mem_insert, mem_finalsBelow, mem_finalsBelow, List.mem_append, List.mem_singleton]
        constructor
        · rintro ⟨hj | hj, h⟩
          · exact Or.inr ⟨hj, h⟩
          · exact Or.inl hj
        · rintro (rfl | ⟨hj, h⟩)
          · exact ⟨Or.inr rfl, hfinal⟩
          · exact ⟨Or.inl hj, h⟩
      rw [hins]
      refine removeFinal_leftBy hd hP ih hk hfinal.1 hfinal.2 ?_
      intro j hj
      obtain ⟨hjl, hjfinal, hjP⟩ := mem_finalsBelow.mp hj
      have hne : j ≠ k := fun h => hnot (h ▸ hjl)
      have hjC := (hC j (List.mem_append_left _ hjl)).2
      exact ⟨hapart j hjC k hkC hjfinal hfinal.1 hjP hfinal.2 hne,
        hapart k hkC j hjC hfinal.1 hjfinal hfinal.2 hjP hne.symm⟩
    · have hsame : finalsBelow d P (l ++ [k]) = finalsBelow d P l := by
        ext j
        rw [mem_finalsBelow, mem_finalsBelow, List.mem_append, List.mem_singleton]
        constructor
        · rintro ⟨hj | rfl, h⟩
          · exact ⟨hj, h⟩
          · exact absurd h hfinal
        · exact fun h => ⟨Or.inl h.1, h.2⟩
      have hskip : removeFinal (tables d) P (l.foldl (removeFinal (tables d) P) (stateInfo d P).children) k =
          l.foldl (removeFinal (tables d) P) (stateInfo d P).children := by
        rw [removeFinal, if_neg]
        rintro ⟨hanc, htype⟩
        exact hfinal ⟨(stateType_final_iff hd.finalAttr).mp htype, mem_stateInfo_ancestors.mp hanc⟩
      rw [hsame, hskip]
      exact ih

end Climb

/-! ### Nothing is left -/

/-- What is removed right below a parallel is in a final state, and the parallels there are plain. -/
theorem inFinalState_of_removed (hd : d.FinalChart) {C : Finset TreePath} {P : TreePath} {K : Finset TreePath}
    (hK : ∀ k ∈ K, k ∈ d.states ∧ k ∈ C ∧ d.tag? k = some .final) {c : TreePath} (hr : Removed d K c)
    (hc : c ∈ d.states) (hcP : c.Below P) (hout : ∀ k ∈ K, ¬ k.parent <+: c.parent) :
    d.InFinalState C c ∧ d.ProperState c ∧ (d.tag? c = some .parallel → Plain d c) := by
  induction hr with
  | @region c k hk h =>
    obtain ⟨hks, hkC, hfinal⟩ := hK k hk
    have hX : k.parent = c := by
      rcases TreePath.below_or_eq_of_prefix h with he | hb
      · exact he.symm
      · exact absurd (TreePath.prefix_parent_of_below hb) (hout k hk)
    have hcne : c ≠ [] := fun he => TreePath.not_nil_below P (he ▸ hcP)
    have hkne : k ≠ [] := by
      rintro rfl
      exact hcne hX.symm
    have hnp : d.tag? c ≠ some .parallel := hX ▸ hd.finalParent k hks hfinal
    have hproper : d.ProperState c := by
      rcases hd.nested k hks hkne with h | h | h
      · exact absurd (hX ▸ (hd.root k.parent).mp h) hcne
      · rw [hX] at h
        exact properState_iff.mpr (Or.inr (Or.inl h))
      · exact absurd (hX ▸ h) hnp
    exact ⟨.compound hnp hkC ⟨hkne, hX, properState_iff.mpr (Or.inr (Or.inr hfinal))⟩ hfinal, hproper,
      fun h => absurd h hnp⟩
  | @parallel c hpar hne hall ih =>
    have hin : ∀ k ∈ K, ¬ k.parent <+: c := by
      intro k hk h
      rcases TreePath.below_or_eq_of_prefix h with he | hb
      · exact hd.finalParent k (hK k hk).1 (hK k hk).2.2 (he ▸ hpar)
      · exact hout k hk (TreePath.prefix_parent_of_below hb)
    have ih : ∀ c' ∈ d.children c, d.InFinalState C c' ∧ d.ProperState c' ∧ (d.tag? c' = some .parallel → Plain d c') :=
      fun c' hc' => ih c' hc' (mem_children.mp hc').1 ((below_of_mem_children hc').trans hcP)
        fun k hk => (mem_children.mp hc').2.2 ▸ hin k hk
    refine ⟨.parallel hpar fun c' hc' => (ih c' ?_).1, properState_iff.mpr (Or.inl hpar), fun _ => ?_⟩
    · exact mem_children.mpr ⟨hc'.mem_states, hc'.1, hc'.2.1⟩
    · exact plain_of_children hne fun c' hc' => (ih c' hc').2

/-- States that are in a final state right below a parallel are removed with everything below them. -/
theorem removed_of_inFinalState {C : Finset TreePath} {P : TreePath} {K : Finset TreePath}
    (hK : ∀ k ∈ C, d.tag? k = some .final → k.Below P → k ∈ K) {c : TreePath} (h : d.InFinalState C c)
    (hcP : c.Below P) (hplain : d.tag? c = some .parallel → Plain d c) : Removed d K c := by
  induction h with
  | @compound c k hs hk hchild hfinal =>
    exact .region (hK k hk hfinal (hchild.below.trans hcP)) (hchild.2.1 ▸ List.prefix_refl _)
  | @parallel c hs hall ih =>
    have hplain := hplain hs
    obtain ⟨hne, hproper⟩ := hplain c (NestedParallel.refl hs)
    refine .parallel hs hne fun c' hc' => ?_
    have hmem := mem_children.mp hc'
    refine ih c' ⟨hmem.2.1, hmem.2.2, hproper c' hc'⟩ ((below_of_mem_children hc').trans hcP) fun hpar => ?_
    exact hplain.child hs hc' hpar

/-- A parallel with children has nothing left when all its children are in final states and the parallels right
below it hold no pseudo-states and are not empty. -/
theorem leftOver_eq_empty_iff (hd : d.FinalChart) {P : TreePath} (hP : d.tag? P = some .parallel)
    (hne : d.children P ≠ []) {C : Finset TreePath} (hapart : FinalsApart d C P) (hC : ∀ k ∈ C, k ∈ d.states) :
    leftOver (tables d) C P = ∅ ↔ (∀ c, d.ProperChild P c → d.InFinalState C c) ∧ Plain d P := by
  have hleft := foldl_removeFinal_leftBy hd hP hapart (d.tree.preorder_nodup.filter fun i => decide (i ∈ C))
    (by
      intro i hi
      rw [List.mem_filter, decide_eq_true_iff] at hi
      exact hi)
  change LeftBy d P _ (leftOver (tables d) C P) at hleft
  have hK : ∀ k, k ∈ finalsBelow d P (d.tree.preorder.filter fun i => decide (i ∈ C)) ↔
      k ∈ C ∧ d.tag? k = some .final ∧ k.Below P := by
    intro k
    rw [mem_finalsBelow, List.mem_filter, decide_eq_true_iff]
    exact ⟨fun h => ⟨h.1.2, h.2⟩, fun h => ⟨⟨hC k h.1, h.1⟩, h.2⟩⟩
  generalize finalsBelow d P (d.tree.preorder.filter fun i => decide (i ∈ C)) = K at hleft hK
  have hempty : leftOver (tables d) C P = ∅ ↔ ∀ c ∈ d.children P, Removed d K c := by
    rw [Finset.eq_empty_iff_forall_notMem]
    constructor
    · intro h c hc
      have hnot := h c
      rw [hleft c] at hnot
      by_contra hr
      exact hnot ⟨(mem_children.mp hc).1, below_of_mem_children hc, hr⟩
    · intro h s hs
      obtain ⟨hs, hsP, hr⟩ := (hleft s).mp hs
      obtain ⟨c, hc, hcs⟩ := exists_child_mem hs hsP
      exact hr ((h c hc).descend hs hcs)
  rw [hempty]
  constructor
  · intro h
    have hchild : ∀ c ∈ d.children P, d.InFinalState C c ∧ d.ProperState c ∧ (d.tag? c = some .parallel → Plain d c) := by
      intro c hc
      refine inFinalState_of_removed hd (fun k hk => ⟨hC k ((hK k).mp hk).1, ((hK k).mp hk).1, ((hK k).mp hk).2.1⟩)
        (h c hc) (mem_children.mp hc).1 (below_of_mem_children hc) ?_
      intro k hk hpre
      rw [(mem_children.mp hc).2.2] at hpre
      have hkP := ((hK k).mp hk).2.2
      have hXP := TreePath.prefix_antisymm hpre (TreePath.prefix_parent_of_below hkP)
      exact hd.finalParent k (hC k ((hK k).mp hk).1) ((hK k).mp hk).2.1 (hXP ▸ hP)
    refine ⟨fun c hc => (hchild c (mem_children.mpr ⟨hc.mem_states, hc.1, hc.2.1⟩)).1, ?_⟩
    exact plain_of_children hne fun c hc => (hchild c hc).2
  · rintro ⟨hall, hplain⟩ c hc
    have hmem := mem_children.mp hc
    have hproper := (hplain P (NestedParallel.refl hP)).2 c hc
    exact removed_of_inFinalState (fun k hk hf hb => (hK k).mpr ⟨hk, hf, hb⟩) (hall c ⟨hmem.2.1, hmem.2.2, hproper⟩)
      (below_of_mem_children hc) fun hpar => hplain.child hP hc hpar

/-! ### The events of a final state -/

theorem doneParallels_eq (hd : d.FinalChart) (C : Finset TreePath) (p : TreePath) :
    doneParallels (tables d) C p.length p =
      (d.parallelsAbove p).filter fun P => decide (leftOver (tables d) C P = ∅) := by
  induction hn : p.length generalizing p with
  | zero =>
    obtain rfl := List.length_eq_zero_iff.mp hn
    rfl
  | succ n ih =>
    have hne : p ≠ [] := by
      rintro rfl
      simp at hn
    have hlen : p.parent.length = n := by
      rw [TreePath.parent, List.length_dropLast]
      omega
    have hparent : ((tables d).state p).parent = p.parent := rfl
    rw [doneParallels, parallelsAbove, parentNodes_cons hne, List.takeWhile_cons, ← parallelsAbove]
    simp only [hparent]
    by_cases hpar : d.isParallel p.parent = true
    · have htype : ((tables d).state p.parent).type = .parallel := stateType_of_parallel hd.finalAttr (isParallel_iff.mp hpar)
      rw [if_pos htype, if_pos hpar, List.filter_cons, ih p.parent hlen]
      split
      · rename_i hleft
        simp [hleft]
      · rename_i hleft
        simp [hleft]
    · have htype : ((tables d).state p.parent).type ≠ .parallel :=
        fun h => hpar (isParallel_iff.mpr ((stateType_parallel_iff hd.finalAttr).mp h))
      rw [if_neg htype, if_neg hpar, List.filter_nil]

/-- The parallels above the parent of a final state tell when their children are in final states. -/
def FinalsTell (d : Document β) (C : Finset TreePath) (F : TreePath) : Prop :=
  ∀ P ∈ d.parallelsAbove F.parent,
    FinalsApart d C P ∧ ((∀ c, d.ProperChild P c → d.InFinalState C c) → Plain d P)

theorem doneStates_due (hd : d.FinalChart) {C : Finset TreePath} (hC : ∀ k ∈ C, k ∈ d.states) {F : TreePath}
    (hF : F ∈ d.states) (htop : F.parent ≠ []) (htell : FinalsTell d C F) :
    d.DoneDue C F (doneStates (tables d) C F) := by
  have hne : F ≠ [] := by
    rintro rfl
    exact htop rfl
  have hcard : ¬ ((stateInfo d F).ancestors.card = 1 ∧ [] ∈ (stateInfo d F).ancestors) := by
    rintro ⟨h, -⟩
    rw [card_ancestors] at h
    refine htop (List.length_eq_zero_iff.mp ?_)
    rw [TreePath.parent, List.length_dropLast]
    omega
  have hdone : doneStates (tables d) C F = F.parent :: doneParallels (tables d) C F.parent.length F.parent := by
    rw [doneStates]
    change (if (stateInfo d F).ancestors.card = 1 ∧ [] ∈ (stateInfo d F).ancestors then [] else
      F.parent :: doneParallels (tables d) C (stateInfo d F.parent).ancestors.card F.parent) = _
    rw [if_neg hcard, card_ancestors]
  refine ⟨_, hdone, ?_, ?_⟩
  · rw [doneParallels_eq hd]
    exact List.filter_sublist
  · intro P hP
    have hPmem := List.mem_takeWhile_imp hP
    have hPar := isParallel_iff.mp hPmem
    have hbelow : F.parent.Below P := mem_parentNodes.mp ((List.takeWhile_sublist _).subset hP)
    obtain ⟨c, hc, -⟩ := exists_child_mem (mem_states_of_above (List.dropLast_prefix F) hF) hbelow
    rw [doneParallels_eq hd, List.mem_filter, decide_eq_true_iff,
      leftOver_eq_empty_iff hd hPar (List.ne_nil_of_mem hc) (htell P hP).1 hC]
    exact ⟨fun h => h.2.1, fun h => ⟨hP, h, (htell P hP).2 h⟩⟩

/-! ### The events of a step -/

def doneEvent? : Call → Option TreePath
  | .raiseDoneEvent state => some state
  | _ => none

def doneEvents (l : List Call) : List TreePath := l.filterMap doneEvent?

@[simp] theorem doneEvents_nil : doneEvents [] = [] := rfl

@[simp] theorem doneEvents_cons (c : Call) (l : List Call) :
    doneEvents (c :: l) = (doneEvent? c).toList ++ doneEvents l := by
  rw [doneEvents, List.filterMap_cons]
  cases doneEvent? c <;> rfl

@[simp] theorem doneEvents_append (l l' : List Call) : doneEvents (l ++ l') = doneEvents l ++ doneEvents l' :=
  List.filterMap_append

theorem doneEvents_flatMap {α : Type} (f : α → List Call) (l : List α) :
    doneEvents (l.flatMap f) = l.flatMap fun a => doneEvents (f a) := by
  induction l with
  | nil => rfl
  | cons a l ih => rw [List.flatMap_cons, doneEvents_append, ih, List.flatMap_cons]

theorem doneEvents_map_of_none {α : Type} {f : α → Call} (hf : ∀ a, doneEvent? (f a) = none) (l : List α) :
    doneEvents (l.map f) = [] := by
  rw [doneEvents, List.filterMap_map, List.filterMap_eq_nil_iff]
  exact fun a _ => hf a

theorem doneEvents_flatMap_of_nil {α : Type} {f : α → List Call} (hf : ∀ a, doneEvents (f a) = []) (l : List α) :
    doneEvents (l.flatMap f) = [] := by
  rw [doneEvents_flatMap, List.flatMap_eq_nil_iff]
  exact fun a _ => hf a

@[simp] theorem doneEvents_exitCalls (T : Tables) (i : TreePath) : doneEvents (exitCalls T i) = [] := by
  have hblocks : doneEvents ((T.state i).onExit.map .process) = [] := doneEvents_map_of_none (fun _ => rfl) _
  simp [exitCalls, doneEvent?, hblocks]

@[simp] theorem doneEvents_transitionCalls (T : Tables) (i : TransId) : doneEvents (transitionCalls T i) = [] := by
  have hblocks : doneEvents ((T.trans i).onTrans.toList.map .process) = [] := doneEvents_map_of_none (fun _ => rfl) _
  simp [transitionCalls, doneEvent?, hblocks]

theorem doneEvents_enterCalls (T : Tables) (transSet : Finset TransId) (fresh : Bool) (C : Finset TreePath) (i : TreePath) :
    doneEvents (enterCalls T transSet fresh C i) =
      if (T.state i).type = .final then doneStates T C i else [] := by
  have hdata : doneEvents (if fresh then (T.state i).data.map .initData else []) = [] := by
    split
    · exact doneEvents_map_of_none (fun _ => rfl) _
    · rfl
  have hblocks : doneEvents ((T.state i).onEntry.map .process) = [] := doneEvents_map_of_none (fun _ => rfl) _
  have htrans : doneEvents ((pseudoTransitions T transSet i).flatMap (transitionCalls T)) = [] :=
    doneEvents_flatMap_of_nil (doneEvents_transitionCalls T) _
  have hdone : ∀ l : List TreePath, doneEvents (l.map .raiseDoneEvent) = l := by
    intro l
    rw [doneEvents, List.filterMap_map]
    exact List.filterMap_some
  simp only [enterCalls, doneEvents_cons, doneEvents_append, doneEvent?, hdata, hblocks, htrans, Option.toList_none,
    List.nil_append]
  split
  · exact hdone _
  · rfl

def Microstep.finals (d : Document β) (m : Microstep) : List TreePath :=
  (m.newStates (tables d)).filter fun i => d.tag? i = some .final && i.parent ≠ []

theorem doneEvents_microstep (hd : d.FinalChart) (m : Microstep) (I : Finset TreePath) :
    doneEvents (m.calls (tables d) I) =
      (m.finals d).flatMap fun F => doneStates (tables d) (m.configurationAt (tables d) F) F := by
  have hexit : ∀ l : List TreePath, doneEvents (l.flatMap (exitCalls (tables d))) = [] := doneEvents_flatMap_of_nil (doneEvents_exitCalls _)
  have htake : ∀ l : List TransId, doneEvents (l.flatMap (transitionCalls (tables d))) = [] :=
    doneEvents_flatMap_of_nil (doneEvents_transitionCalls _)
  -- A final state right below the root ends the run and raises nothing.
  have hstate : ∀ i : TreePath, (if ((tables d).state i).type = .final then
      doneStates (tables d) (m.configurationAt (tables d) i) i else []) =
      if (d.tag? i = some .final && i.parent ≠ []) = true then doneStates (tables d) (m.configurationAt (tables d) i) i
      else [] := by
    intro i
    have htype : ((tables d).state i).type = .final ↔ d.tag? i = some .final := stateType_final_iff hd.finalAttr
    by_cases hfinal : d.tag? i = some .final
    · by_cases htop : i.parent = []
      · have hne : i ≠ [] := by
          rintro rfl
          rw [(hd.root []).mpr rfl] at hfinal
          cases hfinal
        have hend : ((tables d).state i).ancestors.card = 1 ∧ [] ∈ ((tables d).state i).ancestors := by
          refine ⟨(card_ancestors i).trans ?_, mem_stateInfo_ancestors.mpr (TreePath.below_nil.mpr hne)⟩
          have hlen := congrArg List.length htop
          rw [TreePath.parent, List.length_dropLast, List.length_nil] at hlen
          have := List.length_pos_iff.mpr hne
          omega
        rw [if_pos (htype.mpr hfinal), doneStates, if_pos hend, if_neg (by simp [htop])]
      · rw [if_pos (htype.mpr hfinal), if_pos (by simp [hfinal, htop])]
    · rw [if_neg fun h => hfinal (htype.mp h), if_neg (by simp [hfinal])]
  have hfilter : ∀ l : List TreePath, (l.flatMap fun i =>
      if (d.tag? i = some .final && i.parent ≠ []) = true then doneStates (tables d) (m.configurationAt (tables d) i) i
        else []) =
      (l.filter fun i => d.tag? i = some .final && i.parent ≠ []).flatMap fun F =>
        doneStates (tables d) (m.configurationAt (tables d) F) F := by
    intro l
    induction l with
    | nil => rfl
    | cons i l ih =>
      rw [List.flatMap_cons, ih, List.filter_cons]
      split
      · rw [List.flatMap_cons]
      · rfl
  simp only [Microstep.calls, doneEvents_append, hexit, htake, doneEvents_flatMap, doneEvents_enterCalls, hstate, hfilter,
    List.nil_append]
  exact List.append_nil _

theorem doneEvents_opens {T : Tables} {m : Micro} {l : List Call} (h : Opens T m l) : doneEvents l = [] := by
  have hmanage : ∀ C I : Finset TreePath, doneEvents (T.states.flatMap (manageCalls T C I)) = [] := by
    intro C I
    refine doneEvents_flatMap_of_nil (fun i => ?_) _
    have huninvoke : doneEvents ((T.state i).invoke.map .uninvoke) = [] := doneEvents_map_of_none (fun _ => rfl) _
    have hinvoke : doneEvents ((T.state i).invoke.map .invoke) = [] := doneEvents_map_of_none (fun _ => rfl) _
    rw [manageCalls, doneEvents_append]
    split <;> split <;> simp [huninvoke, hinvoke]
  cases h with
  | nothing => rfl
  | internal event => rfl
  | managed rest hrest =>
    rw [doneEvents_append, hmanage]
    rcases hrest with rfl | rfl | ⟨event, rfl⟩ <;> rfl

/-- What the done events among the calls `l` of a step have to be. -/
def DueIn (d : Document β) : Option Microstep → List Call → Prop
  | none, l => doneEvents l = []
  | some m, l => ∃ due : TreePath → List TreePath, doneEvents l = (m.finals d).flatMap due ∧
      ∀ F ∈ m.finals d, d.DoneDue (m.configurationAt (tables d) F) F (due F)

def RaisesDoneEvents {ω : Type} (d : Document β) (cb : Callbacks ω) (s : St ω) : Prop :=
  ∃ l, (step (tables d) cb s).2.calls = s.calls ++ l ∧ DueIn d (microstepOf (tables d) cb s) l

/-- The parallels above the final states that a microstep enters tell when their children are in final states. -/
def StepTells {ω : Type} (d : Document β) (cb : Callbacks ω) (s : St ω) : Prop :=
  ∀ m, microstepOf (tables d) cb s = some m → ∀ F ∈ m.finals d, FinalsTell d (m.configurationAt (tables d) F) F

theorem raisesDoneEvents_of_tells (hd : d.FinalChart) {ω : Type} {cb : Callbacks ω} {s : St ω}
    (hs : Reachable (tables d) cb s) (htell : StepTells d cb s) : RaisesDoneEvents d cb s := by
  obtain ⟨l, hcalls, htrace⟩ := step_calls (tables d) cb d.tree.preorder_pairwise s
  refine ⟨l, hcalls, ?_⟩
  cases htrace with
  | finished hnone =>
    rw [hnone]
    rfl
  | completion hnone =>
    rw [hnone]
    have hcomplete : ∀ i, doneEvents (completeCalls (tables d) s.configuration s.invocations i) = [] := by
      intro i
      have hblocks : doneEvents (((tables d).state i).onExit.map .process) = [] := doneEvents_map_of_none (fun _ => rfl) _
      have huninvoke : doneEvents (((tables d).state i).invoke.map .uninvoke) = [] :=
        doneEvents_map_of_none (fun _ => rfl) _
      rw [completeCalls, doneEvents_append]
      split <;> split <;> simp [hblocks, huninvoke]
    simp [DueIn, doneEvent?, doneEvents_flatMap_of_nil hcomplete]
  | microstep m hm l issue hl hissue =>
    rw [hm]
    refine ⟨fun F => doneStates (tables d) (m.configurationAt (tables d) F) F, ?_, ?_⟩
    · have hnone : doneEvents issue = [] := by
        rcases hissue with rfl | rfl <;> rfl
      rw [doneEvents_append, doneEvents_opens hl, doneEvents_cons, doneEvents_append, hnone, doneEvents_microstep hd]
      exact List.append_nil _
    · intro F hF
      have hnew := (List.mem_filter.mp hF).1
      have hF' := (List.mem_filter.mp hF).2
      rw [Bool.and_eq_true, decide_eq_true_iff, decide_eq_true_iff] at hF'
      have hstates : ∀ i ∈ m.newStates (tables d), i ∈ d.states := fun i hi => ((mem_entered (tables d)).mp hi).1
      refine doneStates_due hd ?_ (hstates F hnew) hF'.2 (htell m hm F hF)
      intro k hk
      rcases Finset.mem_union.mp hk with hk | hk
      · refine hs.configuration_subset _ _ k ?_
        rw [← microstepOf_configuration (tables d) cb hm]
        exact (Finset.mem_sdiff.mp hk).1
      · exact hstates k (List.mem_filter.mp (List.mem_toFinset.mp hk)).1
  | stays hnone l rest hl hrest =>
    rw [hnone]
    have hnil : doneEvents rest = [] := by
      rcases hrest with rfl | rfl <;> rfl
    rw [DueIn, doneEvents_append, doneEvents_opens hl, hnil]
    rfl

/-- In every run, a step in which the parallels above the entered final states tell raises exactly the done events
that are due. -/
theorem done_events_due {d : Document β} (hd : (resortStates d).FinalChart) {ω : Type} {cb : Callbacks ω} {s : St ω}
    (hs : Reachable (init d) cb s) (htell : StepTells (resortStates d) cb s) : RaisesDoneEvents (resortStates d) cb s :=
  raisesDoneEvents_of_tells hd hs htell

/-- A parallel with a history whose only region is in a final state at once. -/
def historyRegion : Document Unit where
  tree :=
    { root := { tag := .scxml }
      kids := .cons { tag := .parallel, id := some "p" }
        (.cons { tag := .history, id := some "h", transitions := [{ target := some ["a"] }] } .nil
          (.cons { tag := .state, id := some "a" } (.cons { tag := .final, id := some "f" } .nil .nil) .nil)) .nil }

theorem historyRegion_finalChart : (resortStates historyRegion).FinalChart where
  rootTag := by decide +kernel
  nested := by decide +kernel
  child := by decide +kernel
  finalAttr := by decide +kernel
  finalParent := by decide +kernel

/-- The first step enters the final state and raises the done event of the region only. -/
theorem parallel_not_done :
    (resortStates historyRegion).FinalChart ∧ Reachable (init historyRegion) externalEvents { env := [] } ∧
      doneEvents (step (init historyRegion) externalEvents { env := [] }).2.calls = [[0, 1]] ∧
      ¬ RaisesDoneEvents (resortStates historyRegion) externalEvents { env := [] } := by
  have hdone : doneEvents (step (init historyRegion) externalEvents { env := [] }).2.calls = [[0, 1]] := by decide +kernel
  refine ⟨historyRegion_finalChart, .init [], hdone, ?_⟩
  rintro ⟨l, hl, hdue⟩
  change (step (init historyRegion) externalEvents { env := [] }).2.calls = l at hl
  change DueIn _ (microstepOf (init historyRegion) externalEvents { env := [] }) l at hdue
  rw [hl] at hdone
  have hmicro : (microstepOf (init historyRegion) externalEvents { env := [] }).map (fun m =>
      (m.finals (resortStates historyRegion), m.configurationAt (init historyRegion) [0, 1, 0])) =
      some ([[0, 1, 0]], {[], [0], [0, 1], [0, 1, 0]}) := by decide +kernel
  cases hm : microstepOf (init historyRegion) externalEvents { env := [] } with
  | none => simp [hm] at hmicro
  | some m =>
    rw [hm, Option.map_some, Option.some.injEq, Prod.mk.injEq] at hmicro
    rw [hm] at hdue
    obtain ⟨due, hall, hF⟩ := hdue
    rw [hdone, hmicro.1] at hall
    obtain ⟨done, hcons, -, hmem⟩ := hF [0, 1, 0] (by simp [hmicro.1])
    have hnil : done = [] := by
      have hall : due [0, 1, 0] = [[0, 1]] := by simpa using hall.symm
      rw [hall] at hcons
      exact (List.cons.inj hcons).2.symm
    -- The only proper child of the parallel has an active final child.
    have hchild : ∀ c ∈ (resortStates historyRegion).states, (resortStates historyRegion).ProperChild [0] c → c = [0, 1] := by
      decide +kernel
    have hparallel := (hmem [0] (by decide +kernel)).mpr
    rw [hnil] at hparallel
    refine List.not_mem_nil (hparallel fun c hc => ?_)
    obtain rfl := hchild c hc.mem_states hc
    refine .compound (k := [0, 1, 0]) (by decide +kernel) ?_ (by decide +kernel) (by decide +kernel)
    exact hmicro.2 ▸ by decide

/-- Two regions that reach their final states one after the other. -/
def finalRegions : Document Unit where
  tree :=
    { root := { tag := .scxml }
      kids := .cons { tag := .parallel, id := some "p" }
        (.cons { tag := .state, id := some "a" }
          (.cons { tag := .state, id := some "a1", transitions := [{ target := some ["fa"], event := some "e" }] } .nil
            (.cons { tag := .final, id := some "fa" } .nil .nil))
          (.cons { tag := .state, id := some "b" } (.cons { tag := .final, id := some "fb" } .nil .nil) .nil)) .nil }

theorem finalRegions_finalChart : (resortStates finalRegions).FinalChart where
  rootTag := by decide +kernel
  nested := by decide +kernel
  child := by decide +kernel
  finalAttr := by decide +kernel
  finalParent := by decide +kernel

theorem finalRegions_plain : Document.Plain (resortStates finalRegions) [0] := by
  have h : ∀ c ∈ (resortStates finalRegions).children [0],
      (resortStates finalRegions).ProperState c ∧ (resortStates finalRegions).tag? c ≠ some .parallel := by decide +kernel
  exact Document.plain_of_children (by decide +kernel) fun c hc => ⟨(h c hc).1, fun hpar => absurd hpar (h c hc).2⟩

/-- The step that enters the last final state raises the done events of its region and of the parallel. -/
theorem done_events_due_finalRegions :
    RaisesDoneEvents (resortStates finalRegions) externalEvents
        (steps (init finalRegions) externalEvents 3 { env := [{ name := "e" }] }) ∧
      doneEvents (step (init finalRegions) externalEvents
        (steps (init finalRegions) externalEvents 3 { env := [{ name := "e" }] })).2.calls = [[0, 1], [0, 0], [0]] := by
  refine ⟨done_events_due finalRegions_finalChart ((Reachable.init _).steps _ _ 3) ?_, by decide +kernel⟩
  intro m hm F hF
  have hmicro : (microstepOf (init finalRegions) externalEvents
      (steps (init finalRegions) externalEvents 3 { env := [{ name := "e" }] })).map (fun m =>
      (m.finals (resortStates finalRegions), m.configurationAt (init finalRegions) [0, 0, 1])) =
      some ([[0, 0, 1]], {[], [0], [0, 0], [0, 0, 1], [0, 1], [0, 1, 0]}) := by decide +kernel
  change microstepOf (init finalRegions) externalEvents _ = some m at hm
  rw [hm, Option.map_some, Option.some.injEq, Prod.mk.injEq] at hmicro
  rw [hmicro.1, List.mem_singleton] at hF
  subst hF
  change FinalsTell _ (m.configurationAt (init finalRegions) [0, 0, 1]) _
  rw [hmicro.2]
  intro P hP
  have habove : (resortStates finalRegions).parallelsAbove (TreePath.parent [0, 0, 1]) = [[0]] := by decide +kernel
  rw [habove, List.mem_singleton] at hP
  subst hP
  refine ⟨?_, fun _ => finalRegions_plain⟩
  unfold Document.FinalsApart
  decide +kernel

end FastMicroStep

end Uscxml
