import Uscxml.ChartToC.Tables

/-!
# What `setHistoryCompletion` computes

The loop hands every state below a parent with histories to the histories that come first in postfix order. Histories
hold no states, so this is document order, and they stand in front of the other children of their parent, so that the
histories of an outer parent come before those of an inner one. Hence a history loses all its states to a deep history
of a parent further out, and no state to any other one.
-/

namespace Uscxml

namespace ChartToC

open Document

variable {β : Type} {d : Document β}

/-- Histories and `<initial>`s hold no states, and no other state stands before a history of the same parent. -/
structure PseudoFirst (d : Document β) : Prop where
  root : d.tag? [] ≠ some .history
  leaf : ∀ p ∈ d.states, p ≠ [] → d.tag? p.parent ≠ some .history ∧ d.tag? p.parent ≠ some .initial
  front : ∀ (p : TreePath) (j k : Nat), j < k → d.tag? (p ++ [k]) = some .history →
    d.tag? (p ++ [j]) = some .history ∨ d.tag? (p ++ [j]) = some .initial

/-! ### The order of the histories -/

section Order

variable (hd : PseudoFirst d)

include hd

theorem not_pseudo_of_below {k x : TreePath} (hk : k ∈ d.states) (h : k.Below x) :
    d.tag? x ≠ some .history ∧ d.tag? x ≠ some .initial := by
  obtain ⟨n, hn⟩ := TreePath.exists_child_of_below h
  have hleaf := hd.leaf (x ++ [n]) (mem_states_of_above hn hk) (by simp)
  rwa [TreePath.parent_concat] at hleaf

theorem history_ne_nil {h : TreePath} (hist : d.isHistory h = true) : h ≠ [] := by
  rintro rfl
  exact hd.root (isHistory_iff.mp hist)

theorem history_lt {h y : TreePath} (hist : d.isHistory h = true) (hy : y ∈ d.states)
    (hbelow : y.Below h.parent) (hdeep : y.parent ≠ h.parent) : h < y := by
  obtain ⟨k, hk⟩ := TreePath.eq_parent_concat (history_ne_nil hd hist)
  obtain ⟨j, hj⟩ := TreePath.exists_child_of_below hbelow
  have hchild : y.Below (h.parent ++ [j]) := by
    rcases TreePath.below_or_eq_of_prefix hj with heq | hb
    · rw [heq, TreePath.parent_concat] at hdeep
      exact absurd rfl hdeep
    · exact hb
  obtain ⟨hnot, hnot'⟩ := not_pseudo_of_below hd hy hchild
  rw [isHistory_iff, hk] at hist
  rcases Nat.lt_trichotomy j k with hlt | rfl | hlt
  · rcases hd.front h.parent j k hlt hist with htag | htag
    · exact absurd htag hnot
    · exact absurd htag hnot'
  · exact absurd hist hnot
  · rw [hk]
    refine lt_of_lt_of_le ?_ (TreePath.Below.lt hchild).le
    exact TreePath.append_lt_append (List.cons_lt_cons_iff.mpr (Or.inl hlt))

theorem parent_of_between {g l h : TreePath} (hgist : d.isHistory g = true) (hist : d.isHistory h = true)
    (hl : l ∈ d.states) (hparent : g.parent = h.parent) (hgl : g < l) (hlh : l < h) : l.parent = h.parent := by
  have hg := TreePath.below_parent (history_ne_nil hd hgist)
  have hh := TreePath.below_parent (history_ne_nil hd hist)
  have habove : h.parent <+: l :=
    TreePath.prefix_of_between (hparent ▸ hg.1) hh.1 hgl hlh
  by_contra hdeep
  have hbelow : l.Below h.parent := by
    rcases TreePath.below_or_eq_of_prefix habove with rfl | hb
    · exact absurd (hparent ▸ hg.lt) (lt_asymm hgl)
    · exact hb
  exact lt_asymm hlh (history_lt hd hist hl hbelow hdeep)

theorem histories_pairwise : (d.tree.postorder.filter d.isHistory).Pairwise (· < ·) := by
  have hpost := d.tree.postorder_pairwise.filter d.isHistory
  refine hpost.imp_of_mem ?_
  intro a b ha hb hab
  rcases hab with hbelow | ⟨-, -, hlt⟩
  · have hmem := mem_states_of_isHistory (List.mem_filter.mp ha).2
    exact absurd (isHistory_iff.mp (List.mem_filter.mp hb).2) (not_pseudo_of_below hd hmem hbelow).1
  · exact hlt

end Order

/-! ### The states of a history -/

def StandsFor (d : Document β) (h x : TreePath) : Prop :=
  x ∈ d.states ∧ d.isHistory x = false ∧
    if (d.elem? h).any (·.deep) then x.Below h.parent else x ≠ [] ∧ x.parent = h.parent

instance (d : Document β) (h x : TreePath) : Decidable (StandsFor d h x) :=
  inferInstanceAs (Decidable (x ∈ d.states ∧ d.isHistory x = false ∧
    if (d.elem? h).any (·.deep) then x.Below h.parent else x ≠ [] ∧ x.parent = h.parent))

/-- A deep history of a parent further out. -/
def Covered (d : Document β) (h : TreePath) : Prop :=
  ∃ g ∈ d.states, d.isHistory g = true ∧ (d.elem? g).any (·.deep) = true ∧ h.parent.Below g.parent

instance (d : Document β) (h : TreePath) : Decidable (Covered d h) :=
  inferInstanceAs (Decidable (∃ g ∈ _, _ ∧ _ ∧ _))

theorem StandsFor.below {h x : TreePath} (hx : StandsFor d h x) : x.Below h.parent := by
  obtain ⟨-, -, hrel⟩ := hx
  split at hrel
  · exact hrel
  · exact TreePath.below_of_parent_eq hrel.1 hrel.2

theorem mem_uncovered {h x : TreePath} {covered : List TreePath} (hist : d.isHistory h = true) :
    x ∈ uncovered d h covered ↔ x ∉ covered ∧ StandsFor d h x := by
  have hne : d.isHistory x = false → x ≠ h := by
    rintro hx rfl
    rw [hist] at hx
    cases hx
  rw [uncovered, List.mem_filter, StandsFor]
  split <;> simp only [Bool.and_eq_true, decide_eq_true_eq, Bool.not_eq_true', isDescendant_iff, ne_eq] <;> tauto

/-- Of the deep histories further out, one is further out than all others. -/
theorem Covered.outermost {h : TreePath} (hc : Covered d h) :
    ∃ g ∈ d.states, d.isHistory g = true ∧ (d.elem? g).any (·.deep) = true ∧ h.parent.Below g.parent ∧ ¬ Covered d g := by
  obtain ⟨g, hg, hist, hdeep, hbelow⟩ := hc
  induction hn : g.parent.length using Nat.strong_induction_on generalizing g with
  | _ n ih =>
    by_cases hcov : Covered d g
    · obtain ⟨g', hg', hist', hdeep', hbelow'⟩ := hcov
      exact ih g'.parent.length (hn ▸ hbelow'.length_lt) g' hg' hist' hdeep' (hbelow.trans hbelow') rfl
    · exact ⟨g, hg, hist, hdeep, hbelow, hcov⟩

/-- Histories of different parents that are not covered share no states. -/
theorem StandsFor.disjoint {g h x : TreePath} (hg : d.isHistory g = true) (hh : d.isHistory h = true)
    (hgc : ¬ Covered d g) (hhc : ¬ Covered d h) (hne : g.parent ≠ h.parent) (hxg : StandsFor d g x)
    (hxh : StandsFor d h x) : False := by
  -- The outer one is shallow, and its states are no deeper than the parent of the inner one.
  have key : ∀ {g h : TreePath}, d.isHistory h = true → ¬ Covered d g → g.parent.Below h.parent →
      StandsFor d g x → ¬ StandsFor d h x := by
    intro g h hh hgc hbelow hxg hxh
    have hshallow : ¬ (d.elem? h).any (·.deep) = true :=
      fun hdeep => hgc ⟨h, mem_states_of_isHistory hh, hh, hdeep, hbelow⟩
    have hrel := hxh.2.2
    rw [if_neg hshallow] at hrel
    have habove := TreePath.prefix_parent_of_below hxg.below
    rw [hrel.2] at habove
    have := habove.length_le
    have := hbelow.length_lt
    omega
  rcases TreePath.comparable hxg.below.1 hxh.below.1 with heq | hb | hb
  · exact hne heq
  · exact key hh hgc hb hxg hxh
  · exact key hg hhc hb hxh hxg

def Completes (d : Document β) (h x : TreePath) : Prop := ¬ Covered d h ∧ StandsFor d h x

/-- When the states of the histories of other parents before it are taken, a history is left with all states it stands
for or with none. -/
theorem mem_uncovered_iff (hd : PseudoFirst d) {h : TreePath} (hist : d.isHistory h = true)
    {covered : List TreePath} (hcov : ∀ x, x ∈ covered ↔ ∃ g, d.isHistory g = true ∧ g < h ∧ g.parent ≠ h.parent ∧ Completes d g x) (x : TreePath) :
    x ∈ uncovered d h covered ↔ Completes d h x := by
  rw [mem_uncovered hist, hcov]
  constructor
  · rintro ⟨hnot, hx⟩
    refine ⟨fun hc => ?_, hx⟩
    obtain ⟨g, hg, hgist, hdeep, hbelow, hgc⟩ := hc.outermost
    have hout : h.Below g.parent := (TreePath.below_parent (history_ne_nil hd hist)).trans hbelow
    have hlt : g < h := history_lt hd hgist (mem_states_of_isHistory hist) hout hbelow.ne
    refine hnot ⟨g, hgist, hlt, fun heq => hbelow.ne heq.symm, hgc, hx.1, hx.2.1, ?_⟩
    rw [if_pos hdeep]
    exact hx.below.trans hbelow
  · rintro ⟨hhc, hx⟩
    refine ⟨?_, hx⟩
    rintro ⟨g, hgist, -, hparent, hgc, hxg⟩
    exact StandsFor.disjoint hgist hist hgc hhc hparent hxg hx

/-! ### The loop -/

/-- What the loop holds when it has treated the histories of `l`. -/
structure Covering (d : Document β) (l : List TreePath) (a : HistoryPass) : Prop where
  parent : a.parent = l.getLast?.map (·.parent)
  covered : ∀ x, x ∈ a.covered ↔ ∃ g ∈ l, a.parent ≠ some g.parent ∧ Completes d g x
  perParentCovered : ∀ x, x ∈ a.perParentCovered ↔ ∃ g ∈ l, a.parent = some g.parent ∧ Completes d g x
  keys : a.completions.map (·.1) = l
  completions : ∀ c ∈ a.completions, ∀ x, x ∈ c.2 ↔ Completes d c.1 x

/-- The start of the round for `h`: the states of the histories of other parents are covered. -/
def turnTo (a : HistoryPass) (h : TreePath) : HistoryPass :=
  if a.parent ≠ some h.parent then
    { a with covered := a.covered ++ a.perParentCovered, perParentCovered := [], parent := some h.parent }
  else a

theorem coverHistory_eq (a : HistoryPass) (h : TreePath) :
    coverHistory d a h =
      { turnTo a h with
        perParentCovered := (turnTo a h).perParentCovered ++ uncovered d h (turnTo a h).covered
        completions := (turnTo a h).completions ++ [(h, uncovered d h (turnTo a h).covered)] } := rfl

/-- Once the loop has turned to `h`, the states of the histories of its parent and those of all others are apart. -/
structure Turned (d : Document β) (l : List TreePath) (h : TreePath) (a : HistoryPass) : Prop where
  parent : a.parent = some h.parent
  covered : ∀ x, x ∈ a.covered ↔ ∃ g ∈ l, g.parent ≠ h.parent ∧ Completes d g x
  perParentCovered : ∀ x, x ∈ a.perParentCovered ↔ ∃ g ∈ l, g.parent = h.parent ∧ Completes d g x

theorem Covering.turned (hd : PseudoFirst d) {l : List TreePath} {a : HistoryPass} {h : TreePath} (ha : Covering d l a)
    (hl : (l ++ [h]).Pairwise (· < ·)) (hists : ∀ g ∈ l ++ [h], d.isHistory g = true) : Turned d l h (turnTo a h) := by
  rw [turnTo]
  split
  · rename_i hother
    -- No history has the parent of `h` if the last one has another, for the histories of a parent stand together.
    have hnone : ∀ g ∈ l, g.parent ≠ h.parent := by
      intro g hg hparent
      rcases List.eq_nil_or_concat' l with rfl | ⟨l', z, rfl⟩
      · cases hg
      rw [ha.parent, List.getLast?_concat, Option.map_some, ne_eq, Option.some.injEq] at hother
      rw [List.pairwise_append] at hl
      have hz : z ∈ l' ++ [z] := by simp
      have hzh : z < h := hl.2.2 z hz h List.mem_cons_self
      rcases List.mem_append.mp hg with hg' | hg'
      · have hgz : g < z := (List.pairwise_append.mp hl.1).2.2 g hg' z List.mem_cons_self
        have hzist := hists z (List.mem_append_left _ hz)
        exact hother (parent_of_between hd (hists g (List.mem_append_left _ hg)) (hists h (by simp))
          (mem_states_of_isHistory hzist) hparent hgz hzh)
      · rw [List.mem_singleton.mp hg'] at hparent
        exact hother hparent
    refine ⟨rfl, fun x => ?_, fun x => ?_⟩
    · rw [List.mem_append, ha.covered, ha.perParentCovered]
      constructor
      · rintro (⟨g, hg, -, hx⟩ | ⟨g, hg, -, hx⟩)
        · exact ⟨g, hg, hnone g hg, hx⟩
        · exact ⟨g, hg, hnone g hg, hx⟩
      · rintro ⟨g, hg, -, hx⟩
        by_cases hp : a.parent = some g.parent
        · exact Or.inr ⟨g, hg, hp, hx⟩
        · exact Or.inl ⟨g, hg, hp, hx⟩
    · constructor
      · intro hx
        cases hx
      · rintro ⟨g, hg, hparent, -⟩
        exact absurd hparent (hnone g hg)
  · rename_i hsame
    rw [not_not] at hsame
    refine ⟨hsame, fun x => ?_, fun x => ?_⟩
    · rw [ha.covered, hsame]
      simp only [ne_eq, Option.some.injEq, eq_comm]
    · rw [ha.perParentCovered, hsame]
      simp only [Option.some.injEq, eq_comm]

theorem covering_nil : Covering d [] {} where
  parent := rfl
  covered := by simp
  perParentCovered := by simp
  keys := rfl
  completions := by simp

theorem Covering.next (hd : PseudoFirst d) {l r : List TreePath} {a : HistoryPass} {h : TreePath} (ha : Covering d l a)
    (hl : d.tree.postorder.filter d.isHistory = l ++ h :: r) : Covering d (l ++ [h]) (coverHistory d a h) := by
  have hsplit : l ++ h :: r = l ++ [h] ++ r := by simp
  have hpair := histories_pairwise hd
  have hmem : ∀ g, d.isHistory g = true ↔ g ∈ l ++ h :: r := by
    intro g
    rw [← hl, List.mem_filter, RoseTree.mem_postorder]
    exact ⟨fun hg => ⟨mem_states_of_isHistory hg, hg⟩, fun hg => hg.2⟩
  have hist : d.isHistory h = true := (hmem h).mpr (by simp)
  rw [hl] at hpair
  have hbefore : ∀ g, d.isHistory g = true ∧ g < h ↔ g ∈ l := by
    intro g
    rw [hmem]
    rw [List.pairwise_append, List.pairwise_cons] at hpair
    constructor
    · rintro ⟨hg, hlt⟩
      rcases List.mem_append.mp hg with hg | hg
      · exact hg
      rcases List.mem_cons.mp hg with rfl | hg
      · exact absurd hlt (lt_irrefl g)
      · exact absurd hlt (lt_asymm (hpair.2.1.1 g hg))
    · intro hg
      exact ⟨List.mem_append_left _ hg, hpair.2.2 g hg h List.mem_cons_self⟩
  have hturn : Turned d l h (turnTo a h) := by
    refine ha.turned hd ?_ ?_
    · exact hpair.sublist (hsplit ▸ List.sublist_append_left _ _)
    · intro g hg
      exact (hmem g).mpr (hsplit ▸ List.mem_append_left _ hg)
  have hown : ∀ x, x ∈ uncovered d h (turnTo a h).covered ↔ Completes d h x := by
    refine mem_uncovered_iff hd hist ?_
    intro x
    rw [hturn.covered]
    constructor
    · rintro ⟨g, hg, hparent, hx⟩
      obtain ⟨hgist, hlt⟩ := (hbefore g).mpr hg
      exact ⟨g, hgist, hlt, hparent, hx⟩
    · rintro ⟨g, hgist, hlt, hparent, hx⟩
      exact ⟨g, (hbefore g).mp ⟨hgist, hlt⟩, hparent, hx⟩
  have hcompletions : (turnTo a h).completions = a.completions := by
    rw [turnTo]
    split <;> rfl
  rw [coverHistory_eq]
  refine ⟨?_, fun x => ?_, fun x => ?_, ?_, ?_⟩
  · simp [hturn.parent]
  · simp only [hturn.covered, hturn.parent, ne_eq, Option.some.injEq]
    constructor
    · rintro ⟨g, hg, hparent, hx⟩
      exact ⟨g, List.mem_append_left _ hg, fun heq => hparent heq.symm, hx⟩
    · rintro ⟨g, hg, hparent, hx⟩
      rcases List.mem_append.mp hg with hg | hg
      · exact ⟨g, hg, fun heq => hparent heq.symm, hx⟩
      · rw [List.mem_singleton.mp hg] at hparent
        exact absurd rfl hparent
  · simp only [List.mem_append, hturn.perParentCovered, hown, hturn.parent, Option.some.injEq, List.mem_singleton]
    constructor
    · rintro (⟨g, hg, hparent, hx⟩ | hx)
      · exact ⟨g, Or.inl hg, hparent.symm, hx⟩
      · exact ⟨h, Or.inr rfl, rfl, hx⟩
    · rintro ⟨g, hg | rfl, hparent, hx⟩
      · exact Or.inl ⟨g, hg, hparent.symm, hx⟩
      · exact Or.inr hx
  · simp [hcompletions, ha.keys]
  · intro c hc
    simp only [hcompletions] at hc
    rcases List.mem_append.mp hc with hc | hc
    · exact ha.completions c hc
    · rw [List.mem_singleton.mp hc]
      exact hown

theorem covering_setHistoryCompletion (hd : PseudoFirst d) :
    Covering d (d.tree.postorder.filter d.isHistory) (setHistoryCompletion d) := by
  suffices hloop : ∀ l r, d.tree.postorder.filter d.isHistory = l ++ r → Covering d l (l.foldl (coverHistory d) {}) by
    exact hloop _ [] (List.append_nil _).symm
  intro l
  induction l using List.reverseRecOn with
  | nil => exact fun _ _ => covering_nil
  | append_singleton l h ih =>
    intro r hl
    rw [List.foldl_concat]
    rw [List.append_assoc] at hl
    exact (ih ([h] ++ r) hl).next hd hl

/-- A history stands for what its kind says, unless a deep history further out does. -/
theorem mem_historyCompletion (hd : PseudoFirst d) {h : TreePath} (hist : d.isHistory h = true) (x : TreePath) :
    x ∈ historyCompletion d h ↔ Completes d h x := by
  have hcov := covering_setHistoryCompletion hd
  have hmem : h ∈ (setHistoryCompletion d).completions.map (·.1) := by
    rw [hcov.keys, List.mem_filter, RoseTree.mem_postorder]
    exact ⟨mem_states_of_isHistory hist, hist⟩
  rw [historyCompletion]
  cases hfind : (setHistoryCompletion d).completions.find? fun c => c.1 = h with
  | none =>
    obtain ⟨c, hc, rfl⟩ := List.mem_map.mp hmem
    have := List.find?_eq_none.mp hfind c hc
    simp at this
  | some c =>
    have hkey : c.1 = h := by simpa using List.find?_some hfind
    have := hcov.completions c (List.mem_of_find?_eq_some hfind) x
    rwa [hkey] at this

theorem pseudoFirst_resortStates (d : Document β) (hroot : (resortStates d).tag? [] ≠ some .history)
    (hleaf : ∀ p ∈ (resortStates d).states, p ≠ [] → (resortStates d).tag? p.parent ≠ some .history ∧
      (resortStates d).tag? p.parent ≠ some .initial) : PseudoFirst (resortStates d) where
  root := hroot
  leaf := hleaf
  front p j k hjk h := by
    rw [resortStates_eq] at h ⊢
    exact resortStates_history_front d hjk h

end ChartToC

end Uscxml
