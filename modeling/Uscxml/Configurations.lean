import Uscxml.Domains
import Uscxml.Lib.Unions

/-!
# The configurations of a chart

`getAllConfigurations` of `debug/InterpreterIssue.cpp`: the legal configurations, listed by a recursion over the elements
that goes through the children of a compound state one after the other and joins those of a parallel.
-/

namespace Uscxml

variable {β : Type}

/-- The loop of `getAllConfigurations` over the children of `root` from the one at position `k` on, and what follows
it. The sets found for the first region of a parallel get the root, those of the others are joined with what is there. -/
def configurationsLoop : TreePath → Tag → Forest (Elem β) → Nat → Bool → List (Finset TreePath) → List (Finset TreePath)
  | root, _, .nil, _, isAtomic, allConfigurations => if isAtomic then allConfigurations ++ [{root}] else allConfigurations
  | root, localName, .cons childElem kids next, k, isAtomic, allConfigurations =>
    if childElem.tag = .state ∨ childElem.tag = .parallel ∨ childElem.tag = .final then
      let nestedConfigurations := configurationsLoop (root ++ [k]) childElem.tag kids 0 true []
      configurationsLoop root localName next (k + 1) false
        (if localName = .parallel ∧ 0 < allConfigurations.length then
          allConfigurations.flatMap fun existingConfig => nestedConfigurations.map fun newConfig => existingConfig ∪ newConfig
        else
          allConfigurations ++ nestedConfigurations.map fun newConfig =>
            if localName ≠ .scxml then insert root newConfig else newConfig)
    else configurationsLoop root localName next (k + 1) isAtomic allConfigurations

/-- `getAllConfigurations` of the root. The prefix is put in front of the names without its colon, so that in a document
with a prefix no child is taken for a state. -/
def getAllConfigurations (d : Document β) : List (Finset TreePath) :=
  if d.xmlPrefix = "" then configurationsLoop [] d.tree.root.tag d.tree.kids 0 true [] else [{[]}]

/-- The children that are proper states, each with its own configurations. -/
def nestedConfigurations : TreePath → Forest (Elem β) → Nat → List (TreePath × List (Finset TreePath))
  | _, .nil, _ => []
  | root, .cons childElem kids next, k =>
    if childElem.tag = .state ∨ childElem.tag = .parallel ∨ childElem.tag = .final then
      (root ++ [k], configurationsLoop (root ++ [k]) childElem.tag kids 0 true []) :: nestedConfigurations root next (k + 1)
    else nestedConfigurations root next (k + 1)

def combined (root : TreePath) (localName : Tag) (nested : List (TreePath × List (Finset TreePath))) :
    List (Finset TreePath) :=
  if localName = .parallel then nested.foldl (fun acc a => acc.unions a.2) [{root}]
  else if nested = [] then [{root}]
  else nested.flatMap fun a => a.2.map fun newConfig => if localName ≠ .scxml then insert root newConfig else newConfig

theorem configurationsLoop_ne_nil (root : TreePath) (localName : Tag) (f : Forest (Elem β)) (k : Nat) (isAtomic : Bool)
    (all : List (Finset TreePath)) (h : isAtomic = false → all ≠ []) : configurationsLoop root localName f k isAtomic all ≠ [] := by
  induction f generalizing root localName k isAtomic all with
  | nil =>
    rw [configurationsLoop]
    cases isAtomic with
    | true => simp
    | false => simpa using h rfl
  | cons childElem kids next ihk ihn =>
    rw [configurationsLoop]
    split
    · refine ihn _ _ _ _ _ fun _ => ?_
      have hnested := ihk (root ++ [k]) childElem.tag 0 true [] (by simp)
      split
      · rename_i hall
        exact List.unions_ne_nil (List.length_pos_iff.mp hall.2) hnested
      · simpa using fun _ => hnested
    · exact ihn _ _ _ _ _ h

/-- What the loop adds to the configurations of an element that is not parallel. -/
theorem configurationsLoop_of_ne {root : TreePath} {localName : Tag} (h : localName ≠ .parallel) (f : Forest (Elem β))
    (k : Nat) (isAtomic : Bool) (all : List (Finset TreePath)) :
    configurationsLoop root localName f k isAtomic all =
      if isAtomic = true ∧ nestedConfigurations root f k = [] then all ++ [{root}]
      else all ++ (nestedConfigurations root f k).flatMap fun a =>
        a.2.map fun newConfig => if localName ≠ .scxml then insert root newConfig else newConfig := by
  induction f generalizing k isAtomic all with
  | nil => cases isAtomic <;> simp [configurationsLoop, nestedConfigurations]
  | cons childElem kids next _ ihn =>
    rw [configurationsLoop, nestedConfigurations]
    split
    · rw [ihn]
      simp [h]
    · exact ihn _ _ _

/-- Once there are configurations, the loop joins those of every further region of a parallel. -/
theorem configurationsLoop_parallel {root : TreePath} (f : Forest (Elem β)) (k : Nat) {all : List (Finset TreePath)}
    (h : all ≠ []) : configurationsLoop root .parallel f k false all =
      (nestedConfigurations root f k).foldl (fun acc a => acc.unions a.2) all := by
  induction f generalizing k all with
  | nil => simp [configurationsLoop, nestedConfigurations]
  | cons childElem kids next _ ihn =>
    rw [configurationsLoop, nestedConfigurations]
    split
    · dsimp only
      rw [if_pos ⟨rfl, List.length_pos_iff.mpr h⟩, List.foldl_cons]
      refine ihn _ (List.unions_ne_nil h ?_)
      exact configurationsLoop_ne_nil _ _ _ _ _ _ (by simp)
    · exact ihn _ h

/-- The configurations of an element are put together from those of its children. -/
theorem configurationsLoop_eq_combined (root : TreePath) (localName : Tag) (f : Forest (Elem β)) (k : Nat) :
    configurationsLoop root localName f k true [] = combined root localName (nestedConfigurations root f k) := by
  rw [combined]
  split
  · rename_i hp
    subst hp
    induction f generalizing k with
    | nil => simp [configurationsLoop, nestedConfigurations]
    | cons childElem kids next _ ihn =>
      rw [configurationsLoop, nestedConfigurations]
      split
      · -- Joining with the root alone is what the first region gets.
        have hfirst : ∀ sets : List (Finset TreePath), List.unions [{root}] sets = sets.map (insert root ·) := by
          intro sets
          rw [List.unions, List.flatMap_singleton]
          rfl
        dsimp only
        rw [if_neg (by simp), List.foldl_cons, hfirst]
        refine (configurationsLoop_parallel _ _ ?_).trans ?_
        · simpa using configurationsLoop_ne_nil _ _ _ _ _ _ (by simp)
        · simp
      · exact ihn _
  · rename_i hp
    rw [configurationsLoop_of_ne hp]
    simp

/-! ### Legal below an element -/

namespace Document

/-- A legal configuration of the subtree of `p`. -/
structure LegalAt (d : Document β) (p : TreePath) (S : Finset TreePath) : Prop where
  root : p ∈ S
  within : ∀ q ∈ S, p <+: q
  proper : ∀ q ∈ S, q ≠ p → d.ProperState q
  ancestor : ∀ q ∈ S, ∀ a, q.Below a → p <+: a → a ∈ S
  compound : ∀ q ∈ S, d.isCompound q = true → ∃! c, c ∈ S ∧ d.ProperChild q c
  parallel : ∀ q ∈ S, d.isParallel q = true → ∀ c, d.ProperChild q c → c ∈ S

variable {d : Document β}

theorem Nesting.legal_iff_legalAt (hn : d.Nesting) {C : Finset TreePath} : d.Legal C ↔ d.LegalAt [] C := by
  constructor
  · intro h
    refine ⟨h.root, fun _ _ => List.nil_prefix, h.proper, fun q hq a ha _ => h.ancestor q hq a ha, ?_, h.parallel⟩
    exact fun q hq hc => h.compound q hq (Or.inr hc)
  · intro h
    refine ⟨h.root, h.proper, fun q hq a ha => h.ancestor q hq a ha List.nil_prefix, ?_, h.parallel⟩
    rintro q hq (rfl | hc)
    · exact h.compound [] hq hn.isCompound_root
    · exact h.compound q hq hc

/-- A legal configuration of a subtree consists of its root and of legal configurations of the subtrees of some
children: of one child of a compound state, of all children of a parallel. -/
theorem legalAt_iff {p : TreePath} {S : Finset TreePath} :
    d.LegalAt p S ↔ p ∈ S ∧ (∀ q ∈ S, q = p ∨ ∃ c ∈ S, d.ProperChild p c ∧ c <+: q) ∧
      (∀ c ∈ S, d.ProperChild p c → d.LegalAt c (S.filter (c <+: ·))) ∧
      (d.isCompound p = true → ∃! c, c ∈ S ∧ d.ProperChild p c) ∧
      (d.isParallel p = true → ∀ c, d.ProperChild p c → c ∈ S) := by
  constructor
  · intro h
    refine ⟨h.root, ?_, ?_, h.compound p h.root, h.parallel p h.root⟩
    · intro q hq
      rcases TreePath.below_or_eq_of_prefix (h.within q hq) with heq | hb
      · exact Or.inl heq
      · obtain ⟨k, hk⟩ := TreePath.exists_child_of_below hb
        have hc : p ++ [k] ∈ S := by
          rcases TreePath.below_or_eq_of_prefix hk with heq | hbelow
          · exact heq ▸ hq
          · exact h.ancestor q hq _ hbelow (List.prefix_append p [k])
        refine Or.inr ⟨p ++ [k], hc, ⟨by simp, TreePath.parent_concat p k, ?_⟩, hk⟩
        exact h.proper _ hc (TreePath.concat_ne p k)
    · intro c hc hchild
      have hchildren : ∀ q, c <+: q → ∀ x, d.ProperChild q x → c <+: x := fun q hq x hx => hq.trans hx.below.1
      refine ⟨Finset.mem_filter.mpr ⟨hc, List.prefix_refl c⟩, fun q hq => (Finset.mem_filter.mp hq).2, ?_, ?_, ?_, ?_⟩
      · intro q hq _
        have hq' := Finset.mem_filter.mp hq
        exact h.proper q hq'.1 (TreePath.Below.prefix_trans hq'.2 hchild.below).ne
      · intro q hq a ha hca
        exact Finset.mem_filter.mpr
          ⟨h.ancestor q (Finset.mem_filter.mp hq).1 a ha (hchild.below.1.trans hca), hca⟩
      · intro q hq hcomp
        have hq' := Finset.mem_filter.mp hq
        obtain ⟨x, hx, huniq⟩ := h.compound q hq'.1 hcomp
        refine ⟨x, ⟨Finset.mem_filter.mpr ⟨hx.1, hchildren q hq'.2 x hx.2⟩, hx.2⟩, ?_⟩
        exact fun y hy => huniq y ⟨(Finset.mem_filter.mp hy.1).1, hy.2⟩
      · intro q hq hpar x hx
        have hq' := Finset.mem_filter.mp hq
        exact Finset.mem_filter.mpr ⟨h.parallel q hq'.1 hpar x hx, hchildren q hq'.2 x hx⟩
  · rintro ⟨hroot, hbelow, hsub, hcomp, hpar⟩
    have hlift : ∀ q ∈ S, q ≠ p → ∃ c ∈ S, d.ProperChild p c ∧ q ∈ S.filter (c <+: ·) ∧
        d.LegalAt c (S.filter (c <+: ·)) := by
      intro q hq hne
      obtain ⟨c, hc, hchild, hcq⟩ := (hbelow q hq).resolve_left hne
      exact ⟨c, hc, hchild, Finset.mem_filter.mpr ⟨hq, hcq⟩, hsub c hc hchild⟩
    refine ⟨hroot, ?_, ?_, ?_, ?_, ?_⟩
    · intro q hq
      rcases hbelow q hq with rfl | ⟨c, -, hchild, hcq⟩
      · exact List.prefix_refl q
      · exact hchild.below.1.trans hcq
    · intro q hq hne
      obtain ⟨c, hc, hchild, hqc, hlegal⟩ := hlift q hq hne
      by_cases heq : q = c
      · exact heq ▸ hchild.2.2
      · exact hlegal.proper q hqc heq
    · intro q hq a ha hpa
      by_cases hap : a = p
      · exact hap ▸ hroot
      have hne : q ≠ p := by
        rintro rfl
        exact absurd hpa.length_le (Nat.not_le.mpr ha.length_lt)
      obtain ⟨c, hc, hchild, hqc, hlegal⟩ := hlift q hq hne
      -- Both the child and `a` lie on the way from `p` to `q`.
      have hca : c <+: a := by
        obtain ⟨k, hk⟩ := TreePath.exists_child_of_below
          ((TreePath.below_or_eq_of_prefix hpa).resolve_left hap)
        have heq := TreePath.eq_of_prefix_of_parent_eq (Finset.mem_filter.mp hqc).2 (hk.trans ha.1) hchild.1 (by simp)
          (hchild.2.1.trans (TreePath.parent_concat p k).symm)
        exact heq ▸ hk
      exact (Finset.mem_filter.mp (hlegal.ancestor q hqc a ha hca)).1
    · intro q hq hqc
      by_cases hqp : q = p
      · exact hqp ▸ hcomp (hqp ▸ hqc)
      obtain ⟨c, hc, hchild, hmem, hlegal⟩ := hlift q hq hqp
      obtain ⟨x, hx, huniq⟩ := hlegal.compound q hmem hqc
      refine ⟨x, ⟨(Finset.mem_filter.mp hx.1).1, hx.2⟩, ?_⟩
      intro y hy
      have hcy : c <+: y := (Finset.mem_filter.mp hmem).2.trans hy.2.below.1
      exact huniq y ⟨Finset.mem_filter.mpr ⟨hy.1, hcy⟩, hy.2⟩
    · intro q hq hqp x hx
      by_cases heq : q = p
      · exact hpar (heq ▸ hqp) x (heq ▸ hx)
      obtain ⟨c, hc, hchild, hmem, hlegal⟩ := hlift q hq heq
      exact (Finset.mem_filter.mp (hlegal.parallel q hmem hqp x hx)).1

/-- The sets are the legal configurations of the subtree of the element, each listed once. -/
def Lists (d : Document β) (a : TreePath × List (Finset TreePath)) : Prop :=
  (∀ S, S ∈ a.2 ↔ d.LegalAt a.1 S) ∧ a.2.Nodup

theorem prefix_disjoint {p c c' : TreePath} (hc : d.ProperChild p c) (hc' : d.ProperChild p c') (hne : c ≠ c')
    (x : TreePath) (h : c <+: x) : ¬ c' <+: x :=
  fun h' => hne (TreePath.eq_of_prefix_of_parent_eq h h' hc.1 hc'.1 (hc.2.1.trans hc'.2.1.symm))

section Step

variable {p : TreePath} {nested : List (TreePath × List (Finset TreePath))} (hlists : ∀ a ∈ nested, d.Lists a)
  (hchild : ∀ c, (∃ a ∈ nested, a.1 = c) ↔ d.ProperChild p c) (hnodup : (nested.map (·.1)).Nodup)

include hlists hchild hnodup

/-- The legal configurations of a parallel: one of every region. -/
theorem lists_parallel (hp : d.isParallel p = true) :
    d.Lists (p, nested.foldl (fun acc a => acc.unions a.2) [{p}]) := by
  have hdisj : nested.Pairwise fun a b => ∀ x, a.1 <+: x → ¬ b.1 <+: x := by
    have hne : nested.Pairwise fun a b => a.1 ≠ b.1 := List.pairwise_map.mp hnodup
    refine hne.imp_of_mem ?_
    intro a b ha hb hab
    exact prefix_disjoint ((hchild a.1).mp ⟨a, ha, rfl⟩) ((hchild b.1).mp ⟨b, hb, rfl⟩) hab
  have hwithin : ∀ a ∈ nested, ∀ t ∈ a.2, ∀ x ∈ t, a.1 <+: x :=
    fun a ha t ht => (((hlists a ha).1 t).mp ht).within
  have hroot : ∀ e ∈ [({p} : Finset TreePath)], ∀ a ∈ nested, ∀ x ∈ e, ¬ a.1 <+: x := by
    intro e he a ha x hx hpre
    rw [List.mem_singleton] at he
    rw [he, Finset.mem_singleton] at hx
    exact absurd (hx ▸ hpre).length_le (Nat.not_le.mpr ((hchild a.1).mp ⟨a, ha, rfl⟩).below.length_lt)
  refine ⟨fun S => ?_, ?_⟩
  · rw [List.mem_foldl_unions (R := fun c x => c <+: x) hdisj hwithin hroot, List.mem_singleton, legalAt_iff]
    have hnc : d.isCompound p = false := by simp [isCompound, hp]
    have hsub : (∀ a ∈ nested, S.filter (a.1 <+: ·) ∈ a.2) ↔ ∀ c, d.ProperChild p c → d.LegalAt c (S.filter (c <+: ·)) := by
      constructor
      · intro h c hc
        obtain ⟨a, ha, rfl⟩ := (hchild c).mpr hc
        exact ((hlists a ha).1 _).mp (h a ha)
      · intro h a ha
        exact ((hlists a ha).1 _).mpr (h a.1 ((hchild a.1).mp ⟨a, ha, rfl⟩))
    rw [hsub]
    constructor
    · rintro ⟨hout, hlegal⟩
      have hmem : ∀ c, d.ProperChild p c → c ∈ S := fun c hc => (Finset.mem_filter.mp (hlegal c hc).root).1
      refine ⟨?_, ?_, fun c _ hc => hlegal c hc, by simp [hnc], fun _ => hmem⟩
      · exact (Finset.mem_filter.mp (hout ▸ Finset.mem_singleton_self p)).1
      · intro q hq
        by_cases hc : ∀ a ∈ nested, ¬ a.1 <+: q
        · exact Or.inl (Finset.mem_singleton.mp (hout ▸ Finset.mem_filter.mpr ⟨hq, hc⟩))
        · push Not at hc
          obtain ⟨a, ha, hpre⟩ := hc
          have hproper := (hchild a.1).mp ⟨a, ha, rfl⟩
          exact Or.inr ⟨a.1, hmem _ hproper, hproper, hpre⟩
    · rintro ⟨hp', hbelow, hsub, -, hall⟩
      refine ⟨?_, fun c hc => hsub c (hall hp c hc) hc⟩
      ext q
      rw [Finset.mem_filter, Finset.mem_singleton]
      constructor
      · rintro ⟨hq, hc⟩
        rcases hbelow q hq with heq | ⟨c, -, hproper, hpre⟩
        · exact heq
        · obtain ⟨a, ha, rfl⟩ := (hchild c).mpr hproper
          exact absurd hpre (hc a ha)
      · rintro rfl
        exact ⟨hp', fun a ha => hroot {q} List.mem_cons_self a ha q (Finset.mem_singleton_self q)⟩
  · exact List.nodup_foldl_unions (R := fun c x => c <+: x) hdisj hwithin (fun a ha => (hlists a ha).2)
      (List.nodup_singleton _) hroot

/-- The sets listed for the children of one element, all with the element or all without it, differ from each other. -/
theorem nodup_flatMap_children {g : Finset TreePath → Finset TreePath} (hg : ∀ S, p ∉ S → (g S).erase p = S) :
    (nested.flatMap fun a => a.2.map g).Nodup := by
  have hlegal : ∀ a ∈ nested, ∀ S ∈ a.2, d.LegalAt a.1 S := fun a ha S hS => ((hlists a ha).1 S).mp hS
  have hnot : ∀ a ∈ nested, ∀ S ∈ a.2, p ∉ S := by
    intro a ha S hS hp
    have hbelow := ((hchild a.1).mp ⟨a, ha, rfl⟩).below
    exact absurd ((hlegal a ha S hS).within p hp).length_le (Nat.not_le.mpr hbelow.length_lt)
  have hinj : ∀ a ∈ nested, ∀ b ∈ nested, ∀ S ∈ a.2, ∀ T ∈ b.2, g S = g T → S = T := by
    intro a ha b hb S hS T hT heq
    rw [← hg S (hnot a ha S hS), heq, hg T (hnot b hb T hT)]
  rw [List.nodup_flatMap]
  constructor
  · intro a ha
    exact (hlists a ha).2.map_on fun S hS T hT => hinj a ha a ha S hS T hT
  · have hne : nested.Pairwise fun a b => a.1 ≠ b.1 := List.pairwise_map.mp hnodup
    refine hne.imp_of_mem ?_
    intro a b ha hb hab S hSa hSb
    obtain ⟨A, hA, rfl⟩ := List.mem_map.mp hSa
    obtain ⟨B, hB, heq⟩ := List.mem_map.mp hSb
    -- A set with the one child would lie below the other.
    obtain rfl := hinj b hb a ha B hB A hA heq
    refine prefix_disjoint ((hchild a.1).mp ⟨a, ha, rfl⟩) ((hchild b.1).mp ⟨b, hb, rfl⟩) hab a.1 (List.prefix_refl _) ?_
    exact (hlegal b hb B hB).within a.1 (hlegal a ha B hA).root

end Step

/-- The legal configurations of a compound state: those of one of its children, and the state. -/
theorem legalAt_compound_iff {p : TreePath} (hp : d.isCompound p = true) {S : Finset TreePath} :
    d.LegalAt p S ↔ ∃ c, d.ProperChild p c ∧ ∃ T, d.LegalAt c T ∧ insert p T = S := by
  have hnp : d.isParallel p = false := by
    rw [isCompound, Bool.and_eq_true, Bool.and_eq_true] at hp
    simpa using hp.1.2
  rw [legalAt_iff]
  constructor
  · rintro ⟨hroot, hbelow, hsub, hcomp, -⟩
    obtain ⟨c, ⟨hc, hchild⟩, huniq⟩ := hcomp hp
    refine ⟨c, hchild, _, hsub c hc hchild, ?_⟩
    ext q
    rw [Finset.mem_insert, Finset.mem_filter]
    constructor
    · rintro (rfl | hq)
      · exact hroot
      · exact hq.1
    · intro hq
      rcases hbelow q hq with heq | ⟨c', hc', hchild', hpre⟩
      · exact Or.inl heq
      · exact Or.inr ⟨hq, huniq c' ⟨hc', hchild'⟩ ▸ hpre⟩
  · rintro ⟨c, hchild, T, hT, rfl⟩
    have honly : ∀ x, x ∈ insert p T → d.ProperChild p x → x = c := by
      intro x hx hx'
      rcases Finset.mem_insert.mp hx with rfl | hx
      · exact absurd hx'.below (TreePath.not_below_self x)
      · by_contra hne
        exact prefix_disjoint hx' hchild hne x (List.prefix_refl x) (hT.within x hx)
    have hfilter : (insert p T).filter (c <+: ·) = T := by
      rw [Finset.filter_insert, if_neg, Finset.filter_true_of_mem hT.within]
      exact fun h => absurd h.length_le (Nat.not_le.mpr hchild.below.length_lt)
    have hcmem : c ∈ insert p T := Finset.mem_insert_of_mem hT.root
    refine ⟨Finset.mem_insert_self p T, ?_, ?_, fun _ => ?_, by simp [hnp]⟩
    · intro q hq
      rcases Finset.mem_insert.mp hq with heq | hq
      · exact Or.inl heq
      · exact Or.inr ⟨c, hcmem, hchild, hT.within q hq⟩
    · intro x hx hx'
      rw [honly x hx hx', hfilter]
      exact hT
    · exact ⟨c, ⟨hcmem, hchild⟩, fun y hy => honly y hy.1 hy.2⟩

theorem legalAt_atomic_iff {p : TreePath} (hp : ∀ c, ¬ d.ProperChild p c) (hnc : d.isCompound p = false) {S : Finset TreePath} :
    d.LegalAt p S ↔ S = {p} := by
  rw [legalAt_iff]
  constructor
  · rintro ⟨hroot, hbelow, -⟩
    ext q
    rw [Finset.mem_singleton]
    constructor
    · intro hq
      exact (hbelow q hq).resolve_right fun ⟨c, _, hc, _⟩ => hp c hc
    · rintro rfl
      exact hroot
  · rintro rfl
    refine ⟨Finset.mem_singleton_self p, ?_, fun c _ hc => absurd hc (hp c), by simp [hnc], fun _ c hc => absurd hc (hp c)⟩
    exact fun q hq => Or.inl (Finset.mem_singleton.mp hq)

/-- The legal configurations of an element from those of its children. -/
theorem lists_combined (hn : d.Nesting) {p : TreePath} (hroot : p ≠ []) {localName : Tag} (htag : d.tag? p = some localName)
    {nested : List (TreePath × List (Finset TreePath))} (hlists : ∀ a ∈ nested, d.Lists a)
    (hchild : ∀ c, (∃ a ∈ nested, a.1 = c) ↔ d.ProperChild p c) (hnodup : (nested.map (·.1)).Nodup) :
    d.Lists (p, combined p localName nested) := by
  rw [combined]
  by_cases hpar : localName = .parallel
  · rw [if_pos hpar]
    exact lists_parallel hlists hchild hnodup (isParallel_iff.mpr (hpar ▸ htag))
  rw [if_neg hpar]
  by_cases hnil : nested = []
  · rw [if_pos hnil]
    have hnone : ∀ c, ¬ d.ProperChild p c := by
      intro c hc
      obtain ⟨a, ha, -⟩ := (hchild c).mpr hc
      simp [hnil] at ha
    have hnc : d.isCompound p = false := by
      rw [← Bool.not_eq_true, hn.isCompound_iff]
      exact fun h => h.2.elim hnone
    refine ⟨fun S => ?_, List.nodup_singleton _⟩
    rw [List.mem_singleton, legalAt_atomic_iff hnone hnc]
  · rw [if_neg hnil]
    have hns : localName ≠ .scxml := fun h => hroot ((hn.root p).mp (h ▸ htag))
    obtain ⟨a, ha⟩ := List.exists_mem_of_ne_nil nested hnil
    have hcomp : d.isCompound p = true := by
      refine hn.isCompound_of_child ((hchild a.1).mp ⟨a, ha, rfl⟩) ?_
      rw [htag]
      exact fun h => hpar (Option.some.inj h)
    simp only [if_pos hns]
    refine ⟨fun S => ?_, ?_⟩
    · rw [legalAt_compound_iff hcomp, List.mem_flatMap]
      constructor
      · rintro ⟨a, ha, hS⟩
        obtain ⟨T, hT, rfl⟩ := List.mem_map.mp hS
        exact ⟨a.1, (hchild a.1).mp ⟨a, ha, rfl⟩, T, ((hlists a ha).1 T).mp hT, rfl⟩
      · rintro ⟨c, hc, T, hT, rfl⟩
        obtain ⟨a, ha, rfl⟩ := (hchild c).mpr hc
        exact ⟨a, ha, List.mem_map.mpr ⟨T, ((hlists a ha).1 T).mpr hT, rfl⟩⟩
    · exact nodup_flatMap_children hlists hchild hnodup fun S hS => Finset.erase_insert hS

/-! ### The recursion -/

/-- The forest holds the children of `p` from the one at position `k` on. -/
def ChildrenFrom (d : Document β) (p : TreePath) (k : Nat) (f : Forest (Elem β)) : Prop :=
  ∀ j q, f.get? (j :: q) = d.elem? (p ++ (k + j) :: q)

theorem ChildrenFrom.kids {p : TreePath} {k : Nat} {a : Elem β} {kids next : Forest (Elem β)}
    (h : d.ChildrenFrom p k (.cons a kids next)) : d.ChildrenFrom (p ++ [k]) 0 kids := by
  intro j q
  have := h 0 (j :: q)
  rw [Forest.cons_get?_kids _ _ _ (by simp)] at this
  simpa using this

theorem ChildrenFrom.next {p : TreePath} {k : Nat} {a : Elem β} {kids next : Forest (Elem β)}
    (h : d.ChildrenFrom p k (.cons a kids next)) : d.ChildrenFrom p (k + 1) next := by
  intro j q
  have := h (j + 1) q
  rw [Forest.cons_get?_next] at this
  rw [this, Nat.add_right_comm, Nat.add_assoc]

theorem ChildrenFrom.tag {p : TreePath} {k : Nat} {a : Elem β} {kids next : Forest (Elem β)}
    (h : d.ChildrenFrom p k (.cons a kids next)) : d.tag? (p ++ [k]) = some a.tag := by
  have := h 0 []
  rw [Forest.cons_get?_zero, Nat.add_zero] at this
  rw [tag?, ← this]
  rfl

theorem mem_nestedConfigurations {p c : TreePath} {k : Nat} {f : Forest (Elem β)} (h : d.ChildrenFrom p k f) :
    (∃ a ∈ nestedConfigurations p f k, a.1 = c) ↔ d.ProperChild p c ∧ ∃ j, c = p ++ [k + j] := by
  induction f generalizing k with
  | nil =>
    simp only [nestedConfigurations, List.not_mem_nil, false_and, exists_false, false_iff]
    rintro ⟨hc, j, rfl⟩
    have := h j []
    rw [Forest.nil_get?] at this
    have hmem := Document.mem_states.mp hc.mem_states
    simp [← this] at hmem
  | cons a kids next _ ihn =>
    have hproper : d.ProperChild p (p ++ [k]) ↔ a.tag = .state ∨ a.tag = .parallel ∨ a.tag = .final := by
      rw [ProperChild, properState_iff, h.tag]
      simp only [Option.some.injEq, ne_eq, List.append_eq_nil_iff, List.cons_ne_nil, and_false, not_false_eq_true,
        TreePath.parent_concat, true_and]
      tauto
    have hsplit : (d.ProperChild p c ∧ ∃ j, c = p ++ [k + j]) ↔
        (d.ProperChild p (p ++ [k]) ∧ c = p ++ [k]) ∨ (d.ProperChild p c ∧ ∃ j, c = p ++ [k + 1 + j]) := by
      constructor
      · rintro ⟨hc, j, rfl⟩
        cases j with
        | zero => exact Or.inl ⟨hc, rfl⟩
        | succ j => exact Or.inr ⟨hc, j, by rw [Nat.add_assoc, Nat.add_comm 1 j]⟩
      · rintro (⟨hc, rfl⟩ | ⟨hc, j, rfl⟩)
        · exact ⟨hc, 0, rfl⟩
        · exact ⟨hc, j + 1, by rw [Nat.add_assoc, Nat.add_comm 1 j]⟩
    rw [hsplit, hproper, ← ihn h.next, nestedConfigurations]
    split
    · rename_i htag
      simp only [List.mem_cons, exists_eq_or_imp, htag, true_and]
      rw [eq_comm]
    · rename_i htag
      simp only [htag, false_and, false_or]

theorem mem_nestedConfigurations_iff {p c : TreePath} {f : Forest (Elem β)} (h : d.ChildrenFrom p 0 f) :
    (∃ a ∈ nestedConfigurations p f 0, a.1 = c) ↔ d.ProperChild p c := by
  rw [mem_nestedConfigurations h]
  refine and_iff_left_of_imp fun hc => ?_
  obtain ⟨j, hj⟩ := TreePath.eq_parent_concat hc.1
  exact ⟨j, by rw [hj, hc.2.1, Nat.zero_add]⟩

theorem nestedConfigurations_nodup {p : TreePath} {k : Nat} {f : Forest (Elem β)} (h : d.ChildrenFrom p k f) :
    ((nestedConfigurations p f k).map (·.1)).Nodup := by
  induction f generalizing k with
  | nil => exact List.nodup_nil
  | cons a kids next _ ihn =>
    rw [nestedConfigurations]
    split
    · rw [List.map_cons, List.nodup_cons]
      refine ⟨fun hmem => ?_, ihn h.next⟩
      obtain ⟨b, hb, heq⟩ := List.mem_map.mp hmem
      obtain ⟨-, j, hj⟩ := (mem_nestedConfigurations h.next).mp ⟨b, hb, heq⟩
      have hkj : k = k + 1 + j := by simpa using hj
      omega
    · exact ihn h.next

/-- The recursion lists the legal configurations of every child. -/
theorem lists_nestedConfigurations (hn : d.Nesting) {p : TreePath} {k : Nat} {f : Forest (Elem β)}
    (h : d.ChildrenFrom p k f) : ∀ a ∈ nestedConfigurations p f k, d.Lists a := by
  induction f generalizing p k with
  | nil => exact fun a ha => absurd ha List.not_mem_nil
  | cons a kids next ihk ihn =>
    rw [nestedConfigurations]
    split
    · refine List.forall_mem_cons.mpr ⟨?_, ihn h.next⟩
      rw [configurationsLoop_eq_combined]
      exact lists_combined hn (by simp) h.tag (ihk h.kids) (fun c => mem_nestedConfigurations_iff h.kids)
        (nestedConfigurations_nodup h.kids)
    · exact ihn h.next

/-- `getAllConfigurations` lists the legal configurations of the chart, each without the root, and each once. -/
theorem allConfigurations_exact (hn : d.Nesting) (hxml : d.xmlPrefix = "") :
    (∀ S, S ∈ getAllConfigurations d ↔ [] ∉ S ∧ d.Legal (insert [] S)) ∧ (getAllConfigurations d).Nodup := by
  have hkids : d.ChildrenFrom [] 0 d.tree.kids := by
    intro j q
    rw [Nat.zero_add]
    rfl
  have hlists := lists_nestedConfigurations hn hkids
  have hnodup := nestedConfigurations_nodup hkids
  have hchild : ∀ c, (∃ a ∈ nestedConfigurations [] d.tree.kids 0, a.1 = c) ↔ d.ProperChild [] c :=
    fun c => mem_nestedConfigurations_iff hkids
  have hroot : d.tree.root.tag = .scxml := Option.some.inj ((hn.root []).mpr rfl)
  have hne : nestedConfigurations [] d.tree.kids 0 ≠ [] := by
    obtain ⟨c, hc⟩ := hn.nonempty
    obtain ⟨a, ha, -⟩ := (hchild c).mpr hc
    exact List.ne_nil_of_mem ha
  rw [getAllConfigurations, if_pos hxml, configurationsLoop_eq_combined, combined, hroot, if_neg (by simp), if_neg hne]
  simp only [ne_eq, not_true_eq_false, if_false, List.map_id']
  refine ⟨fun S => ?_, ?_⟩
  · rw [hn.legal_iff_legalAt, legalAt_compound_iff hn.isCompound_root, List.mem_flatMap]
    constructor
    · rintro ⟨a, ha, hS⟩
      have hc := (hchild a.1).mp ⟨a, ha, rfl⟩
      have hlegal := ((hlists a ha).1 S).mp hS
      exact ⟨fun hmem => hc.1 (List.prefix_nil.mp (hlegal.within [] hmem)), a.1, hc, S, hlegal, rfl⟩
    · rintro ⟨hnot, c, hc, T, hT, heq⟩
      obtain ⟨a, ha, rfl⟩ := (hchild c).mpr hc
      have hnot' : [] ∉ T := fun hmem => hc.1 (List.prefix_nil.mp (hT.within [] hmem))
      have hTS : T = S := by rw [← Finset.erase_insert hnot', heq, Finset.erase_insert hnot]
      exact ⟨a, ha, ((hlists a ha).1 S).mpr (hTS ▸ hT)⟩
  · have := nodup_flatMap_children (g := id) hlists hchild hnodup fun S hS => Finset.erase_eq_of_notMem hS
    simpa using this

/-- Two configurations inside of the parallel, and one outside. -/
theorem allConfigurations_exact_leavingRegion :
    leavingRegion.Nesting ∧ {[0], [0, 0], [0, 0, 1], [0, 1], [0, 1, 0]} ∈ getAllConfigurations leavingRegion ∧
      {[0], [0, 0], [0, 0, 1]} ∉ getAllConfigurations leavingRegion ∧ (getAllConfigurations leavingRegion).Nodup := by
  obtain ⟨hmem, hnodup⟩ := allConfigurations_exact leavingRegion_nesting rfl
  refine ⟨leavingRegion_nesting, (hmem _).mpr ⟨by decide +kernel, by decide +kernel⟩, ?_, hnodup⟩
  rw [hmem]
  decide +kernel

end Document

end Uscxml
