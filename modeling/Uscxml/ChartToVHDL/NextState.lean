import Uscxml.ChartToVHDL.Equations
import Uscxml.ChartToC.Resort
import Uscxml.FastMicroStep.DefaultEntry

/-!
# The next states in VHDL

The signals `in_complete_entry_set` close the targets of the selected transitions under the regions of parallels and the
default children of compound states. Nothing is handed upwards: the signals that would do so are read only if a state is its
own child. And a compound state that is entered gets its default child even if a target lies below another child. So the
next states are those of the interpreter exactly when the states on the way to the targets come by themselves.
-/

namespace Uscxml

variable {β : Type}

namespace Document

/-- The charts without histories and `<initial>`s whose `initial` attributes name one child. -/
structure PlainChart (d : Document β) : Prop extends Grammar d where
  histories : ∀ p ∈ d.states, d.tag? p ≠ some .history
  initials : ∀ p ∈ d.states, d.tag? p ≠ some .initial
  uniqueIds : d.UniqueIds
  escapedIds : ∀ p ∈ d.states, ∀ i, d.id? p = some i → ChartToC.escape i = i
  transitionSources : ∀ p ∈ d.states, d.transitionsAt p ≠ [] → d.tag? p = some .state ∨ d.tag? p = some .parallel
  transitionTargets : ∀ p ∈ d.states, ∀ t ∈ d.transIds p, ∀ s ∈ d.getTargetStates t, d.ProperState s
  initialAttr : ∀ p ∈ d.states, d.isCompound p = true → ∀ ids, (d.elem? p).bind (·.initial) = some ids →
    ∃ i c, ids = [i] ∧ i ≠ "" ∧ d.getState i = some c ∧ d.ProperChild p c

/-- The states that the targets bring with them from above downwards. -/
inductive Completed (d : Document β) (Explicit Fresh : TreePath → Prop) : TreePath → Prop where
  | target {t : TreePath} : Explicit t → Completed d Explicit Fresh t
  | child {p n : TreePath} : Completed d Explicit Fresh p → Fresh p → d.isCompound p = true → n ∈ d.defaultTargets p →
      Completed d Explicit Fresh n
  | region {p c : TreePath} : Completed d Explicit Fresh p → d.isParallel p = true → d.ProperChild p c →
      Completed d Explicit Fresh c

/-- Whatever is entered on the way to a target is a target, a region of an entered parallel or the default child of an
entered compound state, and if a target lies below an entered compound state, one lies at or below its default child. -/
structure ComesByItself (d : Document β) (Explicit Fresh : TreePath → Prop) : Prop where
  way : ∀ t, Explicit t → ∀ c : TreePath, c <+: t → Fresh c →
    Explicit c ∨ Fresh c.parent ∧ (d.isParallel c.parent = true ∨ c ∈ d.defaultTargets c.parent)
  default : ∀ t, Explicit t → ∀ p, t.Below p → Fresh p → d.isCompound p = true →
    ∀ n ∈ d.defaultTargets p, ∃ t', Explicit t' ∧ n <+: t'

variable {d : Document β}

section Closure

variable {Explicit Fresh : TreePath → Prop} {E : Finset TreePath}
  (hchild : ∀ p, d.isCompound p = true → ∀ n ∈ d.defaultTargets p, d.ProperChild p n)
  (hfresh : ∀ p x, Fresh p → x.Below p → Fresh x) (hexplicit : ∀ t, Explicit t → Fresh t)

include hchild hfresh hexplicit

theorem Completed.fresh {p : TreePath} (h : d.Completed Explicit Fresh p) : Fresh p := by
  induction h with
  | target ht => exact hexplicit _ ht
  | child _ hp hcomp hn _ => exact hfresh _ _ hp (hchild _ hcomp _ hn).below
  | region _ _ hc ih => exact hfresh _ _ ih hc.below

omit hfresh hexplicit in
theorem Completed.mem_states (hstate : ∀ t, Explicit t → t ∈ d.states) {p : TreePath} (h : d.Completed Explicit Fresh p) :
    p ∈ d.states := by
  cases h with
  | target ht => exact hstate _ ht
  | child _ _ hcomp hn => exact (hchild _ hcomp _ hn).mem_states
  | region _ _ hc => exact hc.mem_states

variable (hE : d.EntersByDefault Explicit Fresh E) (hmem : ∀ t, Explicit t → t ∈ E) (hroot : ¬ Fresh [])
  (hregion : ∀ q c, d.isParallel q = true → d.ProperChild q c → Fresh c → Fresh q) (hg : d.Nesting)
  (hproper : ∀ e ∈ E, e ≠ [] → d.ProperState e)

include hE hmem

omit hfresh hexplicit in
/-- A default target is entered as soon as something asks for it or a target lies at or below it. -/
theorem Completed.mem (hway : d.ComesByItself Explicit Fresh) {p : TreePath} (h : d.Completed Explicit Fresh p) : p ∈ E := by
  induction h with
  | target ht => exact hmem _ ht
  | @child p n _ hp hcomp hn ih =>
    by_cases hforce : d.InForce Explicit Fresh p
    · exact hE.defaults p ih hforce n hn
    -- Outer defaults are children of their states, so a target lies below.
    obtain ⟨t, ht, htp⟩ : ∃ t, Explicit t ∧ t.Below p := by
      by_contra hnone
      refine hforce ?_
      rw [InForce]
      refine ⟨hcomp, hp, fun t ht hb => hnone ⟨t, ht, hb⟩, ?_⟩
      intro q hpq hq n' hn' hb
      have hle := (TreePath.prefix_parent_of_below hb).length_le
      rw [(hchild q hq.compound n' hn').2.1] at hle
      exact absurd hpq.length_lt (Nat.not_lt.mpr hle)
    obtain ⟨t', ht', hnt⟩ := hway.default t ht p htp hp hcomp n hn
    rcases TreePath.below_or_eq_of_prefix hnt with rfl | hb
    · exact hmem _ ht'
    · exact hE.closed t' (hmem t' ht') n hb
  | region _ hq hc ih => exact hE.regions _ ih hq _ hc

include hroot hregion hg hproper

omit hfresh hexplicit hmem in
/-- What is entered is completed when the ways to the targets come by themselves. The induction is on the depth. -/
theorem completed_of_mem (hway : d.ComesByItself Explicit Fresh) {e : TreePath} (he : e ∈ E) (hf : Fresh e) :
    d.Completed Explicit Fresh e := by
  induction hn : e.length using Nat.strong_induction_on generalizing e with
  | _ n ih =>
    have hne : e ≠ [] := by
      rintro rfl
      exact hroot hf
    have hparent := TreePath.below_parent hne
    rcases hE.origin e he hne with ⟨t, ht, het⟩ | ⟨q, hqE, hq, hc⟩ | ⟨q, hqE, hq, heq, m, hm, hem⟩
    · rcases hway.way t ht e het hf with h | ⟨hfp, hwhy⟩
      · exact .target h
      · have hcompl := ih _ (hn ▸ hparent.length_lt) (hE.closed e he _ hparent) hfp rfl
        have hchild' : d.ProperChild e.parent e := ⟨hne, rfl, hproper e he hne⟩
        by_cases hp : d.isParallel e.parent = true
        · exact .region hcompl hp hchild'
        · have hcomp := hg.isCompound_of_child hchild' (mt isParallel_iff.mpr hp)
          exact .child hcompl hfp hcomp (hwhy.resolve_left hp)
    · exact .region (ih _ (hn ▸ hc.below.length_lt) hqE (hregion q e hq hc hf) rfl) hq hc
    · have hchild' := hchild q hq.compound m hm
      obtain rfl : m = e := by
        rcases TreePath.below_or_eq_of_prefix hem with h | hb
        · exact h
        · have hle := (TreePath.prefix_parent_of_below hb).length_le
          rw [hchild'.2.1] at hle
          exact absurd heq.length_lt (Nat.not_lt.mpr hle)
      exact .child (ih _ (hn ▸ heq.length_lt) hqE hq.fresh rfl) hq.fresh hq.compound hm

/-- The states completed from above are those entered exactly when the ways to the targets come by themselves. -/
theorem completed_iff_mem :
    (∀ p, Fresh p → (d.Completed Explicit Fresh p ↔ p ∈ E)) ↔ d.ComesByItself Explicit Fresh := by
  have habove : ∀ {t c : TreePath}, Explicit t → c <+: t → c ∈ E := by
    intro t c ht hct
    rcases TreePath.below_or_eq_of_prefix hct with rfl | hb
    · exact hmem _ ht
    · exact hE.closed t (hmem t ht) c hb
  constructor
  · intro h
    refine ⟨?_, ?_⟩
    · intro t ht c hct hf
      cases (h c hf).mpr (habove ht hct) with
      | target hc => exact Or.inl hc
      | child hp hfp hcomp hn =>
        have hpar := (hchild _ hcomp _ hn).2.1
        exact Or.inr ⟨hpar ▸ hfp, Or.inr (hpar ▸ hn)⟩
      | region hp hq hc =>
        have hfq := hp.fresh hchild hfresh hexplicit
        exact Or.inr ⟨hc.2.1 ▸ hfq, Or.inl (hc.2.1 ▸ hq)⟩
    · intro t ht p htp hf hcomp n hn
      have hchild' := hchild p hcomp n hn
      have hcompl := (h p hf).mpr (habove ht htp.1)
      have hnE : n ∈ E := (h n (hfresh p n hf hchild'.below)).mp (.child hcompl hf hcomp hn)
      rcases hE.origin n hnE hchild'.1 with h' | ⟨q, -, hq, hc⟩ | ⟨q, -, hq, hnq, m, hm, hnm⟩
      · exact h'
      · rw [hchild'.2.1.symm.trans hc.2.1] at hcomp
        exact absurd rfl (ne_of_parallel_of_compound hq hcomp)
      · -- The default of the state itself would be in force.
        have hm' := hchild q hq.compound m hm
        obtain rfl : m = n := by
          rcases TreePath.below_or_eq_of_prefix hnm with h | hb
          · exact h
          · have hle := (TreePath.prefix_parent_of_below hb).length_le
            rw [hm'.2.1] at hle
            exact absurd hnq.length_lt (Nat.not_lt.mpr hle)
        rw [hchild'.2.1.symm.trans hm'.2.1] at htp
        exact absurd htp (hq.explicit ht)
  · intro hway p hf
    exact ⟨fun h => h.mem hchild hE hmem hway,
      fun h => completed_of_mem hchild hE hroot hregion hg hproper hway h hf⟩

end Closure

namespace PlainChart

variable (hd : d.PlainChart)

include hd

theorem noHistory (p : TreePath) : d.tag? p ≠ some .history := fun h => hd.histories p (mem_states_of_tag h) h

theorem noInitial (p : TreePath) : d.tag? p ≠ some .initial := fun h => hd.initials p (mem_states_of_tag h) h

theorem initialsFirst : d.InitialsFirst := fun p k h => absurd h (hd.noInitial (p ++ [k]))

theorem proper {p : TreePath} (hp : p ∈ d.states) (hne : p ≠ []) : d.ProperState p := by
  rw [properState_iff]
  cases ht : d.tag? p with
  | none =>
    rw [Document.mem_states] at hp
    rw [tag?, Option.map_eq_none_iff] at ht
    simp [ht] at hp
  | some t =>
    cases t with
    | scxml => exact absurd ((hd.toGrammar.root p).mp ht) hne
    | state => simp
    | parallel => simp
    | final => simp
    | initial => exact absurd ht (hd.noInitial p)
    | history => exact absurd ht (hd.noHistory p)

/-- The default target of a compound state: the child its attribute names, else its first child. -/
theorem default_cases {p : TreePath} (hp : d.isCompound p = true) :
    (∃ i c, (d.elem? p).bind (·.initial) = some [i] ∧ i ≠ "" ∧ d.getState i = some c ∧ d.ProperChild p c ∧
        d.defaultTargets p = [c]) ∨
      ∃ c rest, (d.elem? p).bind (·.initial) = none ∧ d.getChildStates p true = c :: rest ∧ d.ProperChild p c ∧
        d.defaultTargets p = [c] := by
  have hg := hd.toGrammar
  cases hattr : (d.elem? p).bind (·.initial) with
  | some ids =>
    obtain ⟨i, c, rfl, hne, hget, hc⟩ := hd.initialAttr p (mem_states_of_compound hp) hp ids hattr
    refine Or.inl ⟨i, c, rfl, hne, hget, hc, ?_⟩
    rw [defaultTargets, hattr]
    simp [hget]
  | none =>
    obtain ⟨-, child, hchild⟩ := hg.isCompound_iff.mp hp
    have hinit : (d.children p).filter (fun c => d.tag? c = some .initial) = [] := by
      rw [List.filter_eq_nil_iff]
      intro c _
      simpa using hd.noInitial c
    obtain ⟨c, rest, hkids, hc⟩ := hg.exists_first_child hchild
    refine Or.inr ⟨c, rest, rfl, hkids, hc, ?_⟩
    rw [defaultTargets, hattr]
    simp [hinit, hkids]

theorem defaultTargets_child {p : TreePath} (hp : d.isCompound p = true) :
    ∀ n ∈ d.defaultTargets p, d.ProperChild p n := by
  intro n hn
  rcases hd.default_cases hp with ⟨-, c, -, -, -, hc, heq⟩ | ⟨c, -, -, -, hc, heq⟩
  · rw [heq, List.mem_singleton] at hn
    exact hn ▸ hc
  · rw [heq, List.mem_singleton] at hn
    exact hn ▸ hc

theorem defaultChart : d.DefaultChart where
  toGrammar := hd.toGrammar
  histories := hd.histories
  uniqueIds := hd.uniqueIds
  transitionTargets := hd.transitionTargets
  initialTargets := fun p _ h => absurd h (hd.noInitial p)
  initialAttr := by
    intro p hp hcomp ids hids
    obtain ⟨i, c, rfl, -, hget, hc⟩ := hd.initialAttr p hp hcomp ids hids
    refine ⟨by simp, ?_⟩
    intro j hj
    rw [List.mem_singleton] at hj
    exact ⟨c, hj ▸ hget, hc.2.2, hc.below⟩

theorem namesSpelledOut : d.NamesSpelledOut where
  inOrder := by
    intro p hp hcomp ids hids
    obtain ⟨i, c, rfl, -, hget, -⟩ := hd.initialAttr p hp hcomp ids hids
    exact ⟨[c], by simp [getStates, hget], by simp⟩
  between := by
    intro p _ _ hcomp _ n hn a ha hap
    have hle := (TreePath.prefix_parent_of_below (mem_parentNodes.mp ha)).length_le
    rw [(hd.defaultTargets_child hcomp n hn).2.1] at hle
    exact absurd hap.length_lt (Nat.not_lt.mpr hle)

theorem idxOf_first {p c : TreePath} {rest : List TreePath} (hkids : d.getChildStates p true = c :: rest) :
    d.states.idxOf c = d.states.idxOf p + 1 := by
  have hg := hd.toGrammar
  have hc : d.ProperChild p c := hg.mem_getChildStates_true.mp (hkids ▸ List.mem_cons_self)
  have hp : p ∈ d.states := mem_states_of_above hc.below.1 hc.mem_states
  have hstates : d.states.Pairwise (· < ·) := d.tree.preorder_pairwise
  have hsplit := List.eq_filter_append_of_pairwise_lt hstates hp
  have hsorted : (d.states.filter (p < ·)).Pairwise (· < ·) := hstates.filter _
  have hmem : c ∈ d.states.filter (p < ·) := by simpa using ⟨hc.mem_states, hc.below.lt⟩
  -- Everything behind the state lies at or behind its first child.
  have hleast : ∀ x ∈ d.states, p < x → c ≤ x := by
    intro x hx hpx
    by_cases hb : p <+: x
    · have hxp : x.Below p := ⟨hb, ne_of_lt hpx⟩
      obtain ⟨k, hk⟩ := TreePath.exists_child_of_below hxp
      have hstate : p ++ [k] ∈ d.states := mem_states_of_above hk hx
      have hchild : d.ProperChild p (p ++ [k]) := ⟨by simp, TreePath.parent_concat p k, hd.proper hstate (by simp)⟩
      have hin : p ++ [k] ∈ c :: rest := hkids ▸ hg.mem_getChildStates_true.mpr hchild
      have hle : c ≤ p ++ [k] := by
        have hord : (c :: rest).Pairwise (· < ·) := hkids ▸ (hstates.filter _).filter _
        rcases List.mem_cons.mp hin with h | h
        · exact le_of_eq h.symm
        · exact ((List.pairwise_cons.mp hord).1 _ h).le
      rcases TreePath.below_or_eq_of_prefix hk with rfl | hlt
      · exact hle
      · exact hle.trans hlt.lt.le
    · by_contra hnot
      exact hb (TreePath.prefix_of_between (List.prefix_refl p) hc.below.1 hpx (not_le.mp hnot))
  cases hafter : d.states.filter (p < ·) with
  | nil => simp [hafter] at hmem
  | cons h after =>
    rw [hafter] at hmem hsorted hsplit
    have hh : h ∈ d.states.filter (p < ·) := hafter ▸ List.mem_cons_self
    rw [List.mem_filter, decide_eq_true_iff] at hh
    obtain rfl : c = h := by
      rcases List.mem_cons.mp hmem with h' | h'
      · exact h'
      · exact absurd ((List.pairwise_cons.mp hsorted).1 c h') (not_lt.mpr (hleast h hh.1 hh.2))
    have hbefore : p ∉ d.states.filter (· < p) := by simp
    have hbefore' : c ∉ d.states.filter (· < p) := by simp [lt_asymm hh.2]
    rw [hsplit, List.idxOf_append_of_notMem hbefore, List.idxOf_append_of_notMem hbefore', List.idxOf_cons_self,
      List.idxOf_cons_ne _ (ne_of_lt hh.2), List.idxOf_cons_self]

end PlainChart

end Document

namespace ChartToVHDL

open Document

open FastMicroStep (Inactive)

variable {d : Document β}

section Signals

variable (hd : d.PlainChart)

include hd

/-- The test for the default completion finds the default targets. -/
theorem isDefault_iff {p x : TreePath} (hp : d.isCompound p = true) (hx : d.ProperChild p x) :
    isDefault d (ChartToC.machine d) x = true ↔ x ∈ d.defaultTargets p := by
  have hg := hd.toGrammar
  rw [isDefault, hx.2.1]
  change ((decide (initialText d p ≠ "") && decide ((d.id? x).getD "" = initialText d p)) ||
    (decide (initialText d p = "") && decide (d.states.idxOf p + 1 = d.states.idxOf x))) = true ↔ _
  rcases hd.default_cases hp with ⟨i, c, hattr, hne, hget, hc, heq⟩ | ⟨c, rest, hattr, hkids, hc, heq⟩
  · have htext : initialText d p = i := by
      rw [initialText, hattr]
      rfl
    have hid := (getState_eq_some_iff hd.uniqueIds).mp hget
    rw [htext, heq, List.mem_singleton]
    simp only [ne_eq, hne, not_false_eq_true, decide_true, Bool.true_and, decide_false, Bool.false_and, Bool.or_false,
      decide_eq_true_iff]
    constructor
    · intro h
      have hid' : d.id? x = some i := by
        cases hx' : d.id? x with
        | none => simp [hx', Ne.symm hne] at h
        | some j => simpa [hx'] using h
      exact Option.some.inj (((getState_eq_some_iff hd.uniqueIds).mpr hid').symm.trans hget)
    · rintro rfl
      simp [hid]
  · have htext : initialText d p = "" := by simp [initialText, hattr]
    rw [htext, heq, List.mem_singleton]
    simp only [ne_eq, not_true_eq_false, decide_false, Bool.false_and, decide_true, Bool.true_and, Bool.false_or,
      decide_eq_true_iff]
    rw [← hd.idxOf_first hkids]
    constructor
    · intro h
      exact (List.idxOf_inj hc.mem_states).mp h |>.symm
    · rintro rfl
      rfl

theorem targetBit_iff {stray : TransId → TreePath → Bool} {t : TransId} (ht : ((d.trans? t).bind (·.target)).isSome)
    {p : TreePath} : targetBit d (ChartToC.machine d) stray t p = true ↔ p ∈ d.getTargetStates t := by
  obtain ⟨targets, htargets⟩ := Option.isSome_iff_exists.mp ht
  rw [targetBit, if_pos ht, decide_eq_true_iff]
  change p ∈ (ChartToC.transition d t).target ↔ _
  rw [ChartToC.transition, getTargetStates, htargets]
  simp only [List.mem_toFinset, List.mem_filter, Option.getD_some, List.mem_filterMap, Option.any_eq_true,
    decide_eq_true_iff]
  constructor
  · rintro ⟨hp, i, hid, hmem⟩
    rw [hd.escapedIds p hp i hid] at hmem
    exact ⟨i, hmem, (getState_eq_some_iff hd.uniqueIds).mpr hid⟩
  · rintro ⟨i, hmem, hget⟩
    have hp := getState_mem_states hget
    have hid := (getState_eq_some_iff hd.uniqueIds).mp hget
    refine ⟨hp, i, hid, ?_⟩
    rwa [hd.escapedIds p hp i hid]

end Signals

/-! ### The signals of a cycle -/

section Cycle

variable {C X : Finset TreePath} {S : Finset TransId} {σ : Signal → Bool} {stray : TransId → TreePath → Bool}
  (hin : Inputs C S σ) (hσ : Satisfies σ (assignments d stray)) (hS : ∀ t ∈ S, t ∈ FastMicroStep.postFixTransitions d)
  (hX : ∀ p, p ∈ X ↔ p ∈ C ∧ ∃ t ∈ S, p ∈ d.getExitSet t)

include hin hσ

theorem completed_signal : σ .completed = true ↔ ∃ f ∈ C, f ≠ [] ∧ f.parent = [] ∧ d.tag? f = some .final := by
  have heq := hσ ⟨.completed, _⟩ (by
    simp only [assignments, List.mem_append]
    exact Or.inr (List.mem_singleton.mpr rfl))
  simp only at heq
  rw [heq, eval_vor_iff]
  simp only [List.mem_map, List.mem_filter, mem_children, decide_eq_true_iff]
  constructor
  · rintro ⟨n, ⟨f, ⟨⟨-, hne, hpar⟩, htag⟩, rfl⟩, hf⟩
    rw [eval_line, hin.active] at hf
    exact ⟨f, hf, hne, hpar, htag⟩
  · rintro ⟨f, hf, hne, hpar, htag⟩
    refine ⟨_, ⟨f, ⟨⟨mem_states_of_tag htag, hne, hpar⟩, htag⟩, rfl⟩, ?_⟩
    rw [eval_line, hin.active]
    exact hf

include hS hX in
theorem inExitSet_signal {p : TreePath} (hp : p ∈ d.states) : σ (.inExitSet p) = true ↔ p ∈ X := by
  have heq := hσ _ (by
    simp only [assignments, List.mem_append, writeExitSet]
    exact Or.inl (Or.inl (Or.inl (Or.inl (Or.inl (List.mem_map_of_mem (a := p) hp))))))
  simp only at heq
  rw [heq, eval_vand_iff, hX]
  simp only [List.mem_cons, List.not_mem_nil, or_false, forall_eq_or_imp, forall_eq, eval_line, hin.active, eval_vor_iff,
    List.mem_map, List.mem_filter, decide_eq_true_iff]
  refine and_congr_right fun _ => ?_
  constructor
  · rintro ⟨n, ⟨t, ⟨-, hmem⟩, rfl⟩, ht⟩
    rw [eval_line, hin.optimal] at ht
    simp only [ChartToC.machine, ChartToC.transition, List.mem_toFinset, List.mem_filter, decide_eq_true_iff] at hmem
    exact ⟨t, ht, hmem.2⟩
  · rintro ⟨t, ht, hmem⟩
    refine ⟨_, ⟨t, ⟨hS t ht, ?_⟩, rfl⟩, ?_⟩
    · simp only [ChartToC.machine, ChartToC.transition, List.mem_toFinset, List.mem_filter, decide_eq_true_iff]
      exact ⟨hp, hmem⟩
    · rw [eval_line, hin.optimal]
      exact ht

include hS hX in
theorem inEntrySet_signal {p : TreePath} (hp : p ∈ d.states) :
    σ (.inEntrySet p) = true ↔ σ (.inCompleteEntrySet p) = true ∧ Inactive C X p := by
  have heq := hσ _ (by
    simp only [assignments, List.mem_append, writeEntrySet]
    exact Or.inl (Or.inl (Or.inl (Or.inl (Or.inr (List.mem_map_of_mem (a := p) hp))))))
  simp only at heq
  rw [heq, eval_vand_iff]
  simp only [List.mem_cons, List.not_mem_nil, or_false, forall_eq_or_imp, forall_eq, eval_line, eval_vor_iff,
    exists_eq_or_imp, exists_eq_left, eval_vnot, Bool.not_eq_true', ← Bool.not_eq_true, hin.active,
    inExitSet_signal hin hσ hS hX hp, Inactive]
  exact and_congr_right fun _ => or_comm

theorem inCompleteEntrySetUp_signal (hd : d.PlainChart) (hS : ∀ t ∈ S, t ∈ FastMicroStep.postFixTransitions d)
    (htarget : ∀ t ∈ S, ((d.trans? t).bind (·.target)).isSome) {p : TreePath} (hp : p ∈ d.states) (hne : p ≠ []) :
    σ (.inCompleteEntrySetUp p) = true ↔ ∃ t ∈ S, p ∈ d.getTargetStates t := by
  have heq := hσ _ (by
    simp only [assignments, List.mem_append, writeCompleteEntrySetUp]
    exact Or.inl (Or.inl (Or.inl (Or.inr (List.mem_map_of_mem (a := p)
      (List.mem_filter.mpr ⟨hp, decide_eq_true hne⟩))))))
  simp only at heq
  have hself : p ∉ ((ChartToC.machine d).state p).children := by
    intro h
    have := (ChartToC.mem_stateInfo_children.mp h).2
    exact TreePath.not_below_self p (TreePath.below_of_parent_eq this.1 this.2)
  rw [heq]
  simp only [eval_vor_iff, List.mem_cons, List.not_mem_nil, or_false, exists_eq_or_imp, exists_eq_left, hself, decide_false,
    List.filter_false, List.map_nil, ite_self, false_and, exists_false, List.mem_map, List.mem_filter]
  constructor
  · rintro ⟨n, ⟨t, ⟨-, hbit⟩, rfl⟩, ht⟩
    rw [eval_line, hin.optimal] at ht
    exact ⟨t, ht, (targetBit_iff hd (htarget t ht)).mp hbit⟩
  · rintro ⟨t, ht, hmem⟩
    refine ⟨_, ⟨t, ⟨hS t ht, (targetBit_iff hd (htarget t ht)).mpr hmem⟩, rfl⟩, ?_⟩
    rw [eval_line, hin.optimal]
    exact ht

omit hin in
theorem inCompleteEntrySet_eq {p : TreePath} (hp : p ∈ d.states) (hne : p ≠ []) :
    σ (.inCompleteEntrySet p) = true ↔ σ (.inCompleteEntrySetUp p) = true ∨
      ∀ n ∈ descendantCompletion d (ChartToC.machine d) p, n.eval σ = true := by
  have heq := hσ _ (by
    simp only [assignments, List.mem_append, writeCompleteEntrySet]
    exact Or.inl (Or.inl (Or.inr (List.mem_map_of_mem (a := p) (List.mem_filter.mpr ⟨hp, decide_eq_true hne⟩)))))
  simp only at heq
  rw [heq]
  simp only [eval_vor_iff, List.mem_cons, List.not_mem_nil, or_false, exists_eq_or_imp, exists_eq_left, eval_line,
    eval_vand_iff]

include hS hX in
theorem stateNext_signal {p : TreePath} (hp : p ∈ d.states) (hne : p ≠ []) :
    σ (.stateNext p) = true ↔ σ (.inCompleteEntrySet p) = true ∨ ¬ Inactive C X p := by
  have heq := hσ _ (by
    simp only [assignments, List.mem_append, writeActiveStateNplusOne]
    exact Or.inl (Or.inr (List.mem_map_of_mem (a := p) hp)))
  simp only [if_neg hne] at heq
  rw [heq]
  simp only [eval_vor_iff, List.mem_cons, List.not_mem_nil, or_false, exists_eq_or_imp, exists_eq_left, eval_line,
    eval_vand_iff, forall_eq_or_imp, forall_eq, eval_vnot, Bool.not_eq_true', ← Bool.not_eq_true, hin.active,
    inExitSet_signal hin hσ hS hX hp, Inactive, not_or, not_not]
  exact or_congr_right and_comm

theorem stateNext_root : σ (.stateNext []) = true ↔ ¬ ∃ f ∈ C, f ≠ [] ∧ f.parent = [] ∧ d.tag? f = some .final := by
  have heq := hσ _ (by
    simp only [assignments, List.mem_append, writeActiveStateNplusOne]
    exact Or.inl (Or.inr (List.mem_map_of_mem (a := ([] : TreePath)) d.root_mem_states)))
  simp only [if_true] at heq
  rw [heq, eval_vnot, eval_line, Bool.not_eq_true', ← Bool.not_eq_true, completed_signal hin hσ]

include hS hX in
theorem descendantCompletion_signal (hd : d.PlainChart) (hfresh : ∀ p x, Inactive C X p → x.Below p → Inactive C X x)
    {p : TreePath} (hp : p ∈ d.states) (hne : p ≠ []) :
    (∀ n ∈ descendantCompletion d (ChartToC.machine d) p, n.eval σ = true) ↔
      σ (.inCompleteEntrySet p.parent) = true ∧ (d.isParallel p.parent = true ∨
        d.isCompound p.parent = true ∧ Inactive C X p.parent ∧ p ∈ d.defaultTargets p.parent) := by
  have hg := hd.toGrammar
  have hchild : d.ProperChild p.parent p := ⟨hne, rfl, hd.proper hp hne⟩
  have hparent : p.parent ∈ d.states := mem_states_of_above hchild.below.1 hp
  by_cases hpar : d.isParallel p.parent = true
  · have hcomp : d.isCompound p.parent = false := by simp [isCompound, hpar]
    simp [descendantCompletion, hcomp, hpar]
  have hcomp : d.isCompound p.parent = true := hg.isCompound_of_child hchild (mt isParallel_iff.mpr hpar)
  by_cases hdef : isDefault d (ChartToC.machine d) p = true
  · have hmem := (isDefault_iff hd hcomp hchild).mp hdef
    rw [descendantCompletion, if_pos hcomp, if_pos hdef]
    simp only [List.mem_cons, forall_eq_or_imp, eval_line, inEntrySet_signal hin hσ hS hX hparent, List.mem_map,
      List.mem_filter, hpar, hcomp, hmem, true_and, and_true, Bool.false_eq_true, false_or]
    refine and_iff_left_of_imp fun hfp => ?_
    -- The siblings of a state that is entered with its parent are inactive.
    rintro n ⟨s, ⟨hs, hbits⟩, rfl⟩
    rw [Bool.and_eq_true, decide_eq_true_iff, decide_eq_true_iff] at hbits
    have hsib := ChartToC.mem_stateInfo_children.mp hbits.2
    have hina := hfresh _ s hfp.2 (TreePath.below_of_parent_eq hsib.2.1 hsib.2.2)
    have hnot : ¬ (s ∈ C ∧ s ∉ X) := by
      rintro ⟨hC, hX'⟩
      rcases hina with h | h
      · exact h hC
      · exact hX' h
    rw [eval_vnot, Bool.not_eq_true', ← Bool.not_eq_true, eval_vand_iff]
    simpa [hin.active, ← Bool.not_eq_true, inExitSet_signal hin hσ hS hX hs] using hnot
  · have hmem := mt (isDefault_iff hd hcomp hchild).mpr hdef
    rw [descendantCompletion, if_pos hcomp, if_neg hdef]
    simp [hpar, hmem]

include hS hX in
/-- The complete entry set is what the targets bring with them. The induction is on the depth of the state. -/
theorem inCompleteEntrySet_signal (hd : d.PlainChart) (htarget : ∀ t ∈ S, ((d.trans? t).bind (·.target)).isSome)
    (hfresh : ∀ p x, Inactive C X p → x.Below p → Inactive C X x)
    (hexplicit : ∀ t, (∃ i ∈ S, t ∈ d.getTargetStates i) → Inactive C X t) (hroot : ¬ Inactive C X [])
    {p : TreePath} (hp : p ∈ d.states) :
    σ (.inCompleteEntrySet p) = true ↔ d.Completed (fun t => ∃ i ∈ S, t ∈ d.getTargetStates i) (Inactive C X) p := by
  have hchildren := fun q hq => hd.defaultTargets_child (p := q) hq
  induction hn : p.length using Nat.strong_induction_on generalizing p with
  | _ n ih =>
    by_cases hne : p = []
    · subst hne
      rw [hin.root]
      refine iff_of_false (by simp) fun h => hroot (h.fresh hchildren hfresh hexplicit)
    have hparent : p.parent ∈ d.states := mem_states_of_above (TreePath.below_parent hne).1 hp
    have hq : σ (.inCompleteEntrySet p.parent) = true ↔
        d.Completed (fun t => ∃ i ∈ S, t ∈ d.getTargetStates i) (Inactive C X) p.parent :=
      ih p.parent.length (hn ▸ (TreePath.below_parent hne).length_lt) hparent rfl
    rw [inCompleteEntrySet_eq hσ hp hne, inCompleteEntrySetUp_signal hin hσ hd hS htarget hp hne,
      descendantCompletion_signal hin hσ hS hX hd hfresh hp hne, hq]
    constructor
    · rintro (h | ⟨hcompl, hpar | ⟨hcomp, hf, hmem⟩⟩)
      · exact .target h
      · exact .region hcompl hpar ⟨hne, rfl, hd.proper hp hne⟩
      · exact .child hcompl hf hcomp hmem
    · intro h
      cases h with
      | target h => exact Or.inl h
      | child hcompl hf hcomp hmem =>
        have hpar := (hchildren _ hcomp _ hmem).2.1
        subst hpar
        exact Or.inr ⟨hcompl, Or.inr ⟨hcomp, hf, hmem⟩⟩
      | region hcompl hpar hc =>
        have heq := hc.2.1
        subst heq
        exact Or.inr ⟨hcompl, Or.inl hpar⟩

end Cycle

/-! ### The next states -/

theorem filled_of_legal {C : Finset TreePath} (hC : d.Legal C) : FastMicroStep.Filled d C where
  proper p hp := by
    by_cases hne : p = []
    · exact Or.inl hne
    · exact Or.inr (hC.proper p hp hne)
  closed := hC.ancestor
  compound p hp hcomp := by
    obtain ⟨c, ⟨hc, hchild⟩, -⟩ := hC.compound p hp (Or.inr hcomp)
    exact ⟨c, hc, hchild.below⟩

theorem exists_domain (hd : d.PlainChart) {t : TransId} {s : TreePath} (hs : s ∈ d.getTargetStates t) :
    ∃ D, d.getTransitionDomain t = some D := by
  have hg := hd.toGrammar
  have htrans : (d.trans? t).isSome := by
    cases h : d.trans? t with
    | none => simp [getTargetStates, h] at hs
    | some e => rfl
  have hsource : d.getSourceState t = t.1 := if_neg (hd.noInitial t.1)
  have hne : t.1 ≠ [] := by
    intro hnil
    have hsome : d.transitionsAt t.1 ≠ [] := by
      intro h
      simp [trans?, h] at htrans
    have htag := hd.transitionSources t.1 (mem_states_of_trans htrans) hsome
    rw [(hg.root t.1).mpr hnil] at htag
    simp at htag
  rcases hg.getTransitionDomain_eq (List.ne_nil_of_mem hs) with ⟨-, heq⟩ | ⟨-, heq⟩
  · exact ⟨_, heq⟩
  · obtain ⟨a, ha, -, -⟩ := hg.findLCCA_spec (d.getSourceState t) (d.getTargetStates t) (by
      intro x hx
      rcases List.mem_cons.mp hx with rfl | hx
      · rw [hsource]
        exact ⟨mem_states_of_trans htrans, hne⟩
      · have := hd.defaultChart.target_proper hx
        exact ⟨this.mem_states, hg.properState_ne_nil this⟩)
    exact ⟨a, heq.trans ha⟩

section Selection

variable {ω : Type} {C : Finset TreePath} {sel : FastMicroStep.Selection ω} (hd : d.PlainChart) (hC : d.Legal C)
  (hsel : FastMicroStep.Selected (FastMicroStep.tables d) C sel)

include hsel

theorem mem_exitSet_inter {p : TreePath} :
    p ∈ sel.exitSet ∩ C ↔ p ∈ C ∧ ∃ t ∈ sel.transSet, p ∈ d.getExitSet t := by
  rw [Finset.mem_inter, hsel.exit, and_comm]
  exact and_congr_right fun _ => exists_congr fun t => and_congr_right fun _ => FastMicroStep.mem_exitSet

include hd

/-- A target lies below a domain, and what is active there is exited. -/
theorem target_inactive {s : TreePath} (hs : ∃ t ∈ sel.transSet, s ∈ d.getTargetStates t) :
    Inactive C (sel.exitSet ∩ C) s := by
  obtain ⟨t, ht, hst⟩ := hs
  obtain ⟨D, hD⟩ := exists_domain hd hst
  have hdef := hd.defaultChart
  by_cases hsC : s ∈ C
  · refine Or.inr ((mem_exitSet_inter hsel).mpr ⟨hsC, t, ht, mem_getExitSet.mpr ⟨D, hD, hdef.target_proper hst, ?_⟩⟩)
    exact (FastMicroStep.domain_spec hdef hD).2 s hst
  · exact Or.inl hsC

include hC

omit hd in
theorem root_active : ¬ Inactive C (sel.exitSet ∩ C) [] := by
  rw [Inactive, not_or, not_not]
  refine ⟨hC.root, fun h => ?_⟩
  obtain ⟨-, t, -, hexit⟩ := (mem_exitSet_inter hsel).mp h
  obtain ⟨D, -, -, hb⟩ := mem_getExitSet.mp hexit
  exact TreePath.not_nil_below D hb

/-- A parallel that stays has all its regions, and they stay, since a domain is compound. -/
theorem region_inactive {q c : TreePath} (hq : d.isParallel q = true) (hc : d.ProperChild q c)
    (hina : Inactive C (sel.exitSet ∩ C) c) : Inactive C (sel.exitSet ∩ C) q := by
  by_contra hstays
  rw [Inactive, not_or, not_not] at hstays
  have hcC := hC.parallel q hstays.1 hq c hc
  obtain ⟨-, t, ht, hexit⟩ := (mem_exitSet_inter hsel).mp (hina.resolve_left (not_not_intro hcC))
  obtain ⟨D, hD, -, hcD⟩ := mem_getExitSet.mp hexit
  have hpre := TreePath.prefix_parent_of_below hcD
  rw [hc.2.1] at hpre
  rcases TreePath.below_or_eq_of_prefix hpre with rfl | hqD
  · exact ne_of_parallel_of_compound hq (FastMicroStep.domain_spec hd.defaultChart hD).1 rfl
  · have hqproper : d.ProperState q := properState_iff.mpr (Or.inl (isParallel_iff.mp hq))
    exact hstays.2 ((mem_exitSet_inter hsel).mpr ⟨hstays.1, t, ht, mem_getExitSet.mpr ⟨D, hD, hqproper, hqD⟩⟩)

theorem exists_entrySet {H : Finset TreePath} : ∃ E : Finset TreePath,
    d.EntersByDefault (fun s => ∃ t ∈ sel.transSet, s ∈ d.getTargetStates t) (Inactive C (sel.exitSet ∩ C)) E ∧
      (∀ s, (∃ t ∈ sel.transSet, s ∈ d.getTargetStates t) → s ∈ E) ∧ (∀ e ∈ E, e ∈ d.states) ∧
      ∀ p, p ∈ FastMicroStep.nextConfiguration (FastMicroStep.tables d) sel.targetSet (sel.exitSet ∩ C) sel.transSet C H ↔
        ¬ Inactive C (sel.exitSet ∩ C) p ∨ p ∈ E := by
  have hdef := hd.defaultChart
  have hsit := FastMicroStep.situation_of_selected hdef (filled_of_legal hC) hsel
  have htargets : ∀ s, (∃ t ∈ sel.transSet, s ∈ d.getTargetStates t) ↔ s ∈ sel.targetSet := by
    intro s
    rw [hsel.target]
    exact exists_congr fun t => and_congr_right fun _ => (FastMicroStep.mem_target hd.uniqueIds).symm
  have hW : FastMicroStep.Walk d (fun s => ∃ t ∈ sel.transSet, s ∈ d.getTargetStates t) (Inactive C (sel.exitSet ∩ C))
      (FastMicroStep.establishEntrySet (FastMicroStep.tables d) C (sel.exitSet ∩ C) H sel.targetSet sel.transSet).entrySet
      [] := by
    refine FastMicroStep.establishEntrySet_walk hdef hd.namesSpelledOut hd.initialsFirst hsit (root_active hC hsel) htargets ?_
    intro s hs
    obtain ⟨t, -, hst⟩ := (htargets s).mpr hs
    exact hdef.target_proper hst
  refine ⟨_, hW.enters, hW.explicit, hW.mem_states, fun p => ?_⟩
  exact FastMicroStep.mem_next_iff hdef (m := ⟨C, H, sel.targetSet, sel.exitSet ∩ C, sel.transSet⟩) hsit hW

end Selection

/-- For a legal configuration and a conflict-free set of transitions with targets out of it, the signals for the next states
are those of the configuration behind the microstep exactly when what is entered on the way to the targets comes by itself
and no top-level final state is active. -/
theorem next_states_exact_iff {D : Document β} (hd : (resortStates D).PlainChart) {m : Micro}
    (hC : (resortStates D).Legal m.configuration) {ω : Type} {sel : FastMicroStep.Selection ω}
    (hsel : FastMicroStep.Selected (FastMicroStep.init D) m.configuration sel)
    (htarget : ∀ t ∈ sel.transSet, (((resortStates D).trans? t).bind (·.target)).isSome)
    {stray : TransId → TreePath → Bool} {σ : Signal → Bool} (hin : Inputs m.configuration sel.transSet σ)
    (hσ : Satisfies σ (emitted D stray)) :
    (∀ p ∈ (resortStates D).states,
        (σ (.stateNext p) = true ↔ p ∈ (sel.microstep (FastMicroStep.init D) m).next (FastMicroStep.init D))) ↔
      (resortStates D).ComesByItself (fun s => ∃ t ∈ sel.transSet, s ∈ (resortStates D).getTargetStates t)
          (Inactive m.configuration (sel.exitSet ∩ m.configuration)) ∧
        ∀ f ∈ m.configuration, f ≠ [] → f.parent = [] → (resortStates D).tag? f ≠ some .final := by
  rw [emitted, ChartToC.resortStates_eq] at hσ
  change FastMicroStep.Selected (FastMicroStep.tables (resortStates D)) m.configuration sel at hsel
  change (∀ p ∈ (resortStates D).states, (σ (.stateNext p) = true ↔ p ∈ FastMicroStep.nextConfiguration
    (FastMicroStep.tables (resortStates D)) sel.targetSet (sel.exitSet ∩ m.configuration) sel.transSet m.configuration
    (FastMicroStep.rememberHistory (FastMicroStep.tables (resortStates D)) m.configuration
      (sel.exitSet ∩ m.configuration) m.history))) ↔ _
  generalize resortStates D = d at *
  obtain ⟨E, hE, hmem, hstates, hnext⟩ := exists_entrySet (H := FastMicroStep.rememberHistory (FastMicroStep.tables d)
    m.configuration (sel.exitSet ∩ m.configuration) m.history) hd hC hsel
  have hroot := root_active hC hsel
  have hfresh := (FastMicroStep.situation_of_selected hd.defaultChart (filled_of_legal hC) hsel).inactive_below
  have hexplicit := fun s => target_inactive hd hsel (s := s)
  have hchild := fun p hp => hd.defaultTargets_child (p := p) hp
  have hX := fun p => mem_exitSet_inter hsel (p := p)
  have hS : ∀ t ∈ sel.transSet, t ∈ FastMicroStep.postFixTransitions d := fun t ht => (hsel.active t ht).1
  rw [← completed_iff_mem hchild hfresh hexplicit hE hmem hroot (fun q c hq hc => region_inactive hd hC hsel hq hc)
    hd.toGrammar.toNesting fun e he => hd.proper (hstates e he)]
  have hcomplete := fun p (hp : p ∈ d.states) =>
    inCompleteEntrySet_signal hin hσ hS hX hd htarget hfresh hexplicit hroot hp
  have hstate : ∀ p ∈ d.states, p ≠ [] → (σ (.stateNext p) = true ↔ _) := fun p hp hne =>
    (stateNext_signal hin hσ hS hX hp hne).trans (or_congr_left (hcomplete p hp))
  have hfinal := stateNext_root hin hσ
  constructor
  · intro h
    refine ⟨fun p hf => ?_, ?_⟩
    · by_cases hp : p ∈ d.states
      · have hne : p ≠ [] := by
          rintro rfl
          exact hroot hf
        have hp' := ((hstate p hp hne).symm.trans (h p hp)).trans (hnext p)
        rwa [or_iff_left (not_not_intro hf), or_iff_right (not_not_intro hf)] at hp'
      · refine iff_of_false (fun hc => hp ?_) fun hpE => hp (hstates p hpE)
        exact hc.mem_states hchild fun t ht => hstates t (hmem t ht)
    · have htrue := (h [] d.root_mem_states).mpr ((hnext []).mpr (Or.inl hroot))
      intro f hf hne hpar htag
      exact hfinal.mp htrue ⟨f, hf, hne, hpar, htag⟩
  · rintro ⟨h, hnone⟩ p hp
    rw [hnext]
    by_cases hne : p = []
    · subst hne
      refine iff_of_true (hfinal.mpr ?_) (Or.inl hroot)
      rintro ⟨f, hf, hne, hpar, htag⟩
      exact hnone f hf hne hpar htag
    · rw [hstate p hp hne]
      by_cases hf : Inactive m.configuration (sel.exitSet ∩ m.configuration) p
      · rw [or_iff_left (not_not_intro hf), or_iff_right (not_not_intro hf)]
        exact h p hf
      · exact iff_of_true (Or.inr hf) (Or.inl hf)

/-- From the state `a` an event leads to a parallel, whose first region starts in its second state. -/
def toParallel : Document Unit where
  tree :=
    { root := { tag := .scxml }
      kids :=
        .cons { tag := .state, id := some "a", transitions := [{ target := some ["p"], event := some "e" }] } .nil
          (.cons { tag := .parallel, id := some "p" }
            (.cons { tag := .state, id := some "r1", initial := some ["y"] }
              (.cons { tag := .state, id := some "x" } .nil (.cons { tag := .state, id := some "y" } .nil .nil))
              (.cons { tag := .state, id := some "r2" } (.cons { tag := .state, id := some "z" } .nil .nil) .nil))
            .nil) }

theorem toParallel_plainChart : (resortStates toParallel).PlainChart where
  rootTag := by decide +kernel
  nested := by decide +kernel
  finalAttr := by decide +kernel
  child := by decide +kernel
  initialTransition := by decide +kernel
  histories := by decide +kernel
  initials := by decide +kernel
  uniqueIds := by unfold UniqueIds; decide +kernel
  escapedIds := by
    have h : ∀ p ∈ (resortStates toParallel).states, ∀ i ∈ (resortStates toParallel).id? p, ChartToC.escape i = i := by
      decide +kernel
    exact fun p hp i hi => h p hp i hi
  transitionSources := by decide +kernel
  transitionTargets := by decide +kernel
  initialAttr := by
    intro p hp _ ids hids
    have h : ∀ p ∈ (resortStates toParallel).states,
        ((resortStates toParallel).elem? p).bind (·.initial) = none ∨
          p = [1, 0] ∧ ((resortStates toParallel).elem? p).bind (·.initial) = some ["y"] := by decide +kernel
    rcases h p hp with h | ⟨rfl, h⟩
    · rw [h] at hids
      cases hids
    · rw [h] at hids
      cases hids
      exact ⟨"y", [1, 0, 1], rfl, by decide, by decide +kernel, by decide +kernel⟩

def toParallelSignals : Signal → Bool
  | .stateActive p => p ∈ ({[], [0]} : Finset TreePath)
  | .inOptimalTransitionSet t => t = ([0], 0)
  | .inExitSet p => p = [0]
  | .inCompleteEntrySetUp p => p = [1]
  | .inCompleteEntrySet p | .inEntrySet p => p ∈ ([[1], [1, 0], [1, 0, 1], [1, 1], [1, 1, 0]] : List TreePath)
  | .stateNext p => p ∈ ([[], [1], [1, 0], [1, 0, 1], [1, 1], [1, 1, 0]] : List TreePath)
  | .completed => false

/-- The transition for the event `e` out of the first state of a chart. -/
def selectedFor (D : Document Unit) : FastMicroStep.Selection (List Event) :=
  FastMicroStep.selectTransitions (FastMicroStep.init D) FastMicroStep.externalEvents {[], [0]} { name := "e" } []

/-- The transition to the parallel: both sides enter the regions with their default children. -/
theorem next_states_exact_toParallel :
    (∀ p ∈ (resortStates toParallel).states, (toParallelSignals (.stateNext p) = true ↔
        p ∈ ((selectedFor toParallel).microstep (FastMicroStep.init toParallel) { configuration := {[], [0]} }).next
          (FastMicroStep.init toParallel))) ∧
      ((selectedFor toParallel).microstep (FastMicroStep.init toParallel) { configuration := {[], [0]} }).next
        (FastMicroStep.init toParallel) = {[], [1], [1, 0], [1, 0, 1], [1, 1], [1, 1, 0]} := by
  have hsel : FastMicroStep.Selected (FastMicroStep.init toParallel) {[], [0]} (selectedFor toParallel) :=
    FastMicroStep.selectTransitions_selected _ _ _ _ _
  have htrans : (selectedFor toParallel).transSet = {([0], 0)} := by decide +kernel
  have hactive : ¬ Inactive {[], [0]} ((selectedFor toParallel).exitSet ∩ {[], [0]}) [] := by
    rw [Inactive, not_or]
    decide +kernel
  have hsat : Satisfies toParallelSignals (emitted toParallel fun _ _ => false) := by
    unfold Satisfies
    decide +kernel
  refine ⟨?_, by decide +kernel⟩
  refine (next_states_exact_iff (m := { configuration := {[], [0]} }) toParallel_plainChart
    (by decide +kernel) hsel ?_ ?_ hsat).mpr ⟨?_, by decide +kernel⟩
  · rw [htrans]
    decide +kernel
  · refine ⟨fun p => by simp [toParallelSignals], fun t => ?_, rfl⟩
    rw [htrans]
    simp [toParallelSignals]
  · have htarget : ∀ s, (∃ t ∈ (selectedFor toParallel).transSet, s ∈ (resortStates toParallel).getTargetStates t) ↔ s = [1] := by
      have hlist : (resortStates toParallel).getTargetStates ([0], 0) = [[1]] := by decide +kernel
      intro s
      rw [htrans]
      simp [hlist]
    refine ⟨?_, ?_⟩
    · intro t ht c hc hf
      obtain rfl := (htarget t).mp ht
      rcases TreePath.below_or_eq_of_prefix hc with rfl | hb
      · exact Or.inl ht
      · obtain rfl : c = [] := List.prefix_nil.mp (TreePath.prefix_parent_of_below hb)
        exact absurd hf hactive
    · intro t ht p hb hf
      obtain rfl := (htarget t).mp ht
      obtain rfl : p = [] := List.prefix_nil.mp (TreePath.prefix_parent_of_below hb)
      exact absurd hf hactive

def toGrandchild : Document Unit where
  tree :=
    { root := { tag := .scxml }
      kids :=
        .cons { tag := .state, id := some "a", transitions := [{ target := some ["b1"], event := some "e" }] } .nil
          (.cons { tag := .state, id := some "b" } (.cons { tag := .state, id := some "b1" } .nil .nil) .nil) }

def toGrandchildSignals : Signal → Bool
  | .stateActive p => p ∈ ({[], [0]} : Finset TreePath)
  | .inOptimalTransitionSet t => t = ([0], 0)
  | .inExitSet p => p = [0]
  | .inCompleteEntrySetUp p | .inCompleteEntrySet p | .inEntrySet p => p = [1, 0]
  | .stateNext p => p ∈ ([[], [1, 0]] : List TreePath)
  | .completed => false

/-- The target becomes active and the state above it does not. -/
theorem parent_of_target_lost :
    (resortStates toGrandchild).Legal {[], [0]} ∧ (selectedFor toGrandchild).transSet = {([0], 0)} ∧
      Inputs {[], [0]} (selectedFor toGrandchild).transSet toGrandchildSignals ∧
      Satisfies toGrandchildSignals (emitted toGrandchild fun _ _ => false) ∧
      ((selectedFor toGrandchild).microstep (FastMicroStep.init toGrandchild) { configuration := {[], [0]} }).next
        (FastMicroStep.init toGrandchild) = {[], [1], [1, 0]} ∧
      ¬ ∀ p ∈ (resortStates toGrandchild).states, (toGrandchildSignals (.stateNext p) = true ↔
        p ∈ ((selectedFor toGrandchild).microstep (FastMicroStep.init toGrandchild) { configuration := {[], [0]} }).next
          (FastMicroStep.init toGrandchild)) := by
  have htrans : (selectedFor toGrandchild).transSet = {([0], 0)} := by decide +kernel
  refine ⟨by decide +kernel, htrans, ?_, by unfold Satisfies; decide +kernel, by decide +kernel, by decide +kernel⟩
  refine ⟨fun p => by simp [toGrandchildSignals], fun t => ?_, rfl⟩
  rw [htrans]
  simp [toGrandchildSignals]

end ChartToVHDL

end Uscxml
