import Uscxml.Legal

/-!
# Entry sets that complete a configuration

A microstep leaves the active states of a region and enters states of the same region. While the entry set
grows, from the targets and their ancestors on, it keeps to the region, is closed under ancestors and never
holds two children of a state that is not parallel. When every member below the border has got its children,
the states that stayed and the entry set make a legal configuration. Nothing here depends on which
implementation walks over the entry set.
-/

namespace Uscxml

variable {β : Type}

namespace Document

/-- The states a microstep may touch. `C` is the configuration before it, `X` its exit set, and `N` the
region: the states below the domain of a transition, or all states at the start of a run. -/
structure Region (d : Document β) (C X targets : Finset TreePath) (N : TreePath → Prop) : Prop where
  legal : C.Nonempty → d.Legal C
  exit : ∀ x, x ∈ X ↔ x ∈ C ∧ N x
  below : ∀ x y, N x → y.Below x → N y
  root : [] ∈ C ∧ ¬ N [] ∨ targets.Nonempty
  border : ∀ x, N x → x ≠ [] → ¬ N x.parent →
    x.parent ∈ C ∧ d.tag? x.parent ≠ some .parallel ∧ (∃ t ∈ targets, t.Below x.parent) ∧
      ∀ y : TreePath, y ≠ [] → y.parent = x.parent → N y
  target : ∀ t ∈ targets, N t ∧ (d.ProperState t ∨ d.tag? t = some .initial ∧ t = [0] ∧ N [])
  single : ∀ t ∈ targets, ∀ t' ∈ targets, ∀ c c' : TreePath, c <+: t → c' <+: t' → c ≠ [] → c' ≠ [] →
    c.parent = c'.parent → d.tag? c.parent ≠ some .parallel → N c → N c' → c = c'

/-- Something below `x` is in the entry set. -/
def HasBelow (E : Finset TreePath) (x : TreePath) : Prop := ∃ e ∈ E, e.Below x

instance (E : Finset TreePath) (x : TreePath) : Decidable (HasBelow E x) := inferInstanceAs (Decidable (∃ e ∈ E, _))

/-- What holds of the entry set while it grows. -/
structure Entering (d : Document β) (C targets : Finset TreePath) (N : TreePath → Prop) (E : Finset TreePath) : Prop where
  kind : ∀ e ∈ E, e = [] ∨ d.ProperState e ∨ d.tag? e = some .initial
  region : ∀ e ∈ E, N e ∨ e ∈ C
  closed : ∀ e ∈ E, ∀ a, e.Below a → a ∈ E
  single : ∀ c ∈ E, ∀ c' ∈ E, c ≠ [] → c' ≠ [] → c.parent = c'.parent → d.tag? c.parent ≠ some .parallel →
    N c → N c' → c = c'
  initial : ∀ e ∈ E, d.tag? e = some .initial →
    N e.parent ∧ d.tag? e.parent ≠ some .parallel ∧ e = e.parent ++ [0]
  reach : ∀ x, HasBelow targets x → HasBelow E x

/-- The children a member of the entry set needs are there. -/
structure Settled (d : Document β) (E : Finset TreePath) (j : TreePath) : Prop where
  compound : d.isCompound j = true → HasBelow E j
  parallel : d.isParallel j = true → ∀ c, d.ProperChild j c → c ∈ E
  proper : d.tag? j ≠ some .initial

/-- How the entry set may change when `i` is treated. -/
structure Advances (d : Document β) (i : TreePath) (E E' : Finset TreePath) : Prop where
  keep : ∀ e ∈ E, d.tag? e ≠ some .initial → e ∈ E'
  below : ∀ x, HasBelow E x → HasBelow E' x
  ahead : ∀ e ∈ E', e ∉ E → i < e

/-- A round of the pass over the entry set that treats `i`. -/
structure Treats (d : Document β) (C targets : Finset TreePath) (N : TreePath → Prop) (i : TreePath) (E E' : Finset TreePath) :
    Prop where
  entering : d.Entering C targets N E'
  advances : d.Advances i E E'
  settled : i ∈ E' → N i → d.Settled E' i

variable {d : Document β} {C X targets : Finset TreePath} {N : TreePath → Prop} {E : Finset TreePath}

theorem Advances.refl (i : TreePath) (E : Finset TreePath) : d.Advances i E E where
  keep _ h _ := h
  below _ h := h
  ahead _ h h' := absurd h h'

theorem Advances.of_subset {i : TreePath} {E E' : Finset TreePath} (h : E ⊆ E') (ha : ∀ e ∈ E', e ∉ E → i < e) :
    d.Advances i E E' where
  keep _ he _ := h he
  below _ := fun ⟨e, he, hb⟩ => ⟨e, h he, hb⟩
  ahead := ha

theorem Settled.advance {i j : TreePath} {E E' : Finset TreePath} (h : d.Settled E j) (ha : d.Advances i E E') :
    d.Settled E' j where
  compound hj := ha.below j (h.compound hj)
  parallel hj c hc := by
    refine ha.keep c (h.parallel hj c hc) ?_
    rcases properState_iff.mp hc.2.2 with ht | ht | ht <;> simp [ht]
  proper := h.proper

theorem ProperState.tag_ne_initial {p : TreePath} (h : d.ProperState p) : d.tag? p ≠ some .initial := by
  rcases properState_iff.mp h with h | h | h <;> simp [h]

/-! ### The ancestors of the targets -/

namespace Region

variable (hr : d.Region C X targets N)

include hr

/-- Above a state of the region there are states of the region and active states. -/
theorem above {x a : TreePath} (hx : N x) (ha : x.Below a) : N a ∨ a ∈ C := by
  induction hn : x.length using Nat.strong_induction_on generalizing x with
  | _ n ih =>
    have hne : x ≠ [] := by
      rintro rfl
      exact TreePath.not_nil_below a ha
    have hlt := (TreePath.below_parent hne).length_lt
    by_cases hpar : N x.parent
    · rcases TreePath.below_or_eq_of_prefix (TreePath.prefix_parent_of_below ha) with heq | hb
      · exact Or.inl (heq ▸ hpar)
      · exact ih _ (hn ▸ hlt) hpar hb rfl
    · have hC := (hr.border x hx hne hpar).1
      rcases TreePath.below_or_eq_of_prefix (TreePath.prefix_parent_of_below ha) with heq | hb
      · exact Or.inr (heq ▸ hC)
      · exact Or.inr ((hr.legal ⟨_, hC⟩).ancestor _ hC _ hb)

/-- Above a member of the region that lies below a state outside of it there is a target. -/
theorem target_below {x i : TreePath} (hx : N x) (hb : x.Below i) (hi : ¬ N i) : HasBelow targets i := by
  induction hn : x.length using Nat.strong_induction_on generalizing x with
  | _ n ih =>
    have hne : x ≠ [] := by
      rintro rfl
      exact TreePath.not_nil_below i hb
    have hpre := TreePath.prefix_parent_of_below hb
    by_cases hpar : N x.parent
    · rcases TreePath.below_or_eq_of_prefix hpre with heq | hb'
      · exact absurd (heq ▸ hpar) hi
      · exact ih _ (hn ▸ (TreePath.below_parent hne).length_lt) hpar hb' rfl
    · obtain ⟨t, ht, htb⟩ := (hr.border x hx hne hpar).2.2.1
      exact ⟨t, ht, htb.trans_above hpre⟩

theorem entering_start (hg : d.Grammar) (hE : ∀ e, e ∈ E ↔ ∃ t ∈ targets, e <+: t) :
    d.Entering C targets N E := by
  have hstate : ∀ t ∈ targets, t ∈ d.states := by
    intro t ht
    rcases (hr.target t ht).2 with h | h
    · exact h.mem_states
    · exact mem_states_of_tag h.1
  refine ⟨?_, ?_, ?_, ?_, ?_, ?_⟩
  · intro e he
    obtain ⟨t, ht, het⟩ := (hE e).mp he
    rcases TreePath.below_or_eq_of_prefix het with rfl | hb
    · rcases (hr.target t ht).2 with h | h
      · exact Or.inr (Or.inl h)
      · exact Or.inr (Or.inr h.1)
    · rcases hg.proper_of_below (hstate t ht) hb with h | h
      · exact Or.inl h
      · exact Or.inr (Or.inl h)
  · intro e he
    obtain ⟨t, ht, het⟩ := (hE e).mp he
    rcases TreePath.below_or_eq_of_prefix het with rfl | hb
    · exact Or.inl (hr.target t ht).1
    · exact hr.above (hr.target t ht).1 hb
  · intro e he a ha
    obtain ⟨t, ht, het⟩ := (hE e).mp he
    exact (hE a).mpr ⟨t, ht, ha.1.trans het⟩
  · intro c hc c' hc'
    obtain ⟨t, ht, hct⟩ := (hE c).mp hc
    obtain ⟨t', ht', hct'⟩ := (hE c').mp hc'
    exact hr.single t ht t' ht' c c' hct hct'
  · intro e he htag
    obtain ⟨t, ht, het⟩ := (hE e).mp he
    rcases TreePath.below_or_eq_of_prefix het with rfl | hb
    · rcases (hr.target t ht).2 with h | ⟨-, rfl, hN⟩
      · exact absurd htag h.tag_ne_initial
      · exact ⟨hN, by simp [TreePath.parent, (hg.root []).mpr rfl], rfl⟩
    · rcases hg.tag_of_below (hstate t ht) hb with h | h | h <;> simp [h] at htag
  · rintro x ⟨t, ht, hb⟩
    exact ⟨t, (hE t).mpr ⟨t, ht, List.prefix_refl t⟩, hb⟩

end Region

/-! ### The ways the entry set grows -/

namespace Entering

theorem mem_states (hE : d.Entering C targets N E) : ∀ e ∈ E, e ∈ d.states := by
  intro e he
  rcases hE.kind e he with rfl | h | h
  · exact d.root_mem_states
  · exact h.mem_states
  · exact mem_states_of_tag h

/-- Below a member without children in the entry set there is nothing of the entry set. -/
theorem hasBelow_iff_child (hE : d.Entering C targets N E) {x : TreePath} :
    HasBelow E x ↔ ∃ c ∈ E, c ≠ [] ∧ c.parent = x := by
  constructor
  · rintro ⟨e, he, hb⟩
    obtain ⟨k, hk⟩ := TreePath.exists_child_of_below hb
    refine ⟨x ++ [k], ?_, by simp, TreePath.parent_concat x k⟩
    rcases TreePath.below_or_eq_of_prefix hk with rfl | hb
    · exact he
    · exact hE.closed e he _ hb
  · rintro ⟨c, hc, hne, rfl⟩
    exact ⟨c, hc, TreePath.below_parent hne⟩

theorem parallel (hr : d.Region C X targets N) (hE : d.Entering C targets N E) {i : TreePath} (hi : i ∈ E)
    (hp : d.isParallel i = true) {F : Finset TreePath} (hF : ∀ c, c ∈ F ↔ d.ProperChild i c) :
    d.Entering C targets N (E ∪ F) := by
  have hold : ∀ c ∈ E ∪ F, d.tag? c.parent ≠ some .parallel → c ∈ E := by
    intro c hc hpar
    rcases Finset.mem_union.mp hc with hc | hc
    · exact hc
    · exact absurd (isParallel_iff.mp hp) (((hF c).mp hc).2.1 ▸ hpar)
  refine ⟨?_, ?_, ?_, ?_, ?_, ?_⟩
  · intro e he
    rcases Finset.mem_union.mp he with he | he
    · exact hE.kind e he
    · exact Or.inr (Or.inl ((hF e).mp he).2.2)
  · intro e he
    rcases Finset.mem_union.mp he with he | he
    · exact hE.region e he
    · have hchild := (hF e).mp he
      rcases hE.region i hi with hN | hC
      · exact Or.inl (hr.below i e hN hchild.below)
      · exact Or.inr ((hr.legal ⟨i, hC⟩).parallel i hC hp e hchild)
  · intro e he a ha
    rcases Finset.mem_union.mp he with he | he
    · exact Finset.mem_union_left _ (hE.closed e he a ha)
    · have hchild := (hF e).mp he
      have hpre := TreePath.prefix_parent_of_below ha
      rw [hchild.2.1] at hpre
      refine Finset.mem_union_left _ ?_
      rcases TreePath.below_or_eq_of_prefix hpre with rfl | hb
      · exact hi
      · exact hE.closed i hi a hb
  · intro c hc c' hc' hne hne' hpar hnp
    exact hE.single c (hold c hc hnp) c' (hold c' hc' (hpar ▸ hnp)) hne hne' hpar hnp
  · intro e he htag
    rcases Finset.mem_union.mp he with he | he
    · exact hE.initial e he htag
    · exact absurd htag ((hF e).mp he).2.2.tag_ne_initial
  · intro x hx
    obtain ⟨e, he, hb⟩ := hE.reach x hx
    exact ⟨e, Finset.mem_union_left _ he, hb⟩

/-- A state of the region without children in the entry set gets one child. -/
theorem complete (hr : d.Region C X targets N) (hE : d.Entering C targets N E) {i c : TreePath} (hi : i ∈ E)
    (hN : N i) (hnp : d.tag? i ≠ some .parallel) (hnone : ¬ HasBelow E i) (hne : c ≠ []) (hpar : c.parent = i)
    (hc : d.ProperState c ∨ d.tag? c = some .initial ∧ c = i ++ [0]) :
    d.Entering C targets N (insert c E) := by
  have hbelow := TreePath.below_of_parent_eq hne hpar
  have hother : ∀ e ∈ E, e ≠ [] → e.parent ≠ i :=
    fun e he hne' heq => hnone ⟨e, he, TreePath.below_of_parent_eq hne' heq⟩
  refine ⟨?_, ?_, ?_, ?_, ?_, ?_⟩
  · intro e he
    rcases Finset.mem_insert.mp he with rfl | he
    · exact Or.inr (hc.imp id fun h => h.1)
    · exact hE.kind e he
  · intro e he
    rcases Finset.mem_insert.mp he with rfl | he
    · exact Or.inl (hr.below i e hN hbelow)
    · exact hE.region e he
  · intro e he a ha
    refine Finset.mem_insert_of_mem ?_
    rcases Finset.mem_insert.mp he with rfl | he
    · have hpre := TreePath.prefix_parent_of_below ha
      rw [hpar] at hpre
      rcases TreePath.below_or_eq_of_prefix hpre with rfl | hb
      · exact hi
      · exact hE.closed i hi a hb
    · exact hE.closed e he a ha
  · intro e he e' he' hne₁ hne₂ hpar' hnp'
    rcases Finset.mem_insert.mp he with rfl | hmem <;> rcases Finset.mem_insert.mp he' with rfl | hmem'
    · exact fun _ _ => rfl
    · exact absurd (hpar'.symm.trans hpar) (hother e' hmem' hne₂)
    · exact absurd (hpar'.trans hpar) (hother e hmem hne₁)
    · exact hE.single e hmem e' hmem' hne₁ hne₂ hpar' hnp'
  · intro e he htag
    rcases Finset.mem_insert.mp he with rfl | he
    · rcases hc with h | h
      · exact absurd htag h.tag_ne_initial
      · rw [hpar]
        exact ⟨hN, hnp, h.2⟩
    · exact hE.initial e he htag
  · intro x hx
    obtain ⟨e, he, hb⟩ := hE.reach x hx
    exact ⟨e, Finset.mem_insert_of_mem he, hb⟩

/-- An `<initial>` gives way to the targets of its transition and their ancestors. -/
theorem expand (hg : d.Grammar) (hr : d.Region C X targets N) (hE : d.Entering C targets N E) {i : TreePath}
    (hi : i ∈ E) (htag : d.tag? i = some .initial) {l : List TreePath} (hl : d.Compatible l) (hlne : l ≠ [])
    (hbelow : ∀ s ∈ l, s.Below i.parent) {E' : Finset TreePath}
    (hE' : ∀ e, e ∈ E' ↔ e ∈ E ∧ e ≠ i ∨ ∃ s ∈ l, e <+: s) :
    d.Treats C targets N i E E' := by
  obtain ⟨hN, hnp, hfirst⟩ := hE.initial i hi htag
  have hine : i ≠ [] := by
    rintro rfl
    simp at hfirst
  have hip : i.Below i.parent := TreePath.below_parent hine
  have hileaf : ∀ x ∈ d.states, ¬ i <+: x ∨ x = i := by
    intro x hx
    by_cases hix : i <+: x
    · rcases TreePath.below_or_eq_of_prefix hix with h | h
      · exact Or.inr h
      · rcases hg.tag_of_below hx h with h | h | h <;> simp [h] at htag
    · exact Or.inl hix
  have hleaf : ∀ s ∈ l, ¬ i <+: s := by
    intro s hs
    rcases hileaf s (hl.1 s hs).mem_states with h | rfl
    · exact h
    · exact absurd htag (hl.1 s hs).tag_ne_initial
  -- The prefixes of the targets above the parent of `i` were there before; the others lie in the region.
  have hnew : ∀ {e s : TreePath}, s ∈ l → e <+: s → e ∈ E ∧ e ≠ i ∧ ¬ e.Below i.parent ∨ e.Below i.parent := by
    intro e s hs he
    rcases TreePath.comparable he (hbelow s hs).1 with heq | h | h
    · refine Or.inl ⟨heq ▸ hE.closed i hi _ hip, ?_, heq ▸ TreePath.not_below_self _⟩
      rintro rfl
      exact hleaf s hs he
    · exact Or.inr h
    · refine Or.inl ⟨hE.closed i hi _ (hip.trans h), ?_, h.asymm⟩
      rintro rfl
      exact hleaf s hs he
  -- Below the parent of `i` the entry set held only `i`.
  have honly : ∀ e ∈ E, e.Below i.parent → e = i := by
    intro e he hb
    obtain ⟨k, hk⟩ := TreePath.exists_child_of_below hb
    have hmem : i.parent ++ [k] ∈ E := by
      rcases TreePath.below_or_eq_of_prefix hk with heq | hb
      · exact heq ▸ he
      · exact hE.closed e he _ hb
    have heq := hE.single _ hmem i hi (by simp) hine (TreePath.parent_concat _ _)
      (by rw [TreePath.parent_concat]; exact hnp) (hr.below _ _ hN (TreePath.below_of_parent_eq (by simp)
      (TreePath.parent_concat _ _))) (hr.below _ _ hN hip)
    rw [heq] at hk
    rcases hileaf e (hE.mem_states e he) with h | h
    · exact absurd hk h
    · exact h
  have hadv : d.Advances i E E' := by
    refine ⟨?_, ?_, ?_⟩
    · intro e he hne
      refine (hE' e).mpr (Or.inl ⟨he, ?_⟩)
      rintro rfl
      exact hne htag
    · rintro x ⟨e, he, hb⟩
      by_cases hei : e = i
      · obtain ⟨s, hs⟩ := List.exists_mem_of_ne_nil l hlne
        have hpre := TreePath.prefix_parent_of_below (hei ▸ hb)
        exact ⟨s, (hE' s).mpr (Or.inr ⟨s, hs, List.prefix_refl s⟩), (hbelow s hs).trans_above hpre⟩
      · exact ⟨e, (hE' e).mpr (Or.inl ⟨he, hei⟩), hb⟩
    · intro e he hnot
      rcases (hE' e).mp he with h | ⟨s, hs, hes⟩
      · exact absurd h.1 hnot
      · rcases hnew hs hes with h | h
        · exact absurd h.1 hnot
        · rw [hfirst]
          exact TreePath.first_child_lt h fun hp => hleaf s hs (hfirst ▸ hp.trans hes)
  refine ⟨⟨?_, ?_, ?_, ?_, ?_, ?_⟩, hadv, fun hmem => absurd hmem ?_⟩
  · intro e he
    rcases (hE' e).mp he with h | ⟨s, hs, hes⟩
    · exact hE.kind e h.1
    · rcases TreePath.below_or_eq_of_prefix hes with rfl | hb
      · exact Or.inr (Or.inl (hl.1 _ hs))
      · rcases hg.proper_of_below (hl.1 s hs).mem_states hb with h | h
        · exact Or.inl h
        · exact Or.inr (Or.inl h)
  · intro e he
    rcases (hE' e).mp he with h | ⟨s, hs, hes⟩
    · exact hE.region e h.1
    · rcases hnew hs hes with h | h
      · exact hE.region e h.1
      · exact Or.inl (hr.below _ _ hN h)
  · intro e he a ha
    rcases (hE' e).mp he with h | ⟨s, hs, hes⟩
    · refine (hE' a).mpr (Or.inl ⟨hE.closed e h.1 a ha, ?_⟩)
      rintro rfl
      rcases hileaf e (hE.mem_states e h.1) with h' | h'
      · exact h' ha.1
      · exact h.2 h'
    · exact (hE' a).mpr (Or.inr ⟨s, hs, ha.1.trans hes⟩)
  · intro c hc c' hc' hne hne' hpar hpnp hNc hNc'
    -- Both children lie below the parent of `i`, or neither does.
    have hsplit : ∀ {e : TreePath}, e ∈ E' → (e ∈ E ∧ ¬ e.Below i.parent) ∨ e.Below i.parent ∧ ∃ s ∈ l, e <+: s := by
      intro e he
      rcases (hE' e).mp he with h | ⟨s, hs, hes⟩
      · exact Or.inl ⟨h.1, fun hb => h.2 (honly e h.1 hb)⟩
      · rcases hnew hs hes with h | h
        · exact Or.inl ⟨h.1, h.2.2⟩
        · exact Or.inr ⟨h, s, hs, hes⟩
    have hsib : ∀ {e e' : TreePath}, e ≠ [] → e' ≠ [] → e.parent = e'.parent → e.Below i.parent → e'.Below i.parent := by
      intro e e' _ hne' hpar hb
      have hpre := TreePath.prefix_parent_of_below hb
      rw [hpar] at hpre
      exact (TreePath.below_parent hne').trans_above hpre
    rcases hsplit hc with h | ⟨h, s, hs, hcs⟩ <;> rcases hsplit hc' with h' | ⟨h', s', hs', hcs'⟩
    · exact hE.single c h.1 c' h'.1 hne hne' hpar hpnp hNc hNc'
    · exact absurd (hsib hne' hne hpar.symm h') h.2
    · exact absurd (hsib hne hne' hpar h) h'.2
    · exact hl.child_unique hg hs hs' hcs hcs' hne hne' hpar hpnp
  · intro e he htag'
    rcases (hE' e).mp he with h | ⟨s, hs, hes⟩
    · exact hE.initial e h.1 htag'
    · rcases TreePath.below_or_eq_of_prefix hes with rfl | hb
      · exact absurd htag' (hl.1 _ hs).tag_ne_initial
      · rcases hg.tag_of_below (hl.1 s hs).mem_states hb with h | h | h <;> simp [h] at htag'
  · intro x hx
    exact hadv.below x (hE.reach x hx)
  · intro hmem
    rcases (hE' i).mp hmem with h | ⟨s, hs, his⟩
    · exact h.2 rfl
    · exact hleaf s hs his

end Entering

/-! ### The configuration after the microstep -/

/-- The states that stayed and an entry set whose members in the region are settled make a legal
configuration. -/
theorem Region.legal_next (hg : d.Grammar) (hr : d.Region C X targets N) (hE : d.Entering C targets N E)
    (hsettled : ∀ e ∈ E, N e → d.Settled E e) {C' : Finset TreePath}
    (hC' : ∀ p, p ∈ C' ↔ p ∈ C ∧ p ∉ X ∨ p ∈ E ∧ d.tag? p ≠ some .initial) : d.Legal C' := by
  have hkept : ∀ p, p ∈ C ∧ p ∉ X ↔ p ∈ C ∧ ¬ N p := by
    intro p
    rw [hr.exit]
    constructor
    · exact fun h => ⟨h.1, fun hN => h.2 ⟨h.1, hN⟩⟩
    · exact fun h => ⟨h.1, fun hX => h.2 hX.2⟩
  have hinE : ∀ p ∈ C', N p → p ∈ E := by
    intro p hp hN
    rcases (hC' p).mp hp with h | h
    · exact absurd hN ((hkept p).mp h).2
    · exact h.1
  have hinC : ∀ p ∈ C', ¬ N p → p ∈ C := by
    intro p hp hN
    rcases (hC' p).mp hp with h | h
    · exact h.1
    · exact (hE.region p h.1).resolve_left hN
  -- A member of the region in the entry set is in the new configuration.
  have hmem : ∀ e ∈ E, N e → e ∈ C' := fun e he hN => (hC' e).mpr (Or.inr ⟨he, (hsettled e he hN).proper⟩)
  have hchildren : ∀ p, (p = [] ∨ d.isCompound p = true) → HasBelow E p → (∀ y : TreePath, y ≠ [] → y.parent = p → N y) →
      ∃! c, c ∈ C' ∧ d.ProperChild p c := by
    intro p hp hbelow hN
    have hnp : d.tag? p ≠ some .parallel := by
      rcases hp with rfl | hp
      · simp [(hg.root []).mpr rfl]
      · rcases (hg.isCompound_iff.mp hp).1 with h | h <;> simp [h]
    obtain ⟨c, hc, hne, hpar⟩ := hE.hasBelow_iff_child.mp hbelow
    have hNc := hN c hne hpar
    have hproper : d.ProperState c := by
      rcases hE.kind c hc with h | h | h
      · exact absurd h hne
      · exact h
      · exact absurd h (hsettled c hc hNc).proper
    refine ⟨c, ⟨hmem c hc hNc, hne, hpar, hproper⟩, ?_⟩
    rintro c' ⟨hc', hne', hpar', -⟩
    have hNc' := hN c' hne' hpar'
    exact hE.single c' (hinE c' hc' hNc') c hc hne' hne (hpar'.trans hpar.symm) (hpar' ▸ hnp) hNc' hNc
  refine ⟨?_, ?_, ?_, ?_, ?_⟩
  · rcases hr.root with h | ⟨t, ht⟩
    · exact (hC' []).mpr (Or.inl ((hkept []).mpr h))
    · have htne : t ≠ [] := by
        rcases (hr.target t ht).2 with h | h
        · exact hg.properState_ne_nil h
        · rw [h.2.1]
          simp
      obtain ⟨e, he, hb⟩ := hE.reach [] ⟨t, ht, TreePath.below_nil.mpr htne⟩
      exact (hC' []).mpr (Or.inr ⟨hE.closed e he [] hb, by simp [(hg.root []).mpr rfl]⟩)
  · intro p hp hne
    rcases (hC' p).mp hp with h | h
    · exact (hr.legal ⟨p, h.1⟩).proper p h.1 hne
    · rcases hE.kind p h.1 with h' | h' | h'
      · exact absurd h' hne
      · exact h'
      · exact absurd h' h.2
  · intro p hp a ha
    rcases (hC' p).mp hp with h | h
    · refine (hC' a).mpr (Or.inl ((hkept a).mpr ⟨(hr.legal ⟨p, h.1⟩).ancestor p h.1 a ha, fun hN => ?_⟩))
      exact ((hkept p).mp h).2 (hr.below a p hN ha)
    · refine (hC' a).mpr (Or.inr ⟨hE.closed p h.1 a ha, ?_⟩)
      rcases hg.tag_of_below (hE.mem_states p h.1) ha with h' | h' | h' <;> simp [h']
  · intro p hp hcomp
    by_cases hN : N p
    · have hpE := hinE p hp hN
      have hcomp' : d.isCompound p = true := by
        rcases hcomp with rfl | h
        · exact hg.isCompound_root
        · exact h
      exact hchildren p hcomp ((hsettled p hpE hN).compound hcomp')
        (fun y hne hpar => hr.below p y hN (TreePath.below_of_parent_eq hne hpar))
    · have hpC := hinC p hp hN
      have hlegal := hr.legal ⟨p, hpC⟩
      obtain ⟨c₀, ⟨hc₀, hchild₀⟩, huniq⟩ := hlegal.compound p hpC hcomp
      by_cases hN₀ : N c₀
      · -- The domain of a transition: all its children lie in the region and one of them is entered.
        have hborder := hr.border c₀ hN₀ hchild₀.1 (by rw [hchild₀.2.1]; exact hN)
        rw [hchild₀.2.1] at hborder
        exact hchildren p hcomp (hE.reach p hborder.2.2.1) hborder.2.2.2
      · refine ⟨c₀, ⟨(hC' c₀).mpr (Or.inl ((hkept c₀).mpr ⟨hc₀, hN₀⟩)), hchild₀⟩, ?_⟩
        rintro c ⟨hc, hchild⟩
        have hNc : ¬ N c := by
          intro hNc
          have hborder := hr.border c hNc hchild.1 (by rw [hchild.2.1]; exact hN)
          rw [hchild.2.1] at hborder
          exact hN₀ (hborder.2.2.2 c₀ hchild₀.1 hchild₀.2.1)
        exact huniq c ⟨hinC c hc hNc, hchild⟩
  · intro p hp hpar c hchild
    by_cases hN : N p
    · have hNc := hr.below p c hN hchild.below
      exact hmem c ((hsettled p (hinE p hp hN) hN).parallel hpar c hchild) hNc
    · have hpC := hinC p hp hN
      refine (hC' c).mpr (Or.inl ((hkept c).mpr ⟨(hr.legal ⟨p, hpC⟩).parallel p hpC hpar c hchild, fun hNc => ?_⟩))
      have hborder := hr.border c hNc hchild.1 (by rw [hchild.2.1]; exact hN)
      rw [hchild.2.1] at hborder
      exact hborder.2.1 (isParallel_iff.mp hpar)

end Document

end Uscxml
