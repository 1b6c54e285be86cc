import Uscxml.FastMicroStep.EntryWalk

/-!
# The default entry of the microstepper

In every run on a chart whose `initial` attributes are spelled out, a microstep that enters a compound state without a
target below it enters what default entry is meant to enter. A run keeps the active states closed under ancestors and leaves
no active compound state empty; that is all a microstep needs to know about where it starts.
-/

namespace Uscxml

variable {β : Type}

namespace FastMicroStep

open Document

variable {d : Document β}

/-! ### One round -/

/-- The active states are closed under ancestors, and no active compound state is empty. -/
structure Filled (d : Document β) (C : Finset TreePath) : Prop where
  proper : ∀ p ∈ C, p = [] ∨ d.ProperState p
  closed : ∀ p ∈ C, ∀ a, p.Below a → a ∈ C
  compound : ∀ p ∈ C, d.isCompound p = true → HasBelow C p

/-- Where a microstep starts: the exit set is closed downwards, and below an active state from below which something is
exited there is a target. -/
structure Situation (d : Document β) (C X : Finset TreePath) (Explicit : TreePath → Prop) : Prop extends Filled d C where
  exits : X ⊆ C
  down : ∀ x ∈ X, ∀ y ∈ C, y.Below x → y ∈ X
  border : ∀ x ∈ X, ∀ i ∈ C, i ∉ X → x.Below i → ∃ t, Explicit t ∧ t.Below i

def Inactive (C X : Finset TreePath) (p : TreePath) : Prop := p ∉ C ∨ p ∈ X

namespace Situation

variable {C X : Finset TreePath} {Explicit : TreePath → Prop} (hs : Situation d C X Explicit)

include hs

theorem mem_states : ∀ p ∈ C, p ∈ d.states := by
  intro p hp
  rcases hs.proper p hp with rfl | h
  · exact d.root_mem_states
  · exact h.mem_states

theorem inactive_below (p x : TreePath) (hp : Inactive C X p) (hx : x.Below p) : Inactive C X x := by
  by_cases hxC : x ∈ C
  · refine Or.inr (hs.down p ?_ x hxC hx)
    exact hp.resolve_left (not_not_intro (hs.closed x hxC p hx))
  · exact Or.inl hxC

/-- The test of the walk at a compound state below which the entry set holds nothing. -/
theorem completes_iff {E : Finset TreePath} (hE : ∀ e ∈ E, e ∈ d.states) (hexplicit : ∀ t, Explicit t → t ∈ E) {i : TreePath}
    (hcomp : d.isCompound i = true) :
    (Disjoint E (stateInfo d i).children ∧
      (Disjoint C (stateInfo d i).children ∨ ¬ Disjoint X (stateInfo d i).children)) ↔
      Inactive C X i ∧ ¬ HasBelow E i := by
  rw [disjoint_children hE, disjoint_children hs.mem_states,
    disjoint_children fun x hx => hs.mem_states x (hs.exits hx), not_not, and_comm]
  refine and_congr_left fun hnone => ?_
  constructor
  · intro h
    by_contra hactive
    rw [Inactive, not_or, not_not] at hactive
    rcases h with h | ⟨x, hx, hb⟩
    · exact h (hs.compound i hactive.1 hcomp)
    · obtain ⟨t, ht, htb⟩ := hs.border x hx i hactive.1 hactive.2 hb
      exact hnone ⟨t, hexplicit t ht, htb⟩
  · rintro (h | h)
    · refine Or.inl ?_
      rintro ⟨c, hc, hb⟩
      exact h (hs.closed c hc i hb)
    · obtain ⟨c, hc, hb⟩ := hs.compound i (hs.exits h) hcomp
      exact Or.inr ⟨c, hs.down i h c hc hb, hb⟩

end Situation

section Round

variable {C X H : Finset TreePath} {Explicit : TreePath → Prop} {i : TreePath} {rest : List TreePath}
  (hd : d.DefaultChart) (hn : d.NamesSpelledOut) (hi : d.InitialsFirst) (hs : Situation d C X Explicit)
  (hsorted : (i :: rest).Pairwise (· < ·)) (hrest : ∀ s ∈ d.states, i < s → s ∈ rest)

include hd hn hi hs hsorted hrest

theorem enterCompound_walk {E : Finset TreePath} (hroot : i = [] → ¬ Inactive C X i)
    (hW : Walk d Explicit (Inactive C X) E (i :: rest)) (hiE : i ∈ E) (hcomp : d.isCompound i = true) :
    Walk d Explicit (Inactive C X) (enterCompound (tables d) C X i E) rest := by
  have hg := hd.toGrammar
  have htag := (hg.isCompound_iff.mp hcomp).1
  have hinitial : i ∈ E → d.tag? i ≠ some .initial := by
    intro _
    rcases htag with h | h <;> simp [h]
  have hparallel : i ∈ E → d.isParallel i = true → ∀ c, d.ProperChild i c → False := by
    intro _ h
    exact absurd rfl (ne_of_parallel_of_compound h hcomp)
  have hcond := (hs.completes_iff hW.mem_states hW.explicit hcomp).trans
    (hW.inForce_iff hsorted hg hiE hcomp).symm
  by_cases hforce : d.InForce Explicit (Inactive C X) i
  case neg =>
    have heq : enterCompound (tables d) C X i E = E := if_neg fun h => hforce (hcond.mp h)
    rw [heq]
    exact hW.grow hsorted hg hrest (Finset.Subset.refl E) hinitial (fun e he hnot => absurd he hnot)
      (fun e he hnot => absurd he hnot) (fun hi hp c hc => (hparallel hi hp c hc).elim) (fun _ h => absurd h hforce)
  have hne : i ≠ [] := fun h => hroot h hforce.fresh
  obtain ⟨hnonempty, hspec⟩ := hd.defaultTargets_spec hi hcomp
  have hunion : ∀ c ∈ (stateInfo d i).completion, c ∈ d.states → c.Below i →
      enterCompound (tables d) C X i E = E ∪ (stateInfo d i).completion := by
    intro c hc hmem hb
    have hmeets : ¬ Disjoint (stateInfo d i).completion (stateInfo d i).children := by
      rw [Finset.not_disjoint_iff]
      exact ⟨c, hc, mem_stateInfo_children.mpr ⟨hmem, hb⟩⟩
    exact (if_pos (hcond.mpr hforce)).trans (if_neg hmeets)
  rcases completion_default hd hn hi hcomp with ⟨hcompl, hbetween⟩ | ⟨hcompl, htag₀, hdef⟩
  · obtain ⟨n₀, hn₀⟩ := List.exists_mem_of_ne_nil _ hnonempty
    rw [hunion n₀ (hcompl ▸ List.mem_toFinset.mpr hn₀) (hspec n₀ hn₀).1.mem_states (hspec n₀ hn₀).2, hcompl]
    have hmem : ∀ {x : TreePath}, x ∈ E ∪ (d.defaultTargets i).toFinset → x ∉ E → x ∈ d.defaultTargets i := by
      intro x hx hnot
      exact List.mem_toFinset.mp ((Finset.mem_union.mp hx).resolve_left hnot)
    refine hW.grow hsorted hg hrest Finset.subset_union_left hinitial ?_ ?_ (fun hi hp c hc => (hparallel hi hp c hc).elim) ?_
    · intro e he hnot
      have hdef := hmem he hnot
      exact ⟨hiE, Or.inr ⟨hforce, Or.inr ⟨(hspec e hdef).1, (hspec e hdef).2, hdef⟩⟩⟩
    · intro e he hnot a hea hai haE
      refine (hbetween hne e (hmem he hnot) a hea hai).resolve_left fun h => haE ?_
      exact Finset.mem_union_right _ (List.mem_toFinset.mpr h)
    · intro _ _
      exact Or.inr fun n hn => Finset.mem_union_right _ (List.mem_toFinset.mpr hn)
  · have hb : (i ++ [0]).Below i := TreePath.below_of_parent_eq (by simp) (TreePath.parent_concat i 0)
    rw [hunion (i ++ [0]) (hcompl ▸ Finset.mem_singleton_self _) (mem_states_of_tag htag₀) hb, hcompl]
    have hmem : ∀ {x : TreePath}, x ∈ E ∪ {i ++ [0]} → x ∉ E → x = i ++ [0] := by
      intro x hx hnot
      exact Finset.mem_singleton.mp ((Finset.mem_union.mp hx).resolve_left hnot)
    refine hW.grow hsorted hg hrest Finset.subset_union_left hinitial ?_ ?_ (fun hi hp c hc => (hparallel hi hp c hc).elim) ?_
    · intro e he hnot
      obtain rfl := hmem he hnot
      exact ⟨hiE, Or.inr ⟨hforce, Or.inl ⟨rfl, htag₀, hdef⟩⟩⟩
    · intro e he hnot a hea hai _
      obtain rfl := hmem he hnot
      have hle := (TreePath.prefix_parent_of_below hea).length_le
      rw [TreePath.parent_concat] at hle
      exact absurd hai.length_lt (Nat.not_lt.mpr hle)
    · intro _ _
      exact Or.inl ⟨Finset.mem_union_right _ (Finset.mem_singleton_self _), htag₀⟩

theorem descend_walk {e : Entry} (hroot : i = [] → ¬ Inactive C X i)
    (hW : Walk d Explicit (Inactive C X) e.entrySet (i :: rest)) :
    Walk d Explicit (Inactive C X) (descend (tables d) C X H e i).entrySet rest := by
  have hg := hd.toGrammar
  have hstay : (i ∈ e.entrySet → d.tag? i ≠ some .parallel ∧ d.isCompound i = false ∧ d.tag? i ≠ some .initial) →
      Walk d Explicit (Inactive C X) e.entrySet rest := by
    intro h
    refine hW.grow hsorted hg hrest (Finset.Subset.refl _) (fun hiE => (h hiE).2.2) (fun e he hnot => absurd he hnot)
      (fun e he hnot => absurd he hnot) ?_ ?_
    · intro hiE hp
      exact absurd (isParallel_iff.mp hp) (h hiE).1
    · intro hiE hforce
      have := hforce.compound
      rw [(h hiE).2.1] at this
      cases this
  by_cases hiE : i ∈ e.entrySet
  case neg =>
    have heq : descend (tables d) C X H e i = e := if_neg hiE
    rw [heq]
    exact hstay fun h => absurd h hiE
  rcases descend_cases hg hd.noHistory (C := C) (X := X) (H := H) hiE (hW.mem_states i hiE) with
    ⟨htag, heq⟩ | ⟨hcomp, heq⟩ | ⟨htag, heq⟩ | ⟨hp, hc, hi, heq⟩
  · rw [heq]
    have hF := fun c => mem_completion_parallel hg hd.noHistory (c := c) htag
    refine hW.grow hsorted hg hrest Finset.subset_union_left (fun _ => by simp [htag]) ?_ ?_ ?_ ?_
    · intro x hx hnot
      have hchild := (hF x).mp ((Finset.mem_union.mp hx).resolve_left hnot)
      exact ⟨hiE, Or.inl ⟨isParallel_iff.mpr htag, hchild⟩⟩
    · intro x hx hnot a hxa hai _
      have hchild := (hF x).mp ((Finset.mem_union.mp hx).resolve_left hnot)
      have hle := (TreePath.prefix_parent_of_below hxa).length_le
      rw [hchild.2.1] at hle
      exact absurd hai.length_lt (Nat.not_lt.mpr hle)
    · exact fun _ _ c hc => Finset.mem_union_right _ ((hF c).mpr hc)
    · intro _ hforce
      exact absurd rfl (ne_of_parallel_of_compound (isParallel_iff.mpr htag) hforce.compound)
  · rw [heq]
    exact enterCompound_walk hd hn hi hs hsorted hrest hroot hW hiE hcomp
  · rw [heq]
    have hroot' : i ≠ [] := by
      rintro rfl
      rw [(hg.root []).mpr rfl] at htag
      cases htag
    obtain ⟨hfirst, -, hforce, hdef⟩ := ((hW.kind i hiE).resolve_left hroot').resolve_left
      (fun h => h.tag_ne_initial htag) |>.2.2
    have hspec := (hd.defaultTargets_spec hi hforce.compound).2
    rw [hdef] at hspec
    refine hW.expand hsorted hg hrest (fun p hp => (hd.defaultTargets_spec hi hp).2) hiE htag fun x => ?_
    exact mem_enterInitial hg hd.uniqueIds htag hfirst (fun s hs => (hspec s hs).1) fun s hs => (hspec s hs).2
  · rw [heq]
    exact hstay fun _ => ⟨hp, hc, hi⟩

end Round

/-! ### The whole walk -/

section Pass

variable {C X H : Finset TreePath} {Explicit : TreePath → Prop} (hd : d.DefaultChart) (hn : d.NamesSpelledOut)
  (hi : d.InitialsFirst) (hs : Situation d C X Explicit)

include hd hn hi hs

theorem foldl_descend_walk {l : List TreePath} (hl : l <:+ d.states) (hroot : [] ∈ l → ¬ Inactive C X []) {e : Entry}
    (hW : Walk d Explicit (Inactive C X) e.entrySet l) :
    Walk d Explicit (Inactive C X) (l.foldl (descend (tables d) C X H) e).entrySet [] := by
  induction l generalizing e with
  | nil => exact hW
  | cons i rest ih =>
    obtain ⟨before, hbefore⟩ := hl
    have hstates : d.states.Pairwise (· < ·) := d.tree.preorder_pairwise
    rw [← hbefore, List.pairwise_append] at hstates
    obtain ⟨-, hsorted, hlt⟩ := hstates
    have hrest : ∀ s ∈ d.states, i < s → s ∈ rest := by
      intro s hmem his
      rw [← hbefore, List.mem_append, List.mem_cons] at hmem
      rcases hmem with h | rfl | h
      · exact absurd his (lt_asymm (hlt s h i List.mem_cons_self))
      · exact absurd his (lt_irrefl s)
      · exact h
    rw [List.foldl_cons]
    refine ih ⟨before ++ [i], by rw [← hbefore]; simp⟩ (fun h => hroot (List.mem_cons_of_mem i h)) ?_
    refine descend_walk hd hn hi hs hsorted hrest ?_ hW
    rintro rfl
    exact hroot List.mem_cons_self

theorem establishEntrySet_walk {targets : Finset TreePath} {transSet : Finset TransId} (hactive : ¬ Inactive C X [])
    (htargets : ∀ t, Explicit t ↔ t ∈ targets) (hproper : ∀ t ∈ targets, d.ProperState t) :
    Walk d Explicit (Inactive C X) (establishEntrySet (tables d) C X H targets transSet).entrySet [] := by
  have hmem : ∀ e, e ∈ addAncestors (tables d) targets ↔ ∃ t ∈ targets, e <+: t :=
    fun e => mem_addAncestors fun t ht => (hproper t ht).mem_states
  have hstate : ∀ e ∈ addAncestors (tables d) targets, e = [] ∨ d.ProperState e := by
    intro e he
    obtain ⟨t, ht, het⟩ := (hmem e).mp he
    rcases TreePath.below_or_eq_of_prefix het with rfl | hb
    · exact Or.inr (hproper t ht)
    · exact hd.toGrammar.proper_of_below (hproper t ht).mem_states hb
  have hin : ∀ e ∈ addAncestors (tables d) targets, e ∈ d.states := by
    intro e he
    rcases hstate e he with rfl | h
    · exact d.root_mem_states
    · exact h.mem_states
  refine foldl_descend_walk hd hn hi hs (List.suffix_refl _) (fun _ => hactive) ?_
  refine ⟨?_, ?_, ?_, ?_, ?_, ?_⟩
  · intro e he
    rcases hstate e he with h | h
    · exact Or.inl h
    · exact Or.inr (Or.inl h)
  · intro e he _
    obtain ⟨t, ht, het⟩ := (hmem e).mp he
    exact Or.inl ⟨t, (htargets t).mpr ht, het⟩
  · intro t ht
    exact (hmem t).mpr ⟨t, (htargets t).mp ht, List.prefix_refl t⟩
  · intro e he a hea hnot
    obtain ⟨t, ht, het⟩ := (hmem e).mp he
    exact absurd ((hmem a).mpr ⟨t, ht, hea.1.trans het⟩) hnot
  · intro q hq hnot
    exact absurd (hin q hq) hnot
  · intro q hq hnot
    exact absurd (hin q hq) hnot

omit hs in
/-- At the start of a run the root is entered by default: its completion is there before the walk begins. -/
theorem walk_start {E : Finset TreePath} {rest : List TreePath} (hstates : d.states = [] :: rest)
    (hE : ∀ e, e ∈ E ↔ ∃ t ∈ (stateInfo d []).completion, e <+: t) :
    Walk d (fun _ => False) (Inactive ∅ ∅) E rest ∧ [] ∈ E ∧ HasBelow E [] := by
  have hg := hd.toGrammar
  have hcomp := hg.isCompound_root
  obtain ⟨hnonempty, hspec⟩ := hd.defaultTargets_spec hi hcomp
  have hforce : d.InForce (fun _ => False) (Inactive ∅ ∅) [] := by
    rw [InForce]
    refine ⟨hcomp, Or.inl (Finset.notMem_empty _), fun _ h => h.elim, ?_⟩
    intro q h
    exact absurd h (TreePath.not_nil_below q)
  have hmember : ∀ t ∈ (stateInfo d []).completion, t ∈ d.states ∧ t ≠ [] ∧ (t ∈ d.defaultTargets [] ∨
      t = [0] ∧ d.tag? t = some .initial ∧ d.defaultTargets [] = d.getTargetStates (t, 0)) := by
    intro t ht
    rcases completion_default hd hn hi hcomp with ⟨hcompl, -⟩ | ⟨hcompl, htag, hdef⟩
    · rw [hcompl, List.mem_toFinset] at ht
      exact ⟨(hspec t ht).1.mem_states, hg.properState_ne_nil (hspec t ht).1, Or.inl ht⟩
    · rw [hcompl, Finset.mem_singleton] at ht
      subst ht
      exact ⟨mem_states_of_tag htag, by simp, Or.inr ⟨rfl, htag, hdef⟩⟩
  have hthere : [0] ∈ (stateInfo d []).completion ∧ d.tag? [0] = some .initial ∨
      ∀ n ∈ d.defaultTargets [], n ∈ (stateInfo d []).completion := by
    rcases completion_default hd hn hi hcomp with ⟨hcompl, -⟩ | ⟨hcompl, htag, -⟩
    · exact Or.inr fun n hn' => hcompl ▸ List.mem_toFinset.mpr hn'
    · exact Or.inl ⟨hcompl ▸ Finset.mem_singleton_self _, htag⟩
  obtain ⟨t₀, ht₀⟩ : ∃ t, t ∈ (stateInfo d []).completion := by
    obtain ⟨n, hn'⟩ := List.exists_mem_of_ne_nil _ hnonempty
    rcases hthere with h | h
    · exact ⟨_, h.1⟩
    · exact ⟨n, h n hn'⟩
  have hself : ∀ t ∈ (stateInfo d []).completion, t ∈ E := fun t ht => (hE t).mpr ⟨t, ht, List.prefix_refl t⟩
  have hroot : [] ∈ E := (hE []).mpr ⟨t₀, ht₀, List.nil_prefix⟩
  have hsorted : ([] :: rest).Pairwise (· < ·) := hstates ▸ d.tree.preorder_pairwise
  have hnil : [] ∉ rest := Walk.head_not_mem hsorted
  have hrest : ∀ {x : TreePath}, x ∈ d.states → x ≠ [] → x ∈ rest := by
    intro x hx hne
    rw [hstates] at hx
    exact (List.mem_cons.mp hx).resolve_left hne
  have honly : ∀ q ∈ E, q ∉ rest → q = [] := by
    intro q hq hnot
    obtain ⟨t, ht, hqt⟩ := (hE q).mp hq
    by_contra hne
    exact hnot (hrest (mem_states_of_above hqt (hmember t ht).1) hne)
  refine ⟨⟨?_, ?_, fun _ h => h.elim, ?_, ?_, ?_⟩, hroot, t₀, hself t₀ ht₀, TreePath.below_nil.mpr (hmember t₀ ht₀).2.1⟩
  · intro e he
    obtain ⟨t, ht, het⟩ := (hE e).mp he
    obtain ⟨hstate, hne, hwhy⟩ := hmember t ht
    rcases TreePath.below_or_eq_of_prefix het with rfl | hb
    · rcases hwhy with h | ⟨rfl, htag, hdef⟩
      · exact Or.inr (Or.inl (hspec t h).1)
      · exact Or.inr (Or.inr ⟨htag, hrest hstate hne, rfl, hnil, hforce, hdef⟩)
    · rcases hg.proper_of_below hstate hb with h | h
      · exact Or.inl h
      · exact Or.inr (Or.inl h)
  · intro e he hne
    obtain ⟨t, ht, het⟩ := (hE e).mp he
    refine Or.inr (Or.inr ⟨[], hroot, hnil, hforce, TreePath.below_nil.mpr hne, ?_⟩)
    rcases (hmember t ht).2.2 with h | ⟨rfl, htag, -⟩
    · exact Or.inr ⟨t, h, het⟩
    · -- Only the root lies above a child of the root.
      rcases TreePath.below_or_eq_of_prefix het with rfl | hb
      · exact Or.inl ⟨htag, rfl⟩
      · exact absurd (List.prefix_nil.mp (TreePath.prefix_parent_of_below hb)) hne
  · intro e he a hea hnot
    obtain ⟨t, ht, het⟩ := (hE e).mp he
    exact absurd ((hE a).mpr ⟨t, ht, hea.1.trans het⟩) hnot
  · intro q hq hnot hpar
    rw [honly q hq hnot] at hpar
    exact absurd rfl (ne_of_parallel_of_compound hpar hcomp)
  · intro q hq hnot _
    rw [honly q hq hnot]
    exact hthere.imp (fun h => ⟨hself _ h.1, h.2⟩) fun h n hn' => hself n (h n hn')

omit hs in
theorem establishEntrySet_start {transSet : Finset TransId} :
    Walk d (fun _ => False) (Inactive ∅ ∅)
      (establishEntrySet (tables d) ∅ ∅ H (stateInfo d []).completion transSet).entrySet [] := by
  have hg := hd.toGrammar
  have hsituation : Situation d ∅ ∅ (fun _ => False) :=
    ⟨⟨by simp, by simp, by simp⟩, Finset.Subset.refl _, by simp, by simp⟩
  have hstate : ∀ t ∈ (stateInfo d []).completion, t ∈ d.states := by
    intro t ht
    rw [stateInfo, List.mem_toFinset] at ht
    exact (matchInOrder_sublist _ _).subset ht
  obtain ⟨rest, hstates⟩ : ∃ rest : List TreePath, d.states = [] :: rest := ⟨_, rfl⟩
  rw [establishEntrySet]
  change Walk _ _ _ (d.states.foldl (descend (tables d) ∅ ∅ H) _).entrySet _
  obtain ⟨hW, hroot, hbelow⟩ := walk_start hd hn hi hstates fun e => mem_addAncestors hstate
  generalize addAncestors (tables d) (stateInfo d []).completion = E at hW hroot hbelow
  have hnil : [] ∉ rest := Walk.head_not_mem (hstates ▸ d.tree.preorder_pairwise)
  -- The round at the root finds its completion below it.
  have hstay : (descend (tables d) ∅ ∅ H { entrySet := E, transSet } []).entrySet = E := by
    rcases descend_cases hg hd.noHistory (C := ∅) (X := ∅) (H := H) (e := ⟨E, transSet⟩) hroot d.root_mem_states with
      ⟨htag, -⟩ | ⟨-, heq⟩ | ⟨htag, -⟩ | ⟨-, -, -, heq⟩
    · rw [(hg.root []).mpr rfl] at htag
      cases htag
    · rw [heq]
      exact if_neg fun h => (disjoint_children hW.mem_states).mp h.1 hbelow
    · rw [(hg.root []).mpr rfl] at htag
      cases htag
    · rw [heq]
  rw [hstates, List.foldl_cons]
  refine foldl_descend_walk hd hn hi hsituation ⟨[[]], hstates.symm⟩ (fun h => absurd h hnil) ?_
  rw [hstay]
  exact hW

end Pass

/-! ### Microsteps -/

/-- The targets of the transitions of a microstep. -/
def Microstep.Explicit (d : Document β) (m : Microstep) (t : TreePath) : Prop :=
  ∃ i ∈ m.transSet, t ∈ d.getTargetStates i

/-- Whenever the microstep enters a compound state by default, it enters below it exactly what default entry is to enter. -/
def EntersDefaults (d : Document β) (m : Microstep) : Prop :=
  ∀ p ∈ m.next (tables d), d.InForce (m.Explicit d) (Inactive m.configuration m.exitSet) p →
    ∀ x, x.Below p → (x ∈ m.next (tables d) ↔ d.ByDefault p x)

section Microstep

variable (hd : d.DefaultChart) {m : Microstep}
  (hs : Situation d m.configuration m.exitSet (m.Explicit d))
  (hW : Walk d (m.Explicit d) (Inactive m.configuration m.exitSet) (m.entry (tables d)).entrySet [])

include hd hs hW

theorem mem_next_iff {p : TreePath} :
    p ∈ m.next (tables d) ↔ ¬ Inactive m.configuration m.exitSet p ∨ p ∈ (m.entry (tables d)).entrySet := by
  have hstates := hs.mem_states
  rw [Microstep.next, mem_nextConfiguration, Inactive, not_or, not_not]
  change (p ∈ m.configuration ∧ ¬ (p ∈ m.exitSet ∧ p ∈ d.states) ∨
    p ∈ (m.entry (tables d)).entrySet ∧ p ∈ d.states ∧ (stateType d p).pseudo = false) ↔ _
  constructor
  · rintro (⟨hp, hX⟩ | h)
    · exact Or.inl ⟨hp, fun h => hX ⟨h, hstates p hp⟩⟩
    · exact Or.inr h.1
  · rintro (⟨hp, hX⟩ | hp)
    · exact Or.inl ⟨hp, fun h => hX h.1⟩
    · have hstate := hW.mem_states p hp
      refine Or.inr ⟨hp, hstate, (pseudo_iff hd.toGrammar hd.noHistory hstate).mpr ?_⟩
      rcases hW.kind p hp with rfl | h | h
      · simp [(hd.toGrammar.root []).mpr rfl]
      · exact h.tag_ne_initial
      · simp at h

theorem entersDefaults_of_walk (hi : d.InitialsFirst) : EntersDefaults d m := by
  intro p hp hforce x hx
  have hmem := fun q => mem_next_iff hd hs hW (p := q)
  have hpE : p ∈ (m.entry (tables d)).entrySet := ((hmem p).mp hp).resolve_left (not_not_intro hforce.fresh)
  have hfresh := hs.inactive_below
  rw [hmem x, or_iff_right (not_not_intro (hfresh p x hforce.fresh hx))]
  exact hW.enters.mem_iff_byDefault (fun q hq n hn => ((hd.defaultTargets_spec hi hq).2 n hn).2) hfresh hpE hforce hx

theorem filled_of_walk (hi : d.InitialsFirst) : Filled d (m.next (tables d)) := by
  have hmem := fun q => mem_next_iff hd hs hW (p := q)
  have hE := hW.enters
  refine ⟨?_, ?_, ?_⟩
  · intro p hp
    rcases (hmem p).mp hp with h | h
    · exact hs.proper p (by_contra fun hnot => h (Or.inl hnot))
    · rcases hW.kind p h with h | h | h
      · exact Or.inl h
      · exact Or.inr h
      · simp at h
  · intro p hp a ha
    refine (hmem a).mpr ?_
    rcases (hmem p).mp hp with h | h
    · exact Or.inl fun hina => h (hs.inactive_below a p hina ha)
    · exact Or.inr (hE.closed p h a ha)
  · intro p hp hcomp
    suffices h : (∃ e ∈ (m.entry (tables d)).entrySet, e.Below p) ∨
        ∃ c, ¬ Inactive m.configuration m.exitSet c ∧ c.Below p by
      rcases h with ⟨e, he, hb⟩ | ⟨c, hc, hb⟩
      · exact ⟨e, (hmem e).mpr (Or.inr he), hb⟩
      · exact ⟨c, (hmem c).mpr (Or.inl hc), hb⟩
    by_cases hina : Inactive m.configuration m.exitSet p
    · have hpE : p ∈ (m.entry (tables d)).entrySet := ((hmem p).mp hp).resolve_left (not_not_intro hina)
      left
      by_cases hforce : d.InForce (m.Explicit d) (Inactive m.configuration m.exitSet) p
      · obtain ⟨hne, hspec⟩ := hd.defaultTargets_spec hi hcomp
        obtain ⟨n, hn⟩ := List.exists_mem_of_ne_nil _ hne
        exact ⟨n, hE.defaults p hpE hforce n hn, (hspec n hn).2⟩
      · -- A target or a default target from above lies below.
        by_contra hnone
        refine hforce ?_
        rw [InForce]
        refine ⟨hcomp, hina, fun t ht hb => hnone ⟨t, hW.explicit t ht, hb⟩, ?_⟩
        intro q hpq hq n hn hb
        exact hnone ⟨n, hE.defaults q (hE.closed p hpE q hpq) hq n hn, hb⟩
    · rw [Inactive, not_or, not_not] at hina
      obtain ⟨c, hc, hb⟩ := hs.compound p hina.1 hcomp
      by_cases hcX : c ∈ m.exitSet
      · obtain ⟨t, ht, htb⟩ := hs.border c hcX p hina.1 hina.2 hb
        exact Or.inl ⟨t, hW.explicit t ht, htb⟩
      · exact Or.inr ⟨c, by rw [Inactive, not_or, not_not]; exact ⟨hc, hcX⟩, hb⟩

end Microstep

/-! ### Runs -/

theorem domain_spec (hd : d.DefaultChart) {t : TransId} {D : TreePath} (hD : d.getTransitionDomain t = some D) :
    d.isCompound D = true ∧ ∀ s ∈ d.getTargetStates t, s.Below D := by
  have hg := hd.toGrammar
  obtain ⟨s₀, hs₀⟩ := List.exists_mem_of_ne_nil _ (targets_ne_nil_of_domain hD)
  have htrans : (d.trans? t).isSome := by
    cases h : d.trans? t with
    | none => simp [getTargetStates, h] at hs₀
    | some e => rfl
  rcases hg.getTransitionDomain_eq (targets_ne_nil_of_domain hD) with ⟨hin, heq⟩ | ⟨-, heq⟩
  · rw [hD] at heq
    cases heq
    exact ⟨hg.compoundElement_iff.mp hin.2.1, hin.2.2⟩
  · rw [hD] at heq
    have hne : d.getSourceState t ≠ [] := by
      intro hnil
      rw [hnil, findLCCA, hg.getProperAncestors_eq d.root_mem_states] at heq
      simp [parentNodes] at heq
    obtain ⟨a, ha, hcomp, hbelow⟩ := hg.findLCCA_spec (d.getSourceState t) (d.getTargetStates t) (by
      intro s hs
      rcases List.mem_cons.mp hs with rfl | hs
      · exact ⟨getSourceState_mem_states htrans, hne⟩
      · have := hd.target_proper hs
        exact ⟨this.mem_states, hg.properState_ne_nil this⟩)
    rw [← heq] at ha
    cases ha
    exact ⟨hcomp, fun s hs => hbelow s (List.mem_cons_of_mem _ hs)⟩

theorem situation_of_selected (hd : d.DefaultChart) {C : Finset TreePath} (hC : Filled d C) {ω : Type} {sel : Selection ω}
    (hsel : Selected (tables d) C sel) :
    Situation d C (sel.exitSet ∩ C) (fun t => ∃ i ∈ sel.transSet, t ∈ d.getTargetStates i) := by
  have hexit : ∀ x, x ∈ sel.exitSet ∩ C ↔ x ∈ C ∧ ∃ t ∈ sel.transSet, ∃ D, d.getTransitionDomain t = some D ∧
      d.ProperState x ∧ x.Below D := by
    intro x
    rw [Finset.mem_inter, hsel.exit, and_comm]
    refine and_congr_right fun _ => exists_congr fun t => and_congr_right fun _ => ?_
    exact mem_exitSet.trans mem_getExitSet
  have hproper : ∀ {x a : TreePath}, x ∈ C → x.Below a → d.ProperState x := by
    intro x a hx hb
    refine (hC.proper x hx).resolve_left ?_
    rintro rfl
    exact TreePath.not_nil_below a hb
  refine ⟨hC, Finset.inter_subset_right, ?_, ?_⟩
  · intro x hx y hy hyx
    obtain ⟨-, t, ht, D, hD, -, hxD⟩ := (hexit x).mp hx
    exact (hexit y).mpr ⟨hy, t, ht, D, hD, hproper hy hyx, hyx.trans hxD⟩
  · intro x hx i hi hnot hxi
    obtain ⟨-, t, ht, D, hD, -, hxD⟩ := (hexit x).mp hx
    -- A state below the domain is exited, so the active one lies at or above the domain.
    have hiD : i <+: D := by
      rcases TreePath.comparable hxi.1 hxD.1 with rfl | h | h
      · exact List.prefix_refl i
      · exact absurd ((hexit i).mpr ⟨hi, t, ht, D, hD, hproper hi h, h⟩) hnot
      · exact h.1
    obtain ⟨s, hs⟩ := List.exists_mem_of_ne_nil _ (targets_ne_nil_of_domain hD)
    exact ⟨s, ⟨t, ht, hs⟩, ((domain_spec hd hD).2 s hs).trans_above hiD⟩

def FilledRun {ω : Type} (d : Document β) (s : St ω) : Prop :=
  Filled d s.configuration ∧ (s.flags.initialized = true ∨ s.flags = {} ∧ s.configuration = ∅)

section Runs

variable {ω : Type} {cb : Callbacks ω} (hd : d.DefaultChart) (hn : d.NamesSpelledOut) (hi : d.InitialsFirst)

include hd hn hi

/-- A microstep of a run starts in a situation in which the walk is right. -/
theorem walk_of_microstepOf {s : St ω} (h : FilledRun d s) {m : Microstep} (hm : microstepOf (tables d) cb s = some m) :
    Situation d m.configuration m.exitSet (m.Explicit d) ∧
      Walk d (m.Explicit d) (Inactive m.configuration m.exitSet) (m.entry (tables d)).entrySet [] := by
  cases step_moves (tables d) cb s with
  | stays hnone =>
    rw [hnone] at hm
    cases hm
  | starts m' hsome hpristine hm' =>
    rw [hsome] at hm
    obtain rfl := Option.some.inj hm
    have hexplicit : m'.Explicit d = fun _ => False := by
      funext t
      simp [Microstep.Explicit, hm']
    have hempty : s.configuration = ∅ := by
      have hflags : s.flags = {} := of_decide_eq_true hpristine
      rcases h.2 with h | h
      · simp [hflags] at h
      · exact h.2
    rw [hexplicit, hm', hempty]
    exact ⟨⟨⟨by simp, by simp, by simp⟩, Finset.Subset.refl _, by simp, by simp⟩,
      establishEntrySet_start hd hn hi⟩
  | takes m' hsome hpristine event w sel hsel hm' hfound =>
    rw [hsome] at hm
    obtain rfl := Option.some.inj hm
    have hselected : Selected (tables d) s.configuration sel := hsel ▸ selectTransitions_selected _ _ _ _ _
    have hsituation := situation_of_selected hd h.1 hselected
    have hexplicit : ∀ t, (∃ i ∈ sel.transSet, t ∈ d.getTargetStates i) ↔ t ∈ sel.targetSet := by
      intro t
      rw [hselected.target]
      exact exists_congr fun i => and_congr_right fun _ => (mem_target hd.uniqueIds).symm
    have hactive : ¬ Inactive s.configuration (sel.exitSet ∩ s.configuration) [] := by
      obtain ⟨t, ht⟩ := hselected.found.mp hfound
      have hsource := (hselected.active t ht).2
      have hroot : [] ∈ s.configuration := by
        by_cases hnil : ((tables d).trans t).source = []
        · exact hnil ▸ hsource
        · exact h.1.closed _ hsource [] (TreePath.below_nil.mpr hnil)
      rw [Inactive, not_or, not_not]
      refine ⟨hroot, fun hX => ?_⟩
      obtain ⟨u, -, hu⟩ := (hselected.exit []).mp (Finset.mem_inter.mp hX).1
      obtain ⟨D, -, -, hb⟩ := mem_getExitSet.mp (mem_exitSet.mp hu)
      exact TreePath.not_nil_below D hb
    rw [hm']
    refine ⟨hsituation, ?_⟩
    refine establishEntrySet_walk hd hn hi hsituation hactive hexplicit ?_
    intro t ht
    obtain ⟨i, -, hit⟩ := (hexplicit t).mpr ht
    exact hd.target_proper hit

theorem filledRun_of_reachable {s : St ω} (hs : Reachable (tables d) cb s) : FilledRun d s := by
  induction hs with
  | init w => exact ⟨⟨by simp, by simp, by simp⟩, Or.inr ⟨rfl, rfl⟩⟩
  | environment w _ ih => exact ih
  | cancel _ ih => exact ih
  | @step s _ ih =>
    have hnext : ∀ m, microstepOf (tables d) cb s = some m → Filled d (m.next (tables d)) := by
      intro m hm
      obtain ⟨hsit, hW⟩ := walk_of_microstepOf hd hn hi ih hm
      exact filled_of_walk hd hsit hW hi
    have hstarted : s.flags.pristine = false → s.flags.initialized = true := by
      intro hp
      refine ih.2.resolve_right fun h => ?_
      simp [h.1, Flags.pristine] at hp
    cases step_moves (tables d) cb s with
    | stays _ hpristine hconf _ hflag => exact ⟨hconf ▸ ih.1, Or.inl (hflag.trans (hstarted hpristine))⟩
    | starts m hsome _ _ hconf _ hflag => exact ⟨hconf ▸ hnext m hsome, Or.inl hflag⟩
    | takes m hsome hpristine _ _ _ _ _ _ hconf _ hflag =>
      exact ⟨hconf ▸ hnext m hsome, Or.inl (hflag.trans (hstarted hpristine))⟩

end Runs

/-- In every run on a chart whose `initial` attributes are spelled out, whenever a microstep enters a compound state without
a target below it, it enters below it exactly what default entry is to enter. -/
theorem default_entry_exact {D : Document β} (hd : (resortStates D).DefaultChart) (hn : (resortStates D).NamesSpelledOut)
    {ω : Type} (cb : Callbacks ω) {s : St ω} (hs : Reachable (init D) cb s) {m : Microstep}
    (hm : microstepOf (init D) cb s = some m) : EntersDefaults (resortStates D) m := by
  have hi := initialsFirst_resortStates D
  obtain ⟨hsit, hW⟩ := walk_of_microstepOf hd hn hi (filledRun_of_reachable hd hn hi hs) hm
  exact entersDefaults_of_walk hd hsit hW hi

/-- A state that starts in the parallel `p`, in the second state of its second region. -/
def secondRegion : Document Unit where
  tree :=
    { root := { tag := .scxml }
      kids :=
        .cons { tag := .state, id := some "s", initial := some ["p", "b2"] }
          (.cons { tag := .parallel, id := some "p" }
            (.cons { tag := .state, id := some "a" }
              (.cons { tag := .state, id := some "a1" } .nil (.cons { tag := .state, id := some "a2" } .nil .nil))
              (.cons { tag := .state, id := some "b" }
                (.cons { tag := .state, id := some "b1" } .nil (.cons { tag := .state, id := some "b2" } .nil .nil)) .nil))
            .nil)
          .nil }

theorem secondRegion_attribute {p : TreePath} (hp : p ∈ (resortStates secondRegion).states) {ids : List String}
    (h : ((resortStates secondRegion).elem? p).bind (·.initial) = some ids) : p = [0] ∧ ids = ["p", "b2"] := by
  have hall : ∀ q ∈ (resortStates secondRegion).states,
      ((resortStates secondRegion).elem? q).bind (·.initial) = none ∨
        q = [0] ∧ ((resortStates secondRegion).elem? q).bind (·.initial) = some ["p", "b2"] := by decide +kernel
  rcases hall p hp with hnone | ⟨rfl, hsome⟩
  · rw [hnone] at h
    cases h
  · rw [hsome] at h
    exact ⟨rfl, (Option.some.inj h).symm⟩

theorem secondRegion_defaultChart : (resortStates secondRegion).DefaultChart where
  rootTag := by decide +kernel
  nested := by decide +kernel
  finalAttr := by decide +kernel
  child := by decide +kernel
  initialTransition := by decide +kernel
  histories := by decide +kernel
  uniqueIds := by unfold UniqueIds; decide +kernel
  transitionTargets := by decide +kernel
  initialTargets := by decide +kernel
  initialAttr := by
    intro p hp _ ids hids
    obtain ⟨rfl, rfl⟩ := secondRegion_attribute hp hids
    refine ⟨by simp, ?_⟩
    intro i hi
    simp only [List.mem_cons, List.not_mem_nil, or_false] at hi
    rcases hi with rfl | rfl
    · exact ⟨[0, 0], by decide +kernel, by decide +kernel, by decide +kernel⟩
    · exact ⟨[0, 0, 1, 1], by decide +kernel, by decide +kernel, by decide +kernel⟩

theorem secondRegion_namesSpelledOut : (resortStates secondRegion).NamesSpelledOut where
  inOrder := by
    intro p hp _ ids hids
    obtain ⟨rfl, rfl⟩ := secondRegion_attribute hp hids
    exact ⟨[[0, 0], [0, 0, 1, 1]], by decide +kernel, by decide +kernel⟩
  between := by decide +kernel

/-- The microstep that starts the run enters `p`, both regions, the default of the first and the named state of the second. -/
theorem default_entry_exact_secondRegion :
    ∃ m, microstepOf (init secondRegion) externalEvents { env := [] } = some m ∧
      EntersDefaults (resortStates secondRegion) m ∧
      m.next (init secondRegion) = {[], [0], [0, 0], [0, 0, 0], [0, 0, 0, 0], [0, 0, 1], [0, 0, 1, 1]} :=
  ⟨_, rfl, default_entry_exact secondRegion_defaultChart secondRegion_namesSpelledOut externalEvents (Reachable.init []) rfl,
    by decide +kernel⟩

def deepInitial : Document Unit where
  tree :=
    { root := { tag := .scxml }
      kids :=
        .cons { tag := .state, id := some "s", initial := some ["s11"] }
          (.cons { tag := .state, id := some "s1" } (.cons { tag := .state, id := some "s11" } .nil .nil) .nil) .nil }

/-- The state named is entered, and the one above it is not. -/
theorem ancestor_skipped :
    (resortStates deepInitial).Legal {[], [0], [0, 0], [0, 0, 0]} ∧
      ∃ m, microstepOf (init deepInitial) externalEvents { env := [] } = some m ∧
        m.next (init deepInitial) = {[], [0], [0, 0, 0]} ∧ ¬ EntersDefaults (resortStates deepInitial) m := by
  refine ⟨by decide +kernel, _, rfl, by decide +kernel, fun h => ?_⟩
  have hdirect : (resortStates deepInitial).ByDefault [0] [0, 0] := by
    have hnamed : [0, 0, 0] ∈ (resortStates deepInitial).defaultTargets [0] := by decide +kernel
    exact .direct (.ancestor hnamed (by decide) (by decide))
  have hmem := (h [0] (by decide +kernel) ?_ [0, 0] (by decide)).mpr hdirect
  · revert hmem
    decide +kernel
  · rw [InForce]
    refine ⟨by decide +kernel, Or.inl (Finset.notMem_empty _), ?_, ?_⟩
    · rintro t ⟨i, hi, -⟩
      exact absurd hi (Finset.notMem_empty i)
    · intro q hq _ n hn
      obtain rfl : q = [] := List.prefix_nil.mp (TreePath.prefix_parent_of_below hq)
      have hroot : (resortStates deepInitial).defaultTargets [] = [[0]] := by decide +kernel
      rw [hroot, List.mem_singleton] at hn
      rw [hn]
      exact TreePath.not_below_self [0]

end FastMicroStep

end Uscxml
