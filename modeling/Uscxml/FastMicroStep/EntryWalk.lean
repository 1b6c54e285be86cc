import Uscxml.DefaultEntry
import Uscxml.Domains
import Uscxml.FastMicroStep.Completions
import Uscxml.FastMicroStep.LegalConfiguration

/-!
# The walk over the entry set

The walk over the entry set completes a compound state with what its `initial` attribute names, and with nothing else:
the branch that adds ancestors asks whether the completion avoids the children of the state, and `children` holds all
descendants. So a state between a compound state and a name is entered only if it is named as well or is a region of a
parallel. Where the attributes are written so, the walk enters what default entry is meant to enter.
-/

namespace Uscxml

variable {β : Type}

namespace Document

/-- The charts without histories whose `initial` attributes name descendants. -/
structure DefaultChart (d : Document β) : Prop extends Grammar d where
  histories : ∀ p ∈ d.states, d.tag? p ≠ some .history
  uniqueIds : d.UniqueIds
  transitionTargets : ∀ p ∈ d.states, ∀ t ∈ d.transIds p, ∀ s ∈ d.getTargetStates t, d.ProperState s
  initialTargets : ∀ p ∈ d.states, d.tag? p = some .initial → ∀ s ∈ d.getTargetStates (p, 0), s.Below p.parent
  initialAttr : ∀ p ∈ d.states, d.isCompound p = true → ∀ ids, (d.elem? p).bind (·.initial) = some ids →
    ids ≠ [] ∧ ∀ i ∈ ids, ∃ n, d.getState i = some n ∧ d.ProperState n ∧ n.Below p

/-- The `initial` attributes name states in the order of the document, and below the root whatever lies between a state and
a name is a name or a region of a parallel. -/
structure NamesSpelledOut (d : Document β) : Prop where
  inOrder : ∀ p ∈ d.states, d.isCompound p = true → ∀ ids, (d.elem? p).bind (·.initial) = some ids →
    FastMicroStep.NamesInOrder d ids
  between : ∀ p ∈ d.states, p ≠ [] → d.isCompound p = true → ((d.elem? p).bind (·.initial)).isSome →
    ∀ n ∈ d.defaultTargets p, ∀ a ∈ parentNodes n, a.Below p → a ∈ d.defaultTargets p ∨ d.isParallel a.parent = true

variable {d : Document β}

theorem mem_states_of_compound {p : TreePath} (h : d.isCompound p = true) : p ∈ d.states := by
  rw [isCompound, Bool.and_eq_true, Bool.and_eq_true, isState_true_iff] at h
  rcases h.1.1 with h | h
  · exact mem_states_of_tag h
  · exact h.mem_states

namespace DefaultChart

variable (hd : d.DefaultChart)

include hd

theorem noHistory (p : TreePath) : d.tag? p ≠ some .history := fun h => hd.histories p (mem_states_of_tag h) h

theorem target_proper {t : TransId} {s : TreePath} (hs : s ∈ d.getTargetStates t) : d.ProperState s := by
  have htrans : (d.trans? t).isSome := by
    cases h : d.trans? t with
    | none => simp [getTargetStates, h] at hs
    | some e => rfl
  have hlt : t.2 < (d.transitionsAt t.1).length := by
    rw [trans?, isSome_getElem?] at htrans
    exact htrans
  exact hd.transitionTargets t.1 (mem_states_of_trans htrans) t (List.mem_map.mpr ⟨t.2, List.mem_range.mpr hlt, rfl⟩) s hs

/-- A compound state has default targets, and these are states below it. -/
theorem defaultTargets_spec (hi : d.InitialsFirst) {p : TreePath} (hp : d.isCompound p = true) :
    d.defaultTargets p ≠ [] ∧ ∀ n ∈ d.defaultTargets p, d.ProperState n ∧ n.Below p := by
  have hg := hd.toGrammar
  obtain ⟨-, child, hchild⟩ := hg.isCompound_iff.mp hp
  rw [defaultTargets]
  cases hattr : (d.elem? p).bind (·.initial) with
  | some ids =>
    obtain ⟨hne, hall⟩ := hd.initialAttr p (mem_states_of_compound hp) hp ids hattr
    constructor
    · obtain ⟨i, hmem⟩ := List.exists_mem_of_ne_nil ids hne
      obtain ⟨n, hn, -⟩ := hall i hmem
      exact List.ne_nil_of_mem (List.mem_filterMap.mpr ⟨i, hmem, hn⟩)
    · intro n hn
      obtain ⟨i, hmem, hget⟩ := List.mem_filterMap.mp hn
      obtain ⟨n', hn', hspec⟩ := hall i hmem
      obtain rfl : n = n' := Option.some.inj (hget.symm.trans hn')
      exact hspec
  | none =>
    simp only
    cases hinit : (d.children p).filter fun c => d.tag? c = some .initial with
    | cons init rest =>
      obtain ⟨htag, heq⟩ := FastMicroStep.head_initial hi hinit
      refine ⟨(hg.initial init htag).2, fun n hn => ⟨hd.target_proper hn, ?_⟩⟩
      have hbelow := hd.initialTargets init (mem_states_of_tag htag) htag n hn
      rwa [heq, TreePath.parent_concat] at hbelow
    | nil =>
      obtain ⟨c, rest, hkids, hc⟩ := hg.exists_first_child hchild
      rw [hkids]
      refine ⟨by simp, fun n hn => ?_⟩
      obtain rfl : n = c := by simpa using hn
      exact ⟨hc.2.2, hc.below⟩

end DefaultChart

end Document

namespace FastMicroStep

open Document

variable {d : Document β}

/-! ### The table of completions -/

section Tables

variable (hd : d.DefaultChart) (hn : d.NamesSpelledOut) (hi : d.InitialsFirst)

include hd hn hi

/-- A compound state is completed by its default targets or by its `<initial>`. -/
theorem completion_default {p : TreePath} (hp : d.isCompound p = true) :
    ((stateInfo d p).completion = (d.defaultTargets p).toFinset ∧
      (p ≠ [] → ∀ n ∈ d.defaultTargets p, ∀ a, n.Below a → a.Below p →
        a ∈ d.defaultTargets p ∨ d.isParallel a.parent = true)) ∨
      ((stateInfo d p).completion = {p ++ [0]} ∧ d.tag? (p ++ [0]) = some .initial ∧
        d.defaultTargets p = d.getTargetStates (p ++ [0], 0)) := by
  have hg := hd.toGrammar
  have hstate := mem_states_of_compound hp
  obtain ⟨htag, child, hchild⟩ := hg.isCompound_iff.mp hp
  have hnp : d.tag? p ≠ some .parallel := by rcases htag with h | h <;> simp [h]
  have hcompletion : (stateInfo d p).completion = (matchInOrder d.states (initialCompletion d p)).toFinset := by
    rw [stateInfo, getCompletion_of_not_parallel hd.noHistory hnp]
  rw [hcompletion, initialCompletion]
  cases hattr : (d.elem? p).bind (·.initial) with
  | some ids =>
    left
    obtain ⟨l, hl, hsorted⟩ := hn.inOrder p hstate hp ids hattr
    have hdef : d.defaultTargets p = l := by
      have hfilter : (d.getStates ids).filterMap id = l := by rw [hl, List.filterMap_map]; simp
      rw [defaultTargets, hattr, ← hfilter, getStates, List.filterMap_map]
      rfl
    refine ⟨?_, ?_⟩
    · have hsub := sublist_states_iff.mpr ⟨hsorted, mem_states_of_getStates hl⟩
      simp only [hdef, hl, matchInOrder_of_sublist hsub]
    · intro hroot n hmem a hna hap
      exact hn.between p hstate hroot hp (by simp [hattr]) n hmem a (mem_parentNodes.mpr hna) hap
  | none =>
    simp only
    cases hinit : (d.children p).filter fun c => d.tag? c = some .initial with
    | cons init rest =>
      right
      obtain ⟨htag, rfl⟩ := head_initial hi hinit
      have hsub := matchInOrder_of_sublist (List.singleton_sublist.mpr (mem_states_of_tag htag))
      rw [List.map_singleton] at hsub
      refine ⟨by rw [hsub]; rfl, htag, ?_⟩
      rw [defaultTargets, hattr]
      simp only [hinit]
    | nil =>
      left
      obtain ⟨c, rest, hkids, hc⟩ := hg.exists_first_child hchild
      have hdef : d.defaultTargets p = [c] := by
        rw [defaultTargets, hattr]
        simp only [hinit, hkids, List.head?_cons, Option.toList_some]
      have hsub := matchInOrder_of_sublist (List.singleton_sublist.mpr hc.mem_states)
      rw [hdef, hkids]
      refine ⟨congrArg List.toFinset hsub, fun _ n hmem a hna hap => ?_⟩
      -- Nothing lies between a state and its child.
      rw [List.mem_singleton.mp hmem] at hna
      have hle := (TreePath.prefix_parent_of_below hna).length_le
      rw [hc.2.1] at hle
      exact absurd hap.length_lt (Nat.not_lt.mpr hle)

end Tables

/-! ### The walk over the entry set -/

/-- The entry set while the states of `rest` are still to come: every member has a reason, an ancestor that is missing is a
region of a parallel to come, and what the treated members ask for is there. -/
structure Walk (d : Document β) (Explicit Fresh : TreePath → Prop) (E : Finset TreePath) (rest : List TreePath) : Prop where
  kind : ∀ e ∈ E, e = [] ∨ d.ProperState e ∨ d.tag? e = some .initial ∧ e ∈ rest ∧ e = e.parent ++ [0] ∧ e.parent ∉ rest ∧
    d.InForce Explicit Fresh e.parent ∧ d.defaultTargets e.parent = d.getTargetStates (e, 0)
  origin : ∀ e ∈ E, e ≠ [] → (∃ t, Explicit t ∧ e <+: t) ∨ (∃ q ∈ E, d.isParallel q = true ∧ d.ProperChild q e) ∨
    ∃ q ∈ E, q ∉ rest ∧ d.InForce Explicit Fresh q ∧ e.Below q ∧
      (d.tag? e = some .initial ∧ e.parent = q ∨ ∃ n ∈ d.defaultTargets q, e <+: n)
  explicit : ∀ t, Explicit t → t ∈ E
  pending : ∀ e ∈ E, ∀ a, e.Below a → a ∉ E → a ≠ [] ∧ d.isParallel a.parent = true ∧ a.parent ∈ rest
  regions : ∀ q ∈ E, q ∉ rest → d.isParallel q = true → ∀ c, d.ProperChild q c → c ∈ E
  defaults : ∀ q ∈ E, q ∉ rest → d.InForce Explicit Fresh q →
    q ++ [0] ∈ E ∧ d.tag? (q ++ [0]) = some .initial ∨ ∀ n ∈ d.defaultTargets q, n ∈ E

namespace Walk

variable {Explicit Fresh : TreePath → Prop} {E : Finset TreePath} {i : TreePath} {rest : List TreePath}

theorem mem_states (hW : Walk d Explicit Fresh E rest) : ∀ e ∈ E, e ∈ d.states := by
  intro e he
  rcases hW.kind e he with rfl | h | h
  · exact d.root_mem_states
  · exact h.mem_states
  · exact mem_states_of_tag h.1

theorem enters (hW : Walk d Explicit Fresh E []) : d.EntersByDefault Explicit Fresh E where
  origin := by
    intro e he hne
    rcases hW.origin e he hne with h | h | ⟨q, hq, -, hforce, hb, h | h⟩
    · exact Or.inl h
    · exact Or.inr (Or.inl h)
    · rcases hW.kind e he with h' | h' | h'
      · exact absurd h' hne
      · exact absurd h.1 h'.tag_ne_initial
      · simp at h'
    · exact Or.inr (Or.inr ⟨q, hq, hforce, hb, h⟩)
  closed := by
    intro e he a ha
    by_contra hnot
    simpa using (hW.pending e he a ha hnot).2.2
  regions := fun q hq => hW.regions q hq (by simp)
  defaults := by
    intro q hq hforce n hn
    rcases hW.defaults q hq (by simp) hforce with ⟨hmem, htag⟩ | h
    · rcases hW.kind _ hmem with h' | h' | h'
      · simp at h'
      · exact absurd htag h'.tag_ne_initial
      · simp at h'
    · exact h n hn

variable (hW : Walk d Explicit Fresh E (i :: rest)) (hsorted : (i :: rest).Pairwise (· < ·))

include hsorted

omit hW in
theorem not_mem_of_lt {x : TreePath} (h : x < i) : x ∉ i :: rest := by
  intro hmem
  rcases List.mem_cons.mp hmem with rfl | hmem
  · exact lt_irrefl x h
  · exact lt_asymm h ((List.pairwise_cons.mp hsorted).1 x hmem)

omit hW in
theorem head_not_mem : i ∉ rest := fun h => lt_irrefl i ((List.pairwise_cons.mp hsorted).1 i h)

include hW

theorem lt_of_missing {e a : TreePath} (he : e ∈ E) (ha : e.Below a) (hnot : a ∉ E) : i < a := by
  obtain ⟨hne, -, hmem⟩ := hW.pending e he a ha hnot
  by_contra hge
  exact not_mem_of_lt hsorted ((TreePath.below_parent hne).lt.trans_le (not_lt.mp hge)) hmem

theorem ancestor_mem (hi : i ∈ E) {a : TreePath} (ha : i.Below a) : a ∈ E := by
  by_contra hnot
  exact lt_asymm ha.lt (hW.lt_of_missing hsorted hi ha hnot)

/-- Below a compound state at hand there is nothing when its default is in force. -/
theorem not_hasBelow (hforce : d.InForce Explicit Fresh i) : ¬ HasBelow E i := by
  suffices h : ∀ n : Nat, ∀ e ∈ E, e.length = n → ¬ e.Below i by
    rintro ⟨e, he, hb⟩
    exact h e.length e he rfl hb
  intro n
  induction n using Nat.strong_induction_on with
  | _ n ih =>
    intro e he hlen hb
    have hne : e ≠ [] := by
      rintro rfl
      exact TreePath.not_nil_below i hb
    rcases hW.origin e he hne with ⟨t, ht, het⟩ | ⟨q, hqE, hq, hc⟩ | ⟨q, hqE, hrest, hq, heq, hwhy⟩
    · exact hforce.explicit ht (TreePath.Below.prefix_trans het hb)
    · have hpre := TreePath.prefix_parent_of_below hb
      rw [hc.2.1] at hpre
      rcases TreePath.below_or_eq_of_prefix hpre with h | h
      · exact ne_of_parallel_of_compound hq hforce.compound h
      · exact ih q.length (hlen ▸ hc.below.length_lt) q hqE rfl h
    · rcases TreePath.comparable heq.1 hb.1 with rfl | hqi | hiq
      · exact hrest List.mem_cons_self
      · exact ih q.length (hlen ▸ heq.length_lt) q hqE rfl hqi
      · rcases hwhy with ⟨-, hpar⟩ | ⟨n', hn', hen⟩
        · have hpre := TreePath.prefix_parent_of_below hb
          rw [hpar] at hpre
          exact absurd hpre.length_le (Nat.not_le.mpr hiq.length_lt)
        · exact hforce.outer hiq hq hn' (TreePath.Below.prefix_trans hen hb)

/-- The default of the compound state at hand is in force exactly when it is entered anew and nothing lies below it. -/
theorem inForce_iff (hg : d.Grammar) (hi : i ∈ E) (hcomp : d.isCompound i = true) :
    d.InForce Explicit Fresh i ↔ Fresh i ∧ ¬ HasBelow E i := by
  refine ⟨fun h => ⟨h.fresh, hW.not_hasBelow hsorted h⟩, ?_⟩
  rintro ⟨hfresh, hnone⟩
  rw [InForce]
  refine ⟨hcomp, hfresh, fun t ht htb => hnone ⟨t, hW.explicit t ht, htb⟩, ?_⟩
  intro q hiq hq n hn hni
  have hqE := hW.ancestor_mem hsorted hi hiq
  rcases hW.defaults q hqE (not_mem_of_lt hsorted hiq.lt) hq with ⟨hmem, htag⟩ | h
  · -- The `<initial>` above has been treated and is no longer there.
    have hnot : ¬ q ++ [0] <+: i := by
      intro hpre
      rcases TreePath.below_or_eq_of_prefix hpre with heq | hb
      · rw [← heq] at htag
        rcases (hg.isCompound_iff.mp hcomp).1 with h | h <;> simp [h] at htag
      · rcases hg.tag_of_below (mem_states_of_compound hcomp) hb with h | h | h <;> simp [h] at htag
    have hlt : q ++ [0] < i := TreePath.first_child_lt hiq hnot
    rcases hW.kind _ hmem with h | h | h
    · simp at h
    · exact h.tag_ne_initial htag
    · exact not_mem_of_lt hsorted hlt h.2.1
  · exact hnone ⟨n, h n hn, hni⟩

theorem grow (hg : d.Grammar) (hrest : ∀ s ∈ d.states, i < s → s ∈ rest) {E' : Finset TreePath} (hsub : E ⊆ E')
    (hinit : i ∈ E → d.tag? i ≠ some .initial)
    (hnew : ∀ e ∈ E', e ∉ E → i ∈ E ∧ (d.isParallel i = true ∧ d.ProperChild i e ∨ d.InForce Explicit Fresh i ∧
      (e = i ++ [0] ∧ d.tag? e = some .initial ∧ d.defaultTargets i = d.getTargetStates (e, 0) ∨
        d.ProperState e ∧ e.Below i ∧ e ∈ d.defaultTargets i)))
    (hpending : ∀ e ∈ E', e ∉ E → ∀ a, e.Below a → a.Below i → a ∉ E' → d.isParallel a.parent = true)
    (hregion : i ∈ E → d.isParallel i = true → ∀ c, d.ProperChild i c → c ∈ E')
    (hdefault : i ∈ E → d.InForce Explicit Fresh i →
      i ++ [0] ∈ E' ∧ d.tag? (i ++ [0]) = some .initial ∨ ∀ n ∈ d.defaultTargets i, n ∈ E') :
    Walk d Explicit Fresh E' rest := by
  -- What is new lies below the state at hand and is still to come.
  have hbelow : ∀ e ∈ E', e ∉ E → e.Below i ∧ e ∈ d.states := by
    intro e he heE
    obtain ⟨-, ⟨-, h⟩ | ⟨-, ⟨rfl, htag, -⟩ | h⟩⟩ := hnew e he heE
    · exact ⟨h.below, h.mem_states⟩
    · exact ⟨TreePath.below_of_parent_eq (by simp) (TreePath.parent_concat i 0), mem_states_of_tag htag⟩
    · exact ⟨h.2.1, h.1.mem_states⟩
  have hold : ∀ q ∈ E', q ∉ rest → q ∈ E := by
    intro q hq hmem
    by_contra hqE
    exact hmem (hrest q (hbelow q hq hqE).2 (hbelow q hq hqE).1.lt)
  refine ⟨?_, ?_, fun t ht => hsub (hW.explicit t ht), ?_, ?_, ?_⟩
  · intro e he
    by_cases heE : e ∈ E
    · rcases hW.kind e heE with h | h | ⟨htag, hmem, heq, hpar, hforce⟩
      · exact Or.inl h
      · exact Or.inr (Or.inl h)
      · refine Or.inr (Or.inr ⟨htag, ?_, heq, fun h => hpar (List.mem_cons_of_mem i h), hforce⟩)
        rcases List.mem_cons.mp hmem with rfl | hmem
        · exact absurd htag (hinit heE)
        · exact hmem
    · obtain ⟨-, ⟨-, h⟩ | ⟨hforce, ⟨rfl, htag, hdef⟩ | h⟩⟩ := hnew e he heE
      · exact Or.inr (Or.inl h.2.2)
      · obtain ⟨hb, hmem⟩ := hbelow _ he heE
        rw [TreePath.parent_concat]
        exact Or.inr (Or.inr ⟨htag, hrest _ hmem hb.lt, rfl, head_not_mem hsorted, hforce, hdef⟩)
      · exact Or.inr (Or.inl h.1)
  · intro e he hne
    by_cases heE : e ∈ E
    · rcases hW.origin e heE hne with h | ⟨q, hq, h⟩ | ⟨q, hq, hmem, h⟩
      · exact Or.inl h
      · exact Or.inr (Or.inl ⟨q, hsub hq, h⟩)
      · exact Or.inr (Or.inr ⟨q, hsub hq, fun hm => hmem (List.mem_cons_of_mem i hm), h⟩)
    · obtain ⟨hi, h | ⟨hforce, h⟩⟩ := hnew e he heE
      · exact Or.inr (Or.inl ⟨i, hsub hi, h⟩)
      · refine Or.inr (Or.inr ⟨i, hsub hi, head_not_mem hsorted, hforce, (hbelow e he heE).1, ?_⟩)
        rcases h with ⟨rfl, htag, -⟩ | h
        · exact Or.inl ⟨htag, TreePath.parent_concat i 0⟩
        · exact Or.inr ⟨e, h.2.2, List.prefix_refl e⟩
  · intro e he a ha hnot
    by_cases heE : e ∈ E
    · obtain ⟨hne, hpar, hmem⟩ := hW.pending e heE a ha fun h => hnot (hsub h)
      refine ⟨hne, hpar, ?_⟩
      rcases List.mem_cons.mp hmem with heq | hmem
      · -- The parallel at hand has got its regions.
        have hia : a.Below i := TreePath.below_of_parent_eq hne heq
        have hi : i ∈ E := by
          by_contra hi
          exact lt_irrefl i (hW.lt_of_missing hsorted heE (ha.trans hia) hi)
        have hproper := (hg.proper_of_below (hW.mem_states e heE) ha).resolve_left hne
        exact absurd (hregion hi (heq ▸ hpar) a ⟨hne, heq, hproper⟩) hnot
      · exact hmem
    · have hi := (hnew e he heE).1
      obtain ⟨hei, hmem⟩ := hbelow e he heE
      have hai : a.Below i := by
        rcases TreePath.comparable ha.1 hei.1 with rfl | h | h
        · exact absurd (hsub hi) hnot
        · exact h
        · exact absurd (hsub (hW.ancestor_mem hsorted hi h)) hnot
      have hne : a ≠ [] := by
        rintro rfl
        exact TreePath.not_nil_below i hai
      have hpar := hpending e he heE a ha hai hnot
      refine ⟨hne, hpar, ?_⟩
      have hstate : a.parent ∈ d.states :=
        mem_states_of_above ((TreePath.below_parent hne).1.trans ha.1) hmem
      rcases TreePath.below_or_eq_of_prefix (TreePath.prefix_parent_of_below hai) with heq | hb
      · have hproper := (hg.proper_of_below hmem ha).resolve_left hne
        exact absurd (hregion hi (heq ▸ hpar) a ⟨hne, heq, hproper⟩) hnot
      · exact hrest _ hstate hb.lt
  · intro q hq hmem hpar c hc
    have hqE := hold q hq hmem
    by_cases hqi : q = i
    · subst hqi
      exact hregion hqE hpar c hc
    · exact hsub (hW.regions q hqE (by simp [hqi, hmem]) hpar c hc)
  · intro q hq hmem hforce
    have hqE := hold q hq hmem
    by_cases hqi : q = i
    · subst hqi
      exact hdefault hqE hforce
    · rcases hW.defaults q hqE (by simp [hqi, hmem]) hforce with h | h
      · exact Or.inl ⟨hsub h.1, h.2⟩
      · exact Or.inr fun n hn => hsub (h n hn)

theorem expand (hg : d.Grammar) (hrest : ∀ s ∈ d.states, i < s → s ∈ rest)
    (htargets : ∀ p, d.isCompound p = true → ∀ n ∈ d.defaultTargets p, d.ProperState n ∧ n.Below p) {E' : Finset TreePath}
    (hi : i ∈ E) (htag : d.tag? i = some .initial)
    (hE' : ∀ x, x ∈ E' ↔ x ∈ E ∧ x ≠ i ∨ ∃ s ∈ d.getTargetStates (i, 0), x <+: s) : Walk d Explicit Fresh E' rest := by
  have hroot : i ≠ [] := by
    rintro rfl
    rw [(hg.root []).mpr rfl] at htag
    cases htag
  obtain ⟨hfirst, hpar, hforce, hdef⟩ : i = i.parent ++ [0] ∧ i.parent ∉ i :: rest ∧ d.InForce Explicit Fresh i.parent ∧
      d.defaultTargets i.parent = d.getTargetStates (i, 0) := by
    rcases hW.kind i hi with h | h | h
    · exact absurd h hroot
    · exact absurd htag h.tag_ne_initial
    · exact h.2.2
  have hleaf : ∀ {x : TreePath}, x ∈ d.states → ¬ x.Below i := by
    intro x hx hb
    rcases hg.tag_of_below hx hb with h | h | h <;> simp [h] at htag
  have hspec := fun s hs => htargets i.parent hforce.compound s (hdef ▸ hs)
  have hkeep : ∀ {x : TreePath}, x ∈ E → d.tag? x ≠ some .initial → x ∈ E' := by
    intro x hx hnot
    refine (hE' x).mpr (Or.inl ⟨hx, ?_⟩)
    rintro rfl
    exact hnot htag
  have hproper : ∀ {x s : TreePath}, s ∈ d.getTargetStates (i, 0) → x <+: s → x = [] ∨ d.ProperState x := by
    intro x s hs hxs
    rcases TreePath.below_or_eq_of_prefix hxs with rfl | hb
    · exact Or.inr (hspec s hs).1
    · exact hg.proper_of_below (hspec s hs).1.mem_states hb
  have hmember : ∀ {x : TreePath}, x ∈ E' → x ∈ E ∧ x ≠ i ∨
      x ∉ E ∧ x.Below i.parent ∧ d.ProperState x ∧ ∃ s ∈ d.getTargetStates (i, 0), x <+: s := by
    intro x hx
    rcases (hE' x).mp hx with h | ⟨s, hs, hxs⟩
    · exact Or.inl h
    by_cases hxE : x ∈ E
    · refine Or.inl ⟨hxE, ?_⟩
      rintro rfl
      rcases hproper hs hxs with h | h
      · exact hroot h
      · exact h.tag_ne_initial htag
    · have hparent := hW.ancestor_mem hsorted hi (TreePath.below_parent hroot)
      have hb : x.Below i.parent := by
        rcases TreePath.comparable hxs (hspec s hs).2.1 with rfl | h | h
        · exact absurd hparent hxE
        · exact h
        · exact absurd (hW.ancestor_mem hsorted hi ((TreePath.below_parent hroot).trans h)) hxE
      have hne : x ≠ [] := by
        rintro rfl
        exact TreePath.not_nil_below _ hb
      exact Or.inr ⟨hxE, hb, (hproper hs hxs).resolve_left hne, s, hs, hxs⟩
  have hold : ∀ {q : TreePath}, q ∈ E' → q ∉ rest → q ∈ E ∧ q ∉ i :: rest := by
    intro q hq hmem
    rcases hmember hq with ⟨h, hne⟩ | ⟨-, hb, hp, -⟩
    · exact ⟨h, by simp [hne, hmem]⟩
    · -- What is new stands behind the `<initial>`.
      refine absurd (hrest q hp.mem_states ?_) hmem
      rw [hfirst]
      refine TreePath.first_child_lt hb fun hpre => ?_
      rw [← hfirst] at hpre
      rcases TreePath.below_or_eq_of_prefix hpre with rfl | h
      · exact hp.tag_ne_initial htag
      · exact hleaf hp.mem_states h
  refine ⟨?_, ?_, ?_, ?_, ?_, ?_⟩
  · intro e he
    rcases hmember he with ⟨h, hne⟩ | ⟨-, -, h, -⟩
    · rcases hW.kind e h with h | h | ⟨htag, hmem, heq, hpar, hforce⟩
      · exact Or.inl h
      · exact Or.inr (Or.inl h)
      · have hmem' : e ∈ rest := (List.mem_cons.mp hmem).resolve_left hne
        exact Or.inr (Or.inr ⟨htag, hmem', heq, fun h => hpar (List.mem_cons_of_mem i h), hforce⟩)
    · exact Or.inr (Or.inl h)
  · intro e he hne
    rcases hmember he with ⟨h, -⟩ | ⟨-, hb, -, s, hs, hes⟩
    · rcases hW.origin e h hne with h | ⟨q, hq, hqp, hc⟩ | ⟨q, hq, hmem, hqf, h⟩
      · exact Or.inl h
      · refine Or.inr (Or.inl ⟨q, hkeep hq ?_, hqp, hc⟩)
        simp [isParallel_iff.mp hqp]
      · refine Or.inr (Or.inr ⟨q, hkeep hq ?_, fun h => hmem (List.mem_cons_of_mem i h), hqf, h⟩)
        rcases (hg.isCompound_iff.mp hqf.compound).1 with h | h <;> simp [h]
    · have hparent := hW.ancestor_mem hsorted hi (TreePath.below_parent hroot)
      refine Or.inr (Or.inr ⟨i.parent, hkeep hparent ?_, fun h => hpar (List.mem_cons_of_mem i h), hforce, hb, Or.inr ?_⟩)
      · rcases (hg.isCompound_iff.mp hforce.compound).1 with h | h <;> simp [h]
      · exact ⟨s, hdef ▸ hs, hes⟩
  · intro t ht
    refine (hE' t).mpr (Or.inl ⟨hW.explicit t ht, ?_⟩)
    rintro rfl
    exact hforce.explicit ht (TreePath.below_parent hroot)
  · intro e he a ha hnot
    rcases (hE' e).mp he with ⟨h, -⟩ | ⟨s, hs, hes⟩
    · have haE : a ∉ E := by
        intro haE
        have : a = i := by
          by_contra hne
          exact hnot ((hE' a).mpr (Or.inl ⟨haE, hne⟩))
        exact hleaf (hW.mem_states e h) (this ▸ ha)
      obtain ⟨hne, hap, hmem⟩ := hW.pending e h a ha haE
      refine ⟨hne, hap, (List.mem_cons.mp hmem).resolve_left ?_⟩
      intro heq
      rw [heq, isParallel_iff, htag] at hap
      cases hap
    · exact absurd ((hE' a).mpr (Or.inr ⟨s, hs, ha.1.trans hes⟩)) hnot
  · intro q hq hmem hqp c hc
    obtain ⟨hqE, hmem'⟩ := hold hq hmem
    exact hkeep (hW.regions q hqE hmem' hqp c hc) hc.2.2.tag_ne_initial
  · intro q hq hmem hqf
    obtain ⟨hqE, hmem'⟩ := hold hq hmem
    rcases hW.defaults q hqE hmem' hqf with ⟨h, h'⟩ | h
    · by_cases heq : q ++ [0] = i
      · right
        intro n hn
        have hqi : q = i.parent := by rw [← heq, TreePath.parent_concat]
        rw [hqi, hdef] at hn
        exact (hE' n).mpr (Or.inr ⟨n, hn, List.prefix_refl n⟩)
      · exact Or.inl ⟨(hE' _).mpr (Or.inl ⟨h, heq⟩), h'⟩
    · exact Or.inr fun n hn => hkeep (h n hn) (htargets q hqf.compound n hn).1.tag_ne_initial

end Walk

end FastMicroStep

end Uscxml
