import Uscxml.Legal

/-!
# Default entry

A compound state that is entered while nothing below it is asked for enters its default targets: what its `initial`
attribute names, else the targets of its `<initial>`, else its first child. With them come the states in between, the
regions of the parallels, and the default targets of the compound states that get none of the former. Nothing here depends
on which implementation finds these states.
-/

namespace Uscxml

variable {β : Type}

namespace Document

def defaultTargets (d : Document β) (p : TreePath) : List TreePath :=
  match (d.elem? p).bind (·.initial) with
  | some ids => ids.filterMap d.getState
  | none =>
    match (d.children p).filter fun c => d.tag? c = some .initial with
    | init :: _ => d.getTargetStates (init, 0)
    | [] => (d.getChildStates p true).head?.toList

/-- The default targets of `s`, their ancestors below `s`, and the regions of the parallels among these. -/
inductive Direct (d : Document β) (s : TreePath) : TreePath → Prop where
  | named {n : TreePath} : n ∈ d.defaultTargets s → Direct d s n
  | ancestor {n x : TreePath} : n ∈ d.defaultTargets s → n.Below x → x.Below s → Direct d s x
  | region {q c : TreePath} : Direct d s q → d.isParallel q = true → d.ProperChild q c → Direct d s c

/-- What the default entry of `s` enters below `s`. -/
inductive ByDefault (d : Document β) : TreePath → TreePath → Prop where
  | direct {s x : TreePath} : d.Direct s x → ByDefault d s x
  | completion {s p x : TreePath} : d.Direct s p → d.isCompound p = true → (∀ n ∈ d.defaultTargets s, ¬ n.Below p) →
      ByDefault d p x → ByDefault d s x

/-- The default entry of `p` is in force: the compound state `p` is entered anew, and neither a target nor a default target
that is in force above `p` lies below `p`. -/
def InForce (d : Document β) (Explicit Fresh : TreePath → Prop) (p : TreePath) : Prop :=
  d.isCompound p = true ∧ Fresh p ∧ (∀ t, Explicit t → ¬ t.Below p) ∧
    ∀ q, (_ : p.Below q) → InForce d Explicit Fresh q → ∀ n ∈ d.defaultTargets q, ¬ n.Below p
termination_by p.length
decreasing_by exact TreePath.Below.length_lt ‹_›

/-- An entry set in which every member has a reason, and which holds what its members ask for. -/
structure EntersByDefault (d : Document β) (Explicit Fresh : TreePath → Prop) (E : Finset TreePath) : Prop where
  origin : ∀ e ∈ E, e ≠ [] → (∃ t, Explicit t ∧ e <+: t) ∨ (∃ q ∈ E, d.isParallel q = true ∧ d.ProperChild q e) ∨
    ∃ q ∈ E, d.InForce Explicit Fresh q ∧ e.Below q ∧ ∃ n ∈ d.defaultTargets q, e <+: n
  closed : ∀ e ∈ E, ∀ a, e.Below a → a ∈ E
  regions : ∀ q ∈ E, d.isParallel q = true → ∀ c, d.ProperChild q c → c ∈ E
  defaults : ∀ q ∈ E, d.InForce Explicit Fresh q → ∀ n ∈ d.defaultTargets q, n ∈ E

variable {d : Document β} {Explicit Fresh : TreePath → Prop}

namespace InForce

variable {p : TreePath} (h : d.InForce Explicit Fresh p)

include h

theorem compound : d.isCompound p = true := by
  rw [InForce] at h
  exact h.1

theorem fresh : Fresh p := by
  rw [InForce] at h
  exact h.2.1

theorem explicit {t : TreePath} (ht : Explicit t) : ¬ t.Below p := by
  rw [InForce] at h
  exact h.2.2.1 t ht

theorem outer {q n : TreePath} (hpq : p.Below q) (hq : d.InForce Explicit Fresh q) (hn : n ∈ d.defaultTargets q) :
    ¬ n.Below p := by
  rw [InForce] at h
  exact h.2.2.2 q hpq hq n hn

end InForce

theorem ne_of_parallel_of_compound {p q : TreePath} (hp : d.isParallel p = true) (hq : d.isCompound q = true) : p ≠ q := by
  rintro rfl
  simp [isCompound, hp] at hq

theorem ByDefault.region {s q c : TreePath} (h : d.ByDefault s q) (hq : d.isParallel q = true) (hc : d.ProperChild q c) :
    d.ByDefault s c := by
  induction h with
  | direct h => exact .direct (.region h hq hc)
  | completion hp hcomp hnone _ ih => exact .completion hp hcomp hnone (ih hq hc)

/-- Between a state whose default is in force and what comes directly with its default targets no default is in force. -/
theorem Direct.not_inForce_between {s x p : TreePath} (h : d.Direct s x) (hs : d.InForce Explicit Fresh s)
    (hxp : x.Below p) (hps : p.Below s) : ¬ d.InForce Explicit Fresh p := by
  intro hp
  induction h with
  | named hn => exact hp.outer hps hs hn hxp
  | ancestor hn hnx _ => exact hp.outer hps hs hn (hnx.trans hxp)
  | @region q c _ hq hc ih =>
    rcases TreePath.below_or_eq_of_prefix (TreePath.prefix_parent_of_below hxp) with heq | hb
    · rw [hc.2.1] at heq
      exact ne_of_parallel_of_compound hq hp.compound heq
    · rw [hc.2.1] at hb
      exact ih hb

section Below

variable (hbelow : ∀ p, d.isCompound p = true → ∀ n ∈ d.defaultTargets p, n.Below p)

include hbelow

theorem below_of_direct {s x : TreePath} (h : d.Direct s x) (hs : d.isCompound s = true) : x.Below s := by
  induction h with
  | named hn => exact hbelow s hs _ hn
  | ancestor _ _ hx => exact hx
  | region _ _ hc ih => exact hc.below.trans ih

variable (hfresh : ∀ p x, Fresh p → x.Below p → Fresh x)

include hfresh

/-- A compound state that comes directly and gets none of the default targets is entered by its own default. -/
theorem Direct.inForce {s p : TreePath} (h : d.Direct s p) (hs : d.InForce Explicit Fresh s)
    (hp : d.isCompound p = true) (hnone : ∀ n ∈ d.defaultTargets s, ¬ n.Below p) : d.InForce Explicit Fresh p := by
  have hps := below_of_direct hbelow h hs.compound
  rw [InForce]
  refine ⟨hp, hfresh s p hs.fresh hps, ?_, ?_⟩
  · intro t ht htp
    exact hs.explicit ht (htp.trans hps)
  · intro q hpq hq n hn hnp
    rcases TreePath.comparable hpq.1 hps.1 with rfl | hqs | hsq
    · exact hnone n hn hnp
    · exact h.not_inForce_between hs hpq hqs hq
    · exact hs.outer hsq hq hn (hnp.trans hps)

/-- What comes directly with the default targets of an entered compound state is entered. -/
theorem ByDefault.inner {s q x : TreePath} (h : d.ByDefault s q) (hs : d.InForce Explicit Fresh s)
    (hq : d.InForce Explicit Fresh q) (hx : d.Direct q x) : d.ByDefault s x := by
  induction h with
  | @direct s q h =>
    have hqs := below_of_direct hbelow h hs.compound
    refine .completion h hq.compound ?_ (.direct hx)
    intro n hn
    exact hq.outer hqs hs hn
  | @completion s p q hp hcomp hnone _ ih =>
    exact .completion hp hcomp hnone (ih (hp.inForce hbelow hfresh hs hcomp hnone) hq hx)

namespace EntersByDefault

variable {E : Finset TreePath} (hE : d.EntersByDefault Explicit Fresh E)

include hE

omit hbelow hfresh in
theorem mem_of_direct {s x : TreePath} (h : d.Direct s x) (hsE : s ∈ E) (hs : d.InForce Explicit Fresh s) : x ∈ E := by
  induction h with
  | named hn => exact hE.defaults s hsE hs _ hn
  | ancestor hn hnx _ => exact hE.closed _ (hE.defaults s hsE hs _ hn) _ hnx
  | region _ hq hc ih => exact hE.regions _ ih hq _ hc

theorem mem_of_byDefault {s x : TreePath} (h : d.ByDefault s x) (hsE : s ∈ E) (hs : d.InForce Explicit Fresh s) :
    x ∈ E := by
  induction h with
  | direct h => exact hE.mem_of_direct h hsE hs
  | completion hp hcomp hnone _ ih =>
    exact ih (hE.mem_of_direct hp hsE hs) (hp.inForce hbelow hfresh hs hcomp hnone)

/-- A member below a state whose default is in force is there by default. The induction is on its depth, and the reason of
the member lies above it. -/
theorem byDefault_of_mem {s x : TreePath} (hxE : x ∈ E) (hs : d.InForce Explicit Fresh s) (hx : x.Below s) :
    d.ByDefault s x := by
  induction hn : x.length using Nat.strong_induction_on generalizing x with
  | _ n ih =>
    have hne : x ≠ [] := by
      rintro rfl
      exact TreePath.not_nil_below s hx
    rcases hE.origin x hxE hne with ⟨t, ht, hxt⟩ | ⟨q, hqE, hq, hc⟩ | ⟨q, hqE, hq, hxq, m, hm, hxm⟩
    · exact absurd (TreePath.Below.prefix_trans hxt hx) (hs.explicit ht)
    · -- A region: the parallel lies below the compound state.
      have hlt := hc.below.length_lt
      rcases TreePath.below_or_eq_of_prefix (TreePath.prefix_parent_of_below hx) with heq | hb
      · rw [hc.2.1] at heq
        exact absurd heq (ne_of_parallel_of_compound hq hs.compound)
      · rw [hc.2.1] at hb
        exact (ih q.length (hn ▸ hlt) hqE hb rfl).region hq hc
    · have hdirect : d.Direct q x := by
        rcases TreePath.below_or_eq_of_prefix hxm with rfl | hmx
        · exact .named hm
        · exact .ancestor hm hmx hxq
      rcases TreePath.comparable hxq.1 hx.1 with rfl | hqs | hsq
      · exact .direct hdirect
      · exact (ih q.length (hn ▸ hxq.length_lt) hqE hqs rfl).inner hbelow hfresh hs hq hdirect
      · exact absurd (TreePath.Below.prefix_trans hxm hx) (hs.outer hsq hq hm)

/-- Below a state whose default is in force exactly the states of its default entry are entered. -/
theorem mem_iff_byDefault {s x : TreePath} (hsE : s ∈ E) (hs : d.InForce Explicit Fresh s) (hx : x.Below s) :
    x ∈ E ↔ d.ByDefault s x :=
  ⟨fun h => hE.byDefault_of_mem hbelow hfresh h hs hx, fun h => hE.mem_of_byDefault hbelow hfresh h hsE hs⟩

end EntersByDefault

end Below

end Document

end Uscxml
