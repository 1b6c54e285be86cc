import Mathlib.Data.List.Basic

/-!
# Computations that leave a trace

A computation changes a state, writes notes and ends in a value or in an error. A specification relates the state
before, the end, the notes and the state behind; there is one rule for every way to put computations together.
-/

structure Outcome (ε ν σ α : Type) where
  result : Except ε α
  notes : List ν
  state : σ

def Traced (ε ν σ α : Type) : Type := σ → Outcome ε ν σ α

namespace Traced

variable {ε ν σ α β : Type}

def pure (a : α) : Traced ε ν σ α := fun s => ⟨.ok a, [], s⟩

/-- The second computation starts where the first one has returned. -/
def bind (x : Traced ε ν σ α) (f : α → Traced ε ν σ β) : Traced ε ν σ β := fun s =>
  match x s with
  | ⟨.error e, notes, s⟩ => ⟨.error e, notes, s⟩
  | ⟨.ok a, notes, s⟩ => ⟨(f a s).result, notes ++ (f a s).notes, (f a s).state⟩

/-- One computation after the other, up to the first error. -/
def all : List (Traced ε ν σ Unit) → Traced ε ν σ Unit
  | [] => pure ()
  | x :: xs => x.bind fun _ => all xs

abbrev Spec (ε ν σ α : Type) := σ → Except ε α → List ν → σ → Prop

def Meets (x : Traced ε ν σ α) (Q : Spec ε ν σ α) : Prop := ∀ s, Q s (x s).result (x s).notes (x s).state

theorem Meets.mono {x : Traced ε ν σ α} {Q Q' : Spec ε ν σ α} (h : x.Meets Q) (hQ : ∀ s r l s', Q s r l s' → Q' s r l s') :
    x.Meets Q' := fun s => hQ _ _ _ _ (h s)

theorem meets_pure {Q : Spec ε ν σ α} {a : α} (h : ∀ s, Q s (.ok a) [] s) : (pure a : Traced ε ν σ α).Meets Q := h

theorem Meets.bind {x : Traced ε ν σ α} {f : α → Traced ε ν σ β} {P : Spec ε ν σ α} {R : α → Spec ε ν σ β}
    {Q : Spec ε ν σ β} (hx : x.Meets P) (hf : ∀ a, (f a).Meets (R a))
    (herror : ∀ s e l s', P s (.error e) l s' → Q s (.error e) l s')
    (hok : ∀ s a l s' r l' s'', P s (.ok a) l s' → R a s' r l' s'' → Q s r (l ++ l') s'') :
    (x.bind f).Meets Q := by
  intro s
  have hs := hx s
  rw [Traced.bind]
  rcases hxs : x s with ⟨result, notes, s'⟩
  rw [hxs] at hs
  cases result with
  | error e => exact herror s e notes s' hs
  | ok a => exact hok s a notes s' _ _ _ hs (hf a s')

/-- A specification that holds of nothing done and is closed under going on. -/
structure Spec.Chains (Q : Spec ε ν σ Unit) : Prop where
  nothing : ∀ s, Q s (.ok ()) [] s
  goOn : ∀ s l s' r l' s'', Q s (.ok ()) l s' → Q s' r l' s'' → Q s r (l ++ l') s''

theorem Spec.Chains.bind {Q : Spec ε ν σ Unit} (hQ : Q.Chains) {x : Traced ε ν σ Unit} {f : Unit → Traced ε ν σ Unit}
    (hx : x.Meets Q) (hf : (f ()).Meets Q) : (x.bind f).Meets Q :=
  hx.bind (fun _ => hf) (fun _ _ _ _ h => h) fun s _ l s' r l' s'' h h' => hQ.goOn s l s' r l' s'' h h'

theorem Spec.Chains.all {Q : Spec ε ν σ Unit} (hQ : Q.Chains) {xs : List (Traced ε ν σ Unit)}
    (h : ∀ x ∈ xs, x.Meets Q) : (all xs).Meets Q := by
  induction xs with
  | nil => exact meets_pure hQ.nothing
  | cons x xs ih =>
    refine hQ.bind (h x List.mem_cons_self) (ih ?_)
    intro y hy
    exact h y (List.mem_cons_of_mem x hy)

end Traced
