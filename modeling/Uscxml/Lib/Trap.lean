import Mathlib.Logic.Basic

/-!
# Computations that raise errors or trap

A computation returns a value, raises an error that its caller can handle, or traps. The rules say when a sequence of
computations traps and when it returns.
-/

/-- Why a computation stops early. -/
inductive Stop (ε φ : Type*) where
  | raised (error : ε)
  | trapped (fault : φ)
  deriving DecidableEq, Repr

/-- A computation with errors in `ε` and faults in `φ`. -/
abbrev Trapping (ε φ α : Type*) := Except (Stop ε φ) α

namespace Trapping

universe u

variable {ε φ : Type*} {α β : Type u}

def raise (error : ε) : Trapping ε φ α := .error (.raised error)

def trap (fault : φ) : Trapping ε φ α := .error (.trapped fault)

def Traps (x : Trapping ε φ α) : Prop := ∃ fault, x = .error (.trapped fault)

def Raises (x : Trapping ε φ α) : Prop := ∃ error, x = .error (.raised error)

@[simp] theorem not_traps_ok (a : α) : ¬ Traps (.ok a : Trapping ε φ α) := by
  rintro ⟨fault, h⟩
  cases h

@[simp] theorem not_traps_pure (a : α) : ¬ Traps (pure a : Trapping ε φ α) := not_traps_ok a

@[simp] theorem not_traps_raise (error : ε) : ¬ Traps (raise error : Trapping ε φ α) := by
  rintro ⟨fault, h⟩
  cases h

@[simp] theorem traps_trap (fault : φ) : Traps (trap fault : Trapping ε φ α) := ⟨fault, rfl⟩

theorem ok_bind (a : α) (f : α → Trapping ε φ β) : ((.ok a : Trapping ε φ α) >>= f) = f a := rfl

/-- A sequence traps where its first part traps, or the second on what the first returns. -/
theorem traps_bind_iff {x : Trapping ε φ α} {f : α → Trapping ε φ β} :
    Traps (x >>= f) ↔ Traps x ∨ ∃ a, x = .ok a ∧ Traps (f a) := by
  cases x with
  | ok a =>
    rw [ok_bind]
    simp
  | error stop =>
    have hbind : ((.error stop : Trapping ε φ α) >>= f) = .error stop := rfl
    rw [hbind]
    simp [Traps]

theorem not_traps_bind {x : Trapping ε φ α} {f : α → Trapping ε φ β} (hx : ¬ Traps x) (hf : ∀ a, ¬ Traps (f a)) :
    ¬ Traps (x >>= f) := by
  rw [traps_bind_iff]
  rintro (h | ⟨a, -, h⟩)
  · exact hx h
  · exact hf a h

theorem traps_map_iff {x : Trapping ε φ α} {f : α → β} : Traps (f <$> x) ↔ Traps x := by
  cases x with
  | ok a => exact iff_of_false (not_traps_ok (f a)) (not_traps_ok a)
  | error stop => simp [Traps, Functor.map, Except.map]

/-- A sequence returns what its second part returns on what the first returns. -/
theorem bind_eq_ok_iff {x : Trapping ε φ α} {f : α → Trapping ε φ β} {b : β} :
    x >>= f = .ok b ↔ ∃ a, x = .ok a ∧ f a = .ok b := by
  cases x with
  | ok a =>
    rw [ok_bind]
    simp
  | error stop =>
    have hbind : ((.error stop : Trapping ε φ α) >>= f) = .error stop := rfl
    rw [hbind]
    simp

theorem raises_or_ok_of_not_traps {x : Trapping ε φ α} (h : ¬ Traps x) : Raises x ∨ ∃ a, x = .ok a := by
  cases x with
  | ok a => exact Or.inr ⟨a, rfl⟩
  | error stop =>
    cases stop with
    | raised error => exact Or.inl ⟨error, rfl⟩
    | trapped fault => exact absurd ⟨fault, rfl⟩ h

theorem Raises.bind {x : Trapping ε φ α} (h : Raises x) (f : α → Trapping ε φ β) : Raises (x >>= f) := by
  obtain ⟨error, rfl⟩ := h
  exact ⟨error, rfl⟩

/-- Two computations that return the same; they may stop for different reasons. -/
def SameValue (x y : Trapping ε φ α) : Prop := ∀ a, x = .ok a ↔ y = .ok a

theorem SameValue.refl (x : Trapping ε φ α) : SameValue x x := fun _ => Iff.rfl

theorem SameValue.bind {x y : Trapping ε φ α} {f g : α → Trapping ε φ β} (h : SameValue x y)
    (hf : ∀ a, x = .ok a → SameValue (f a) (g a)) : SameValue (x >>= f) (y >>= g) := by
  intro b
  rw [bind_eq_ok_iff, bind_eq_ok_iff]
  apply exists_congr
  intro a
  rw [← h a]
  apply and_congr_right
  intro ha
  exact hf a ha b

end Trapping
