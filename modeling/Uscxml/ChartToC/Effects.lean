import Uscxml.ChartToC.Step
import Uscxml.Lib.Fold

/-!
# The effects of the blocks of `uscxml_step`

Content and transitions change the environment only. What is left of a microstep is what its loops do to the
configuration, and the done events that the entered final states raise.
-/

namespace Uscxml

namespace ChartToC

open FastMicroStep (Entry Microstep)

variable {ω : Type} (M : Machine) (f : Functions ω)

def doneAct? : Act → Option TreePath
  | .raiseDone state => some state
  | _ => none

def doneActs (acts : List Act) : List TreePath := acts.filterMap doneAct?

@[simp] theorem doneActs_append (l l' : List Act) : doneActs (l ++ l') = doneActs l ++ doneActs l' := by
  simp [doneActs]

/-- From `c` to `c'` only the environment, the log and the error changed, and no done event was raised. -/
structure Quiet (c c' : Ctx ω) : Prop where
  flags : c'.flags = c.flags
  config : c'.config = c.config
  history : c'.history = c.history
  initializedData : c'.initializedData = c.initializedData
  done : doneActs c'.acts = doneActs c.acts

namespace Quiet

theorem refl (c : Ctx ω) : Quiet c c := ⟨rfl, rfl, rfl, rfl, rfl⟩

theorem trans {c c' c'' : Ctx ω} (h : Quiet c c') (h' : Quiet c' c'') : Quiet c c'' where
  flags := h'.flags.trans h.flags
  config := h'.config.trans h.config
  history := h'.history.trans h.history
  initializedData := h'.initializedData.trans h.initializedData
  done := h'.done.trans h.done

theorem foldl {α : Type} {g : Ctx ω → α → Ctx ω} (h : ∀ c a, Quiet c (g c a)) (l : List α) (c : Ctx ω) :
    Quiet c (l.foldl g c) := by
  induction l generalizing c with
  | nil => exact refl c
  | cons a l ih => exact (h c a).trans (ih (g c a))

theorem act {a : Act} (ha : doneAct? a = none) (c : Ctx ω) : Quiet c (act a c) where
  flags := rfl
  config := rfl
  history := rfl
  initializedData := rfl
  done := by simp [ChartToC.act, doneActs, ha]

end Quiet

theorem quiet_exec (r : Ref) (c : Ctx ω) : Quiet c (exec f r c).2 := by
  have h := Quiet.act (a := .exec r) rfl c
  exact ⟨h.flags, h.config, h.history, h.initializedData, h.done⟩

theorem quiet_execAll (l : List Ref) (c : Ctx ω) : Quiet c (execAll f l c) :=
  Quiet.foldl (fun c r => quiet_exec f r c) l c

theorem quiet_takeTransition (c : Ctx ω) (i : TransId) : Quiet c (takeTransition M f c i) := by
  rw [takeTransition]
  split
  · exact .refl c
  · have h := Quiet.act (a := .take i) rfl c
    simp only
    split
    · exact h
    · rename_i r hr
      have h' := h.trans (quiet_exec f r (act (.take i) c))
      exact ⟨h'.flags, h'.config, h'.history, h'.initializedData, h'.done⟩

/-! ### Exits -/

theorem exitState_spec (X : Finset TreePath) (c : Ctx ω) (i : TreePath) :
    Quiet { c with config := if i ∈ X then c.config.erase i else c.config } (exitState M f X c i) := by
  rw [exitState]
  by_cases hX : i ∈ X
  · by_cases hC : i ∈ c.config
    · have h := (Quiet.act (a := .exit i) rfl c).trans (quiet_execAll f (M.state i).onExit (act (.exit i) c))
      rw [if_pos hX, if_pos ⟨hX, hC⟩]
      refine ⟨h.flags, ?_, h.history, h.initializedData, h.done⟩
      simp only [h.config]
    · rw [if_pos hX, if_neg fun h => hC h.2, Finset.erase_eq_of_notMem hC]
      exact .refl c
  · rw [if_neg hX, if_neg fun h => hX h.1]
    exact .refl c

theorem foldl_exitState_spec (X : Finset TreePath) (l : List TreePath) (c : Ctx ω) :
    Quiet { c with config := c.config \ (X ∩ l.toFinset) } (l.foldl (exitState M f X) c) := by
  induction l generalizing c with
  | nil => simpa using Quiet.refl c
  | cons i l ih =>
    have hi := exitState_spec M f X c i
    have h := ih (exitState M f X c i)
    refine ⟨h.flags.trans hi.flags, ?_, h.history.trans hi.history, h.initializedData.trans hi.initializedData,
      h.done.trans hi.done⟩
    rw [List.foldl_cons, h.config]
    simp only [hi.config]
    ext p
    by_cases hp : p = i
    · subst hp
      split <;> simp_all
    · split <;> simp [hp]

theorem exitStates_spec (X : Finset TreePath) (c : Ctx ω) :
    Quiet { c with config := FastMicroStep.remaining M.tables X c.config } (exitStates M f X c) := by
  have h := foldl_exitState_spec M f X M.states.reverse c
  rw [List.toFinset_reverse] at h
  exact h

theorem takeTransitions_spec (transSet : Finset TransId) (c : Ctx ω) : Quiet c (takeTransitions M f transSet c) :=
  Quiet.foldl (quiet_takeTransition M f) _ c

/-! ### Entries -/

/-- The parallels above `i` that have nothing left in `tmp_states`. -/
def doneParallels (C : Finset TreePath) (i : TreePath) : List TreePath :=
  M.states.filter fun j => (M.state j).type = .parallel ∧ j ∈ (M.state i).ancestors ∧ tmpStates M C j = ∅

/-- Is the first byte of the ancestors of `i` the one of the root? -/
def looksTopLevel (i : TreePath) : Bool := (M.ancestorBytes i).getD 0 0 = 0x01

structure HandlesFinal (i : TreePath) (c c' : Ctx ω) : Prop where
  flags : c'.flags = if looksTopLevel M i then { c.flags with topLevelFinal := true } else c.flags
  config : c'.config = c.config
  history : c'.history = c.history
  initializedData : c'.initializedData = c.initializedData
  err : c'.err = c.err
  done : doneActs c'.acts = doneActs c.acts ++
    ((if looksTopLevel M i then [] else [(M.state i).parent]) ++ doneParallels M c.config i)

theorem foldl_raiseParallel_spec (i : TreePath) (l : List TreePath) (c : Ctx ω) :
    (l.foldl (raiseParallel M f i) c).flags = c.flags ∧ (l.foldl (raiseParallel M f i) c).config = c.config ∧
      (l.foldl (raiseParallel M f i) c).history = c.history ∧
      (l.foldl (raiseParallel M f i) c).initializedData = c.initializedData ∧
      (l.foldl (raiseParallel M f i) c).err = c.err ∧
      doneActs (l.foldl (raiseParallel M f i) c).acts = doneActs c.acts ++
        l.filter fun j => (M.state j).type = .parallel ∧ j ∈ (M.state i).ancestors ∧ tmpStates M c.config j = ∅ := by
  induction l generalizing c with
  | nil => simp
  | cons j l ih =>
    obtain ⟨h₁, h₂, h₃, h₄, h₅, h₆⟩ := ih (raiseParallel M f i c j)
    have hround : (raiseParallel M f i c j).flags = c.flags ∧ (raiseParallel M f i c j).config = c.config ∧
        (raiseParallel M f i c j).history = c.history ∧
        (raiseParallel M f i c j).initializedData = c.initializedData ∧ (raiseParallel M f i c j).err = c.err ∧
        doneActs (raiseParallel M f i c j).acts = doneActs c.acts ++
          if (M.state j).type = .parallel ∧ j ∈ (M.state i).ancestors ∧ tmpStates M c.config j = ∅ then [j] else [] := by
      rw [raiseParallel]
      by_cases hj : (M.state j).type = .parallel ∧ j ∈ (M.state i).ancestors
      · by_cases htmp : tmpStates M c.config j = ∅
        · simp [hj, htmp, raiseDoneEvent, act, doneActs, doneAct?]
        · simp [hj, htmp]
      · rw [if_neg hj, if_neg fun h => hj ⟨h.1, h.2.1⟩]
        simp
    obtain ⟨r₁, r₂, r₃, r₄, r₅, r₆⟩ := hround
    refine ⟨h₁.trans r₁, h₂.trans r₂, h₃.trans r₃, h₄.trans r₄, h₅.trans r₅, ?_⟩
    rw [List.foldl_cons, h₆, r₂, r₆, List.append_assoc, List.filter_cons]
    congr 1
    split <;> simp_all

theorem handleFinal_spec (i : TreePath) (c : Ctx ω) : HandlesFinal M i c (handleFinal M f i c) := by
  have h := fun c => foldl_raiseParallel_spec M f i M.states c
  cases htop : looksTopLevel M i with
  | true =>
    obtain ⟨h₁, h₂, h₃, h₄, h₅, h₆⟩ := h { c with flags := { c.flags with topLevelFinal := true } }
    have heq : handleFinal M f i c =
        M.states.foldl (raiseParallel M f i) { c with flags := { c.flags with topLevelFinal := true } } := by
      rw [looksTopLevel, decide_eq_true_iff] at htop
      rw [handleFinal, if_pos htop]
    rw [← heq] at h₁ h₂ h₃ h₄ h₅ h₆
    exact ⟨by rw [h₁, htop, if_pos rfl], h₂, h₃, h₄, h₅, by rw [h₆, htop]; rfl⟩
  | false =>
    obtain ⟨h₁, h₂, h₃, h₄, h₅, h₆⟩ := h (raiseDoneEvent f (M.state i).parent (M.state i).doneData c)
    have heq : handleFinal M f i c = M.states.foldl (raiseParallel M f i)
        (raiseDoneEvent f (M.state i).parent (M.state i).doneData c) := by
      rw [looksTopLevel, decide_eq_false_iff_not] at htop
      rw [handleFinal, if_neg htop]
    rw [← heq] at h₁ h₂ h₃ h₄ h₅ h₆
    refine ⟨by rw [h₁, htop]; rfl, h₂, h₃, h₄, h₅, ?_⟩
    have hdone : doneActs (raiseDoneEvent f (M.state i).parent (M.state i).doneData c).acts =
        doneActs c.acts ++ [(M.state i).parent] := by simp [raiseDoneEvent, act, doneActs, doneAct?]
    rw [h₆, hdone, htop, List.append_assoc]
    rfl

theorem initializeData_spec (i : TreePath) (c : Ctx ω) :
    Quiet { c with initializedData := insert i c.initializedData } (initializeData M f i c) := by
  rw [initializeData]
  split
  · cases hinit : f.execContentInit with
    | none => exact ⟨rfl, rfl, rfl, rfl, rfl⟩
    | some init =>
      have h := Quiet.act (a := .initData (M.state i).data) rfl c
      simp only
      split
      · exact ⟨h.flags, h.config, h.history, rfl, h.done⟩
      · exact ⟨rfl, rfl, rfl, rfl, rfl⟩
  · rename_i hmem
    rw [Finset.insert_eq_of_mem (by simpa using hmem)]
    exact .refl c

/-- The state is entered: then the code for final states follows, unless a transition below it has failed. -/
theorem enterState_of_enters {e : Entry} {c : Ctx ω} {i : TreePath} (herr : c.err = false)
    (h : FastMicroStep.enters M.tables e.entrySet c.config i) :
    ∃ c', Quiet { c with config := insert i c.config, initializedData := insert i c.initializedData } c' ∧
      enterState M f e c i = if c'.err = false ∧ (M.state i).type = .final then handleFinal M f i c' else c' := by
  have hentered := Quiet.act (a := .enter i) rfl { c with config := insert i c.config }
  have hdata := initializeData_spec M f i (act (.enter i) { c with config := insert i c.config })
  have hblocks := quiet_execAll f (M.state i).onEntry
    (initializeData M f i (act (.enter i) { c with config := insert i c.config }))
  have htaken := Quiet.foldl (quiet_takeTransition M f) (pseudoTransitions M e.transSet i) (execAll f (M.state i).onEntry
    (initializeData M f i (act (.enter i) { c with config := insert i c.config })))
  have hall := hdata.trans (hblocks.trans htaken)
  refine ⟨_, ⟨hall.flags.trans hentered.flags, hall.config.trans hentered.config, hall.history.trans hentered.history,
    hall.initializedData, hall.done.trans hentered.done⟩, ?_⟩
  rw [enterState, if_neg (by simp [herr]), if_pos ⟨h.1, h.2.1, h.2.2⟩]

theorem enterState_of_not {e : Entry} {c : Ctx ω} {i : TreePath}
    (h : c.err = true ∨ ¬ FastMicroStep.enters M.tables e.entrySet c.config i) : enterState M f e c i = c := by
  rw [enterState]
  rcases h with h | h
  · rw [if_pos h]
  · split
    · rfl
    · exact if_neg fun h' => h ⟨h'.1, h'.2.1, h'.2.2⟩

end ChartToC

end Uscxml
