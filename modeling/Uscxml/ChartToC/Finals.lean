import Uscxml.ChartToC.Effects
import Uscxml.FastMicroStep.DoneEvents

/-!
# Final states in the generated code

The generated code takes a final state for a top level one when the first byte of its ancestors has the bit of the root
and no other, which says nothing about ancestors whose position is eight or more.
-/

namespace Uscxml

namespace ChartToC

open Document
open FastMicroStep (Entry)

variable {β ω : Type}

/-! ### The types of states -/

section Types

variable {d : Document β} (hf : ∀ p ∈ d.states, (d.elem? p).any (·.finalAttr) = false)

include hf

theorem stateType_final_iff {p : TreePath} : stateType d p = .final ↔ d.tag? p = some .final := by
  constructor
  · intro ht
    by_contra hnot
    have hfinal : d.isFinal p = false := by rwa [← Bool.not_eq_true, FastMicroStep.isFinal_iff hf]
    simp only [stateType, hfinal] at ht
    split at ht
    · cases ht
    simp only [Bool.false_eq_true, if_false] at ht
    split at ht
    · split at ht <;> cases ht
    split at ht
    · cases ht
    split at ht <;> cases ht
  · intro h
    rw [stateType, if_neg (by simp [h]), if_pos ((FastMicroStep.isFinal_iff hf).mpr h)]

theorem stateType_parallel_iff {p : TreePath} : stateType d p = .parallel ↔ d.tag? p = some .parallel := by
  constructor
  · intro ht
    by_contra hnot
    have hpar : d.isParallel p = false := by simpa [isParallel] using hnot
    simp only [stateType, hpar] at ht
    split at ht
    · cases ht
    split at ht
    · cases ht
    split at ht
    · split at ht <;> cases ht
    split at ht <;> cases ht
  · intro h
    have hpar : d.isParallel p = true := isParallel_iff.mpr h
    rw [stateType, if_neg (by simp [h]), if_neg (by simp [FastMicroStep.isFinal_iff hf, h]),
      if_neg (by simp [isHistory, h]), if_neg (by simp [isAtomic, hpar, h]), if_pos hpar]

end Types

/-! ### Top level -/

theorem take_one_above {i : TreePath} : i.take 1 <+: i := List.take_prefix 1 i

theorem parent_eq_nil_iff {i : TreePath} : i.parent = [] ↔ i.length ≤ 1 := by
  rw [TreePath.parent, ← List.length_eq_zero_iff, List.length_dropLast]
  omega

/-- The ancestors of `i` other than the root start with its first child. -/
theorem take_one_above_of_below {i a : TreePath} (h : i.Below a) (ha : a ≠ []) : i.take 1 <+: a := by
  refine List.prefix_of_prefix_length_le take_one_above h.1 ?_
  have hpos := List.length_pos_iff.mpr ha
  rw [List.length_take]
  omega

section TopLevel

variable {d : Document β}

theorem byte_eq_one_iff {byte : Nat} (h : byte < 256) : byte = 1 ↔ ∀ k < 8, byte.testBit k = decide (k = 0) := by
  have hall : ∀ byte < 256, byte = 1 ↔ ∀ k < 8, byte.testBit k = decide (k = 0) := by decide +kernel
  exact hall byte h

theorem idxOf_le_of_getElem {p a : TreePath} {k : Nat} (hp : p ∈ d.states) (ha : d.states[k]? = some a) (h : p <+: a) :
    d.states.idxOf p ≤ k := by
  have hlt := List.idxOf_lt_length_of_mem hp
  have hget : d.states[d.states.idxOf p] = p := List.getElem_idxOf hlt
  by_contra hcon
  obtain ⟨hk, hak⟩ := List.getElem?_eq_some_iff.mp ha
  have hsorted := List.pairwise_iff_getElem.mp d.tree.preorder_pairwise k (d.states.idxOf p) hk hlt (Nat.not_le.mp hcon)
  change d.states[k] < d.states[d.states.idxOf p] at hsorted
  rw [hak, hget] at hsorted
  rcases TreePath.below_or_eq_of_prefix h with rfl | hb
  · exact lt_irrefl _ hsorted
  · exact lt_asymm hsorted hb.lt

theorem looksTopLevel_iff {i : TreePath} (hi : i ∈ d.states) (hne : i ≠ []) :
    looksTopLevel (machine d) i = true ↔ i.parent = [] ∨ 8 ≤ d.states.idxOf (i.take 1) := by
  have hbyte : (ancestorBytes d i).getD 0 0 < 256 := by
    cases hbytes : ancestorBytes d i with
    | nil => decide
    | cons byte bytes =>
      have hmem : byte ∈ ancestorBytes d i := hbytes ▸ List.mem_cons_self
      exact writeCharArrayFrom_lt _ (by decide) (by decide) byte hmem
  have hbits : ∀ k < 8, ((ancestorBytes d i).getD 0 0).testBit k = (d.states[k]?).any fun s => isDescendant i s := by
    intro k hk
    rw [← bitHas_ancestorBytes, bitHas, Nat.div_eq_of_lt hk, Nat.mod_eq_of_lt hk]
  have htop : i.take 1 ∈ d.states := mem_states_of_above take_one_above hi
  change decide ((ancestorBytes d i).getD 0 0 = 0x01) = true ↔ _
  rw [decide_eq_true_iff, byte_eq_one_iff hbyte]
  constructor
  · intro h
    by_contra hcon
    rw [not_or, Nat.not_le] at hcon
    -- The child of the root above `i` has a bit in the first byte.
    have hbelow : i.Below (i.take 1) := by
      refine ⟨take_one_above, fun he => hcon.1 (parent_eq_nil_iff.mpr ?_)⟩
      have := congrArg List.length he
      rw [List.length_take] at this
      omega
    have hget : d.states[d.states.idxOf (i.take 1)]? = some (i.take 1) := List.getElem?_idxOf htop
    have hbit := h _ hcon.2
    rw [hbits _ hcon.2, hget, Option.any_some, isDescendant_iff.mpr hbelow, eq_comm, decide_eq_true_iff] at hbit
    rw [hbit] at hget
    have hroot : i.take 1 = [] := (Option.some.inj hget).symm
    rcases List.take_eq_nil_iff.mp hroot with h | h
    · cases h
    · exact hne h
  · intro h k hk
    rw [hbits k hk]
    cases k with
    | zero =>
      show (some []).any (fun s => isDescendant i s) = _
      rw [Option.any_some, isDescendant_iff.mpr (TreePath.below_nil.mpr hne)]
      rfl
    | succ k =>
      cases hs : d.states[k + 1]? with
      | none => rfl
      | some a =>
        rw [Option.any_some, decide_eq_false (Nat.succ_ne_zero k), ← Bool.not_eq_true, isDescendant_iff]
        intro hbelow
        have ha : a ≠ [] := by
          rintro rfl
          have hroot : d.states[0]? = some [] := rfl
          have heq := (List.getElem?_inj (by simp [RoseTree.preorder]) d.tree.preorder_nodup).mp
            (hroot.trans hs.symm)
          cases heq
        rcases h with h | h
        · have hlen := hbelow.length_lt
          have hpos := List.length_pos_iff.mpr ha
          rw [parent_eq_nil_iff] at h
          omega
        · have := idxOf_le_of_getElem htop hs (take_one_above_of_below hbelow ha)
          omega

end TopLevel

/-! ### The entry of a final state -/

def raisedBy (c c' : Ctx ω) : List TreePath := (doneActs c'.acts).drop (doneActs c.acts).length

/-- The loop over the entry set has come to the final state `i` and enters it; no transition below it fails. -/
structure EntersFinal (M : Machine) (f : Functions ω) (e : Entry) (c : Ctx ω) (i : TreePath) : Prop where
  running : c.err = false
  enters : FastMicroStep.enters M.tables e.entrySet c.config i
  final : (M.state i).type = .final
  whole : (enterState M f e c i).err = false

instance (M : Machine) (f : Functions ω) (e : Entry) (c : Ctx ω) (i : TreePath) : Decidable (EntersFinal M f e c i) :=
  decidable_of_iff (c.err = false ∧ FastMicroStep.enters M.tables e.entrySet c.config i ∧ (M.state i).type = .final ∧
      (enterState M f e c i).err = false)
    ⟨fun h => ⟨h.1, h.2.1, h.2.2.1, h.2.2.2⟩, fun h => ⟨h.running, h.enters, h.final, h.whole⟩⟩

theorem EntersFinal.spec {M : Machine} {f : Functions ω} {e : Entry} {c : Ctx ω} {i : TreePath}
    (h : EntersFinal M f e c i) :
    (enterState M f e c i).flags =
        (if looksTopLevel M i then { c.flags with topLevelFinal := true } else c.flags) ∧
      raisedBy c (enterState M f e c i) =
        (if looksTopLevel M i then [] else [(M.state i).parent]) ++ doneParallels M (insert i c.config) i := by
  obtain ⟨c', hquiet, heq⟩ := enterState_of_enters M f h.running h.enters
  have herr : c'.err = false := by
    by_contra herr
    have hwhole := h.whole
    rw [heq, if_neg fun h => herr h.1] at hwhole
    exact herr hwhole
  have hfinal := handleFinal_spec M f i c'
  rw [heq, if_pos ⟨herr, h.final⟩]
  refine ⟨by rw [hfinal.flags, hquiet.flags], ?_⟩
  have hdone : doneActs c'.acts = doneActs c.acts := hquiet.done
  have hconfig : c'.config = insert i c.config := hquiet.config
  rw [raisedBy, hfinal.done, hdone, hconfig, List.drop_left]

/-- Entering `i` ends the run exactly when its parent is the root, and raises the done event of its parent exactly when
it is not. -/
def EndsAtTopLevel (c c' : Ctx ω) (i : TreePath) : Prop :=
  (c'.flags.topLevelFinal = true ↔ i.parent = []) ∧ (i.parent ∈ raisedBy c c' ↔ i.parent ≠ [])

instance (c c' : Ctx ω) (i : TreePath) : Decidable (EndsAtTopLevel c c' i) :=
  inferInstanceAs (Decidable ((_ ↔ _) ∧ (_ ↔ _)))

/-- The generated code knows a top level final state when the child of the root above the entered final state is among
the first eight states, and takes every other final state for one. -/
theorem endsAtTopLevel_iff {d : Document β} (hroot : d.tag? [] = some .scxml) {f : Functions ω} {e : Entry} {c : Ctx ω}
    {i : TreePath} (hi : i ∈ (resortStates d).states) (hne : i ≠ []) (hflag : c.flags.topLevelFinal = false)
    (h : EntersFinal (prepare d) f e c i) :
    EndsAtTopLevel c (enterState (prepare d) f e c i) i ↔
      i.parent = [] ∨ (resortStates d).states.idxOf (i.take 1) < 8 := by
  obtain ⟨hflags, hraised⟩ := h.spec
  have hlooks : looksTopLevel (prepare d) i = true ↔
      i.parent = [] ∨ 8 ≤ (resortStates d).states.idxOf (i.take 1) := looksTopLevel_iff hi hne
  have hparent : ((prepare d).state i).parent = i.parent := rfl
  rw [EndsAtTopLevel, hflags, hraised, hparent]
  by_cases htop : i.parent = []
  · -- The root is no parallel, so nothing is raised for it.
    have hnot : [] ∉ doneParallels (prepare d) (insert i c.config) i := by
      intro hmem
      have htype := (of_decide_eq_true (List.mem_filter.mp hmem).2).1
      have htag : (resortStates d).tag? [] = some .scxml := (tag?_resortStates_nil d).trans hroot
      have hpar : (resortStates d).isParallel [] = false := by simp [isParallel, htag]
      change stateType (resortStates d) [] = .parallel at htype
      rw [stateType, hpar] at htype
      split at htype
      · cases htype
      split at htype
      · cases htype
      split at htype
      · split at htype <;> cases htype
      split at htype <;> cases htype
    rw [if_pos (hlooks.mpr (Or.inl htop)), if_pos (hlooks.mpr (Or.inl htop)), htop]
    simp [hnot]
  · by_cases hearly : (resortStates d).states.idxOf (i.take 1) < 8
    · have hfalse : ¬ looksTopLevel (prepare d) i = true := by
        rw [hlooks]
        rintro (h | h)
        · exact htop h
        · omega
      rw [if_neg hfalse, if_neg hfalse]
      simp [htop, hearly, hflag]
    · rw [if_pos (hlooks.mpr (Or.inr (Nat.not_lt.mp hearly))), if_pos (hlooks.mpr (Or.inr (Nat.not_lt.mp hearly)))]
      simp [htop, hearly]

/-- Seven atomic states, and a state with a final child behind them that the chart starts in. -/
def lateFinal : Document Unit where
  tree :=
    { root := { tag := .scxml, initial := some ["p"] }
      kids := Forest.ofList ((List.replicate 7 ({ tag := .state }, .nil)) ++
        [({ tag := .state, id := some "p" }, .cons { tag := .final, id := some "f" } .nil .nil)]) }

/-- The first call enters the final state below `p`, raises no done event and ends the run. -/
theorem nested_final_ends_run :
    (onePass (prepare lateFinal) externalEvents { env := [] }).config = {[], [7], [7, 0]} ∧
      doneActs (onePass (prepare lateFinal) externalEvents { env := [] }).acts = [] ∧
      (onePass (prepare lateFinal) externalEvents { env := [] }).flags.topLevelFinal = true ∧
      ¬ ∀ (e : Entry) (c : Ctx (List Event)) (i : TreePath), i ∈ (resortStates lateFinal).states → i ≠ [] →
        c.flags.topLevelFinal = false → EntersFinal (prepare lateFinal) externalEvents e c i →
          EndsAtTopLevel c (enterState (prepare lateFinal) externalEvents e c i) i := by
  refine ⟨by decide +kernel, by decide +kernel, by decide +kernel, ?_⟩
  intro h
  exact absurd (h ⟨{[], [7], [7, 0]}, ∅⟩ { config := {[], [7]}, env := [] } [7, 0] (by decide +kernel) (by decide) rfl
    (by decide +kernel)) (by decide +kernel)

/-- A final state below the first child of the root. -/
theorem endsAtTopLevel_iff_finalRegions :
    EndsAtTopLevel { config := {[], [0], [0, 0]}, env := [] }
      (enterState (prepare FastMicroStep.finalRegions) externalEvents ⟨{[], [0], [0, 0], [0, 0, 1]}, ∅⟩
        { config := {[], [0], [0, 0]}, env := [] } [0, 0, 1]) [0, 0, 1] :=
  (endsAtTopLevel_iff (by decide +kernel) (by decide +kernel) (by decide) rfl (by decide +kernel)).mpr (by decide +kernel)

end ChartToC

end Uscxml
