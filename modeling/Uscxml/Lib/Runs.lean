import Mathlib.Data.List.TakeWhile
import Mathlib.Data.List.Basic

/-!
# Runs

The maximal runs of a list outside of its separators, from the first to the last: what a tokeniser returns. Separators
at the ends of the list and several separators in a row leave no empty run.
-/

namespace List

variable {α : Type*} {p : α → Bool}

/-- The maximal runs of elements that are no separators. -/
def runs (p : α → Bool) (l : List α) : List (List α) := (l.splitOnP p).filter fun w => !w.isEmpty

theorem runs_of_forall {w : List α} (hw : ∀ c ∈ w, p c = false) : w.runs p = if w = [] then [] else [w] := by
  rw [runs, splitOnP_eq_singleton hw]
  cases w with
  | nil => rfl
  | cons c w => rfl

theorem runs_append_cons {w : List α} (hw : ∀ c ∈ w, p c = false) {c : α} (hc : p c = true) (rest : List α) :
    (w ++ c :: rest).runs p = (if w = [] then [] else [w]) ++ rest.runs p := by
  rw [runs, splitOnP_append_cons_of_forall_mem hw c hc, filter_cons]
  cases w with
  | nil => rfl
  | cons c w => rfl

theorem runs_cons {c : α} (hc : p c = true) (rest : List α) : (c :: rest).runs p = rest.runs p :=
  runs_append_cons (forall_mem_nil _) hc rest

/-- A separator ends the runs before it. -/
theorem runs_append (l : List α) {c : α} (hc : p c = true) (rest : List α) :
    (l ++ c :: rest).runs p = l.runs p ++ rest.runs p := by
  rw [runs, splitOnP_append_cons l rest hc, filter_append]
  rfl

/-- The last run of a list that ends with no separators ends with its last elements. -/
theorem exists_runs_append {v : List α} (hv : ∀ c ∈ v, p c = false) (hne : v ≠ []) (l : List α) :
    ∃ before w, (l ++ v).runs p = before ++ [w ++ v] := by
  suffices hall : ∀ w : List α, (∀ c ∈ w, p c = false) → ∃ before u, (w ++ (l ++ v)).runs p = before ++ [u ++ v] by
    exact hall [] (forall_mem_nil _)
  induction l with
  | nil =>
    intro w hw
    refine ⟨[], w, ?_⟩
    rw [nil_append, runs_of_forall (forall_mem_append.mpr ⟨hw, hv⟩), if_neg (by simp [hne])]
    rfl
  | cons c l ih =>
    intro w hw
    cases hc : p c with
    | true =>
      obtain ⟨before, u, hruns⟩ := ih [] (forall_mem_nil _)
      refine ⟨w.runs p ++ before, u, ?_⟩
      rw [nil_append] at hruns
      rw [cons_append, runs_append w hc, hruns, append_assoc]
    | false =>
      rw [cons_append, append_cons]
      exact ih (w ++ [c]) (forall_mem_append.mpr ⟨hw, forall_mem_singleton.mpr hc⟩)

theorem runs_dropWhile (l : List α) : (l.dropWhile p).runs p = l.runs p := by
  induction l with
  | nil => rfl
  | cons c l ih =>
    rw [dropWhile_cons]
    split
    · rename_i hc
      rw [ih, runs_cons hc]
    · rfl

theorem getLast?_dropWhile {l : List α} (h : l.dropWhile p ≠ []) : (l.dropWhile p).getLast? = l.getLast? := by
  have hsplit := getLast?_append_of_ne_nil (l.takeWhile p) h
  rwa [takeWhile_append_dropWhile, eq_comm] at hsplit

theorem not_of_dropWhile_eq_cons {l l' : List α} {c : α} (h : l.dropWhile p = c :: l') : p c = false := by
  have hhead := head?_dropWhile_not p l
  rw [h] at hhead
  simpa using hhead

theorem ne_nil_of_mem_runs {l w : List α} (h : w ∈ l.runs p) : w ≠ [] := by
  rintro rfl
  simp [runs] at h

theorem not_of_mem_runs {l r : List α} (h : r ∈ l.runs p) : ∀ c ∈ r, p c = false := by
  suffices hall : ∀ w : List α, (∀ c ∈ w, p c = false) → r ∈ (w ++ l).runs p → ∀ c ∈ r, p c = false by
    exact hall [] (forall_mem_nil _) h
  clear h
  induction l with
  | nil =>
    intro w hw h
    rw [append_nil, runs_of_forall hw] at h
    split at h
    · exact absurd h not_mem_nil
    · exact mem_singleton.mp h ▸ hw
  | cons c l ih =>
    intro w hw h
    cases hc : p c with
    | true =>
      rw [runs_append_cons hw hc] at h
      rcases mem_append.mp h with h | h
      · split at h
        · exact absurd h not_mem_nil
        · exact mem_singleton.mp h ▸ hw
      · exact ih [] (forall_mem_nil _) h
    | false =>
      rw [append_cons] at h
      exact ih (w ++ [c]) (forall_mem_append.mpr ⟨hw, forall_mem_singleton.mpr hc⟩) h

theorem mem_of_mem_runs {l r : List α} (h : r ∈ l.runs p) : ∀ c ∈ r, c ∈ l := by
  suffices hall : ∀ w : List α, (∀ c ∈ w, p c = false) → r ∈ (w ++ l).runs p → ∀ c ∈ r, c ∈ w ++ l by
    exact hall [] (forall_mem_nil _) h
  clear h
  induction l with
  | nil =>
    intro w hw h c hc
    rw [append_nil, runs_of_forall hw] at h
    split at h
    · exact absurd h not_mem_nil
    · rwa [append_nil, ← mem_singleton.mp h]
  | cons x l ih =>
    intro w hw h c hc
    cases hx : p x with
    | true =>
      rw [runs_append_cons hw hx] at h
      rcases mem_append.mp h with h | h
      · split at h
        · exact absurd h not_mem_nil
        · exact mem_append_left _ (mem_singleton.mp h ▸ hc)
      · exact mem_append_right _ (mem_cons_of_mem x (ih [] (forall_mem_nil _) h c hc))
    | false =>
      rw [append_cons] at h ⊢
      exact ih (w ++ [x]) (forall_mem_append.mpr ⟨hw, forall_mem_singleton.mpr hx⟩) h c hc

theorem forall_of_runs_eq_nil {l : List α} (h : l.runs p = []) : ∀ c ∈ l, p c = true := by
  suffices hall : ∀ w : List α, (∀ c ∈ w, p c = false) → (w ++ l).runs p = [] → w = [] ∧ ∀ c ∈ l, p c = true by
    exact (hall [] (forall_mem_nil _) h).2
  clear h
  induction l with
  | nil =>
    intro w hw h
    rw [append_nil, runs_of_forall hw] at h
    split at h
    · rename_i hnil
      exact ⟨hnil, forall_mem_nil _⟩
    · cases h
  | cons c l ih =>
    intro w hw h
    cases hc : p c with
    | true =>
      rw [runs_append_cons hw hc, append_eq_nil_iff] at h
      obtain ⟨hnil, hall⟩ := h
      refine ⟨?_, forall_mem_cons.mpr ⟨hc, (ih [] (forall_mem_nil _) hall).2⟩⟩
      split at hnil
      · assumption
      · cases hnil
    | false =>
      rw [append_cons] at h
      have := (ih (w ++ [c]) (forall_mem_append.mpr ⟨hw, forall_mem_singleton.mpr hc⟩) h).1
      simp at this

/-- Runs that a separator joins are the runs of the result. -/
theorem runs_intercalate {ws : List (List α)} (hne : ∀ w ∈ ws, w ≠ []) (hfree : ∀ w ∈ ws, ∀ c ∈ w, p c = false) {c : α}
    (hc : p c = true) : ([c].intercalate ws).runs p = ws := by
  induction ws with
  | nil => rfl
  | cons w ws ih =>
    have hw := hne w mem_cons_self
    have hwfree := hfree w mem_cons_self
    cases ws with
    | nil => simp [runs_of_forall hwfree, hw]
    | cons w' ws =>
      rw [intercalate_cons_of_ne_nil (cons_ne_nil w' ws), append_assoc, singleton_append, runs_append_cons hwfree hc, if_neg hw,
        ih (fun v hv => hne v (mem_cons_of_mem w hv)) (fun v hv => hfree v (mem_cons_of_mem w hv))]
      rfl

end List
