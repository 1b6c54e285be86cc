import Uscxml.Lib.Runs

/-!
# Pieces between occurrences of a sequence

A list is cut at the occurrences of a sequence of elements, which are found from the left and do not overlap. The pieces are
told by two rules: without an occurrence the list is the only piece, and at the first occurrence the first piece ends.
-/

namespace List

variable {α : Type*} [DecidableEq α] {sep : List α}

/-- The pieces of a list whose first `k` elements belong to a separator, with the elements `acc` of the current piece. -/
def piecesFrom (sep : List α) : Nat → List α → List α → List (List α)
  | _, acc, [] => [acc]
  | k + 1, acc, _ :: rest => piecesFrom sep k acc rest
  | 0, acc, c :: rest =>
    if sep <+: c :: rest then acc :: piecesFrom sep (sep.length - 1) [] rest else piecesFrom sep 0 (acc ++ [c]) rest

/-- The pieces of a list between the occurrences of `sep`. -/
def pieces (sep l : List α) : List (List α) := piecesFrom sep 0 [] l

/-- The first occurrence of `sep`. -/
def FirstAt (sep l : List α) (k : Nat) : Prop := sep <+: l.drop k ∧ ∀ j < k, ¬ sep <+: l.drop j

theorem piecesFrom_skip (k : Nat) (acc l : List α) : piecesFrom sep k acc l = piecesFrom sep 0 acc (l.drop k) := by
  induction k generalizing l with
  | zero => rfl
  | succ k ih =>
    cases l with
    | nil => rfl
    | cons c l => exact ih l

theorem piecesFrom_of_none {acc l : List α} (hnone : ∀ k < l.length, ¬ sep <+: l.drop k) :
    piecesFrom sep 0 acc l = [acc ++ l] := by
  induction l generalizing acc with
  | nil => rw [append_nil]; rfl
  | cons c l ih =>
    have hfirst : ¬ sep <+: c :: l := hnone 0 (by simp)
    rw [piecesFrom, if_neg hfirst, ih (fun k hk => hnone (k + 1) (by simpa using hk)), append_assoc]
    rfl

theorem piecesFrom_of_firstAt (hne : sep ≠ []) {acc l : List α} {k : Nat} (h : FirstAt sep l k) :
    piecesFrom sep 0 acc l = (acc ++ l.take k) :: pieces sep (l.drop (k + sep.length)) := by
  induction k generalizing acc l with
  | zero =>
    obtain ⟨hsep, -⟩ := h
    rw [drop_zero] at hsep
    cases l with
    | nil => exact absurd (prefix_nil.mp hsep) hne
    | cons c l =>
      rw [piecesFrom, if_pos hsep, piecesFrom_skip, take_zero, append_nil, Nat.zero_add, pieces]
      obtain ⟨m, hm⟩ := Nat.exists_eq_succ_of_ne_zero (length_eq_zero_iff.not.mpr hne)
      rw [hm]
      rfl
  | succ k ih =>
    obtain ⟨hsep, hbefore⟩ := h
    cases l with
    | nil => exact absurd (prefix_nil.mp hsep) hne
    | cons c l =>
      have hfirst : ¬ sep <+: c :: l := hbefore 0 (Nat.succ_pos k)
      rw [piecesFrom, if_neg hfirst, ih ⟨hsep, fun j hj => hbefore (j + 1) (Nat.succ_lt_succ hj)⟩, append_assoc, Nat.add_right_comm]
      rfl

theorem pieces_of_none {l : List α} (hnone : ∀ k < l.length, ¬ sep <+: l.drop k) : pieces sep l = [l] :=
  piecesFrom_of_none hnone

theorem pieces_of_firstAt (hne : sep ≠ []) {l : List α} {k : Nat} (h : FirstAt sep l k) :
    pieces sep l = l.take k :: pieces sep (l.drop (k + sep.length)) := piecesFrom_of_firstAt hne h

/-! ### One separator -/

omit [DecidableEq α] in
theorem first_cut_inj {c : α} {x y a b : List α} (hx : c ∉ x) (hy : c ∉ y) (h : x ++ c :: a = y ++ c :: b) : x = y ∧ a = b := by
  induction x generalizing y with
  | nil =>
    cases y with
    | nil => exact ⟨rfl, (cons.inj h).2⟩
    | cons d y => exact absurd ((cons.inj h).1 ▸ mem_cons_self) hy
  | cons d x ih =>
    cases y with
    | nil => exact absurd ((cons.inj h).1 ▸ mem_cons_self) hx
    | cons d' y =>
      obtain ⟨rfl, hrest⟩ := cons.inj h
      obtain ⟨rfl, rfl⟩ := ih (fun hmem => hx (mem_cons_of_mem _ hmem)) (fun hmem => hy (mem_cons_of_mem _ hmem)) hrest
      exact ⟨rfl, rfl⟩

omit [DecidableEq α] in
/-- A list is cut in one way before the longest run at its end of what has a property. -/
theorem run_cut_inj (P : α → Prop) {c d : α} {x y a b : List α} (hc : ¬ P c) (hd : ¬ P d) (ha : ∀ z ∈ a, P z)
    (hb : ∀ z ∈ b, P z) (h : x ++ c :: a = y ++ d :: b) : x = y ∧ c = d ∧ a = b := by
  rcases append_eq_append_iff.mp h with ⟨w, hy, hw⟩ | ⟨w, hx, hw⟩
  · cases w with
    | nil =>
      obtain ⟨hcd, hab⟩ := cons.inj hw
      exact ⟨by rw [hy, append_nil], hcd, hab⟩
    | cons z w =>
      have hmem : d ∈ a := by
        rw [(cons.inj hw).2]
        exact mem_append_right w mem_cons_self
      exact absurd (ha d hmem) hd
  · cases w with
    | nil =>
      obtain ⟨hcd, hab⟩ := cons.inj hw
      exact ⟨by rw [hx, append_nil], hcd.symm, hab.symm⟩
    | cons z w =>
      have hmem : c ∈ b := by
        rw [(cons.inj hw).2]
        exact mem_append_right w mem_cons_self
      exact absurd (hb c hmem) hc

omit [DecidableEq α] in
theorem last_cut_inj {c : α} {x y a b : List α} (ha : c ∉ a) (hb : c ∉ b) (h : x ++ c :: a = y ++ c :: b) : x = y ∧ a = b := by
  have hne : ∀ {l : List α}, c ∉ l → ∀ z ∈ l, z ≠ c := fun hl z hz hzc => hl (hzc ▸ hz)
  obtain ⟨hxy, -, hab⟩ := run_cut_inj (· ≠ c) (not_not.mpr rfl) (not_not.mpr rfl) (hne ha) (hne hb) h
  exact ⟨hxy, hab⟩

omit [DecidableEq α] in
theorem append_cut_inj {c : α} {w : List α} (hw : c ∈ w) {x y a b : List α} (ha : c ∉ a) (hb : c ∉ b)
    (h : x ++ w ++ a = y ++ w ++ b) : x = y ∧ a = b := by
  obtain ⟨behind, before, hsplit, hbehind⟩ := eq_append_cons_of_mem (mem_reverse.mpr hw)
  have hw' : w = before.reverse ++ c :: behind.reverse := by
    rw [← reverse_reverse w, hsplit]
    simp
  have hmark : ∀ z d : List α, z ++ w ++ d = (z ++ before.reverse) ++ c :: (behind.reverse ++ d) := by
    intro z d
    rw [hw']
    simp only [append_assoc, cons_append]
  have hnot : ∀ {d : List α}, c ∉ d → c ∉ behind.reverse ++ d := by
    intro d hd hmem
    rcases mem_append.mp hmem with hmem | hmem
    · exact hbehind (mem_reverse.mp hmem)
    · exact hd hmem
  rw [hmark, hmark] at h
  obtain ⟨hxy, hab⟩ := last_cut_inj (hnot ha) (hnot hb) h
  exact ⟨append_cancel_right hxy, append_cancel_left hab⟩

theorem pieces_singleton (c : α) (l : List α) : pieces [c] l = l.splitOnP (· = c) := by
  suffices h : ∀ acc, piecesFrom [c] 0 acc l = (l.splitOnP (· = c)).modifyHead (acc ++ ·) by
    rw [pieces, h []]
    cases l.splitOnP (· = c) with
    | nil => rfl
    | cons w ws => rfl
  induction l with
  | nil => intro acc; simp [piecesFrom]
  | cons x l ih =>
    intro acc
    rw [piecesFrom, splitOnP_cons_eq_if_modifyHead]
    by_cases hx : x = c
    · subst hx
      have hpieces := ih []
      rw [if_pos (cons_prefix_cons.mpr ⟨rfl, nil_prefix⟩), if_pos (decide_eq_true rfl), length_singleton, Nat.sub_self, hpieces]
      cases l.splitOnP (· = x) with
      | nil => simp
      | cons w ws => simp
    · rw [if_neg (fun h => hx (cons_prefix_cons.mp h).1.symm), if_neg (by simpa using hx), ih]
      cases l.splitOnP (· = c) with
      | nil => rfl
      | cons w ws => simp

end List
