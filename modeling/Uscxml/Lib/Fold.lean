import Mathlib.Order.Basic
import Mathlib.Data.List.Basic
import Mathlib.Data.List.Induction

/-!
# Loops over an ordered list

Rules for loops that walk once over a list and change an accumulator. The rule for passes is about loops that
close a set under something: what a round adds lies ahead of the element it treats, so that one pass over an
increasing list treats every member.
-/

namespace List

variable {σ ι : Type*}

/-- `foldlRecOn` with the invariant in front. -/
theorem foldl_invariant {f : σ → ι → σ} {l : List ι} (Inv : σ → Prop)
    (hstep : ∀ s, ∀ i ∈ l, Inv s → Inv (f s i)) {s : σ} (hs : Inv s) : Inv (l.foldl f s) :=
  foldlRecOn l f hs fun s h i hi => hstep s i hi h

/-- What one round establishes and no round destroys holds in the end. -/
theorem foldl_establish {f : σ → ι → σ} {l : List ι} (Inv P : σ → Prop)
    (hinv : ∀ s, ∀ i ∈ l, Inv s → Inv (f s i)) (hkeep : ∀ s, ∀ i ∈ l, P s → P (f s i)) {i : ι} (hi : i ∈ l)
    (hround : ∀ s, Inv s → P (f s i)) {s : σ} (hs : Inv s) : P (l.foldl f s) := by
  induction l generalizing s with
  | nil => simp at hi
  | cons j l ih =>
    have hinv' : ∀ s, ∀ i ∈ l, Inv s → Inv (f s i) := fun s i h => hinv s i (mem_cons_of_mem j h)
    have hkeep' : ∀ s, ∀ i ∈ l, P s → P (f s i) := fun s i h => hkeep s i (mem_cons_of_mem j h)
    rw [foldl_cons]
    rcases mem_cons.mp hi with rfl | hi
    · exact foldl_invariant P hkeep' (hround s hs)
    · exact ih hinv' hkeep' hi (hinv s j mem_cons_self hs)

/-- Two loops whose rounds agree wherever the invariant of the first holds end alike. -/
theorem foldl_congr_of_invariant {f g : σ → ι → σ} {l : List ι} (Inv : σ → Prop)
    (hinv : ∀ s, ∀ i ∈ l, Inv s → Inv (f s i)) (heq : ∀ s, ∀ i ∈ l, Inv s → g s i = f s i) {s : σ} (hs : Inv s) :
    l.foldl g s = l.foldl f s := by
  induction l generalizing s with
  | nil => rfl
  | cons i l ih =>
    rw [foldl_cons, foldl_cons, heq s i mem_cons_self hs]
    refine ih ?_ ?_ (hinv s i mem_cons_self hs)
    · exact fun s j hj => hinv s j (mem_cons_of_mem i hj)
    · exact fun s j hj => heq s j (mem_cons_of_mem i hj)

/-- A projection no round changes is not changed by the loop. -/
theorem foldl_frame {τ : Type*} {f : σ → ι → σ} {l : List ι} (π : σ → τ)
    (hstep : ∀ s, ∀ i ∈ l, π (f s i) = π s) (s : σ) : π (l.foldl f s) = π s :=
  foldl_invariant (fun s' => π s' = π s) (fun s' i hi h => (hstep s' i hi).trans h) rfl

/-- A pass over an increasing list. When no round adds a member at or before the element it treats, treats
that element if it is a member, and keeps what the earlier rounds have treated, all members are treated in
the end. -/
theorem foldl_pass [Preorder ι] {f : σ → ι → σ} {l : List ι} (hl : l.Pairwise (· < ·)) (Inv : σ → Prop)
    (Mem Done : σ → ι → Prop)
    (hinv : ∀ s, ∀ i ∈ l, Inv s → Inv (f s i))
    (hdone : ∀ s, ∀ i ∈ l, Inv s → Mem (f s i) i → Done (f s i) i)
    (hkeep : ∀ s, ∀ i ∈ l, ∀ j, j < i → Inv s → Mem (f s i) j → Mem s j ∧ (Done s j → Done (f s i) j))
    {s : σ} (hs : Inv s) :
    Inv (l.foldl f s) ∧ ∀ j ∈ l, Mem (l.foldl f s) j → Done (l.foldl f s) j := by
  suffices h : ∀ done : σ → ι → Prop, (∀ s j, done s j ↔ (Mem s j → Done s j)) →
      ∀ before : List ι, (∀ j ∈ before, ∀ i ∈ l, j < i) → (∀ j ∈ before, done s j) →
      Inv (l.foldl f s) ∧ ∀ j ∈ before ++ l, done (l.foldl f s) j by
    obtain ⟨h₁, h₂⟩ := h (fun s j => Mem s j → Done s j) (fun _ _ => Iff.rfl) [] (by simp) (by simp)
    exact ⟨h₁, by simpa using h₂⟩
  intro done hdef before hbefore htreated
  induction l generalizing s before with
  | nil => exact ⟨hs, by simpa using htreated⟩
  | cons i l ih =>
    rw [pairwise_cons] at hl
    have hi : i ∈ i :: l := mem_cons_self
    rw [foldl_cons, append_cons before i l]
    refine ih hl.2 (fun s j hj => hinv s j (mem_cons_of_mem i hj))
      (fun s j hj => hdone s j (mem_cons_of_mem i hj)) (fun s j hj => hkeep s j (mem_cons_of_mem i hj))
      (hinv s i hi hs) (before ++ [i]) ?_ ?_
    · intro j hj k hk
      rcases mem_append.mp hj with hj | hj
      · exact hbefore j hj k (mem_cons_of_mem i hk)
      · exact mem_singleton.mp hj ▸ hl.1 k hk
    · intro j hj
      rw [hdef]
      intro hmem
      rcases mem_append.mp hj with hj | hj
      · obtain ⟨hold, hstill⟩ := hkeep s i hi j (hbefore j hj i hi) hs hmem
        exact hstill ((hdef s j).mp (htreated j hj) hold)
      · rw [mem_singleton] at hj
        subst hj
        exact hdone s j hi hs hmem

/-- What holds of the empty list, and of a prefix with the next element when it holds of the prefix, holds of a list. -/
theorem prefix_induction {motive : List ι → Prop} (l : List ι) (nil : motive [])
    (concat : ∀ pre a, l.take pre.length = pre → l[pre.length]? = some a → motive pre → motive (pre ++ [a])) : motive l := by
  have htake : ∀ n ≤ l.length, motive (l.take n) := by
    intro n
    induction n with
    | zero => exact fun _ => nil
    | succ n ih =>
      intro hn
      have hget : l[n]? = some l[n] := getElem?_eq_getElem hn
      have hlength : (l.take n).length = n := length_take_of_le (Nat.le_of_succ_le hn)
      rw [take_add_one, hget]
      exact concat (l.take n) l[n] (by rw [hlength]) (by rw [hlength, hget]) (ih (Nat.le_of_succ_le hn))
  have hall := htake l.length (Nat.le_refl _)
  rwa [take_length] at hall

/-! ### Runs that may fail -/

theorem foldlM_concat (f : σ → ι → Option σ) (s : σ) (l : List ι) (i : ι) :
    (l ++ [i]).foldlM f s = (l.foldlM f s).bind fun s' => f s' i := by
  rw [foldlM_append]
  apply congrArg (Option.bind (l.foldlM f s))
  funext s'
  exact bind_pure _

/-- When a step succeeds and keeps a law exactly under a condition, a run succeeds and keeps the law in all its states exactly
when all its steps meet the condition. -/
theorem foldlM_keeps_iff {f : σ → ι → Option σ} {s₀ : σ} {l : List ι} {Law : List ι → σ → Prop} {Meets : σ → ι → Prop}
    (hstart : Law [] s₀)
    (hstep : ∀ done i s, done ++ [i] <+: l → done.foldlM f s₀ = some s → Law done s →
      ((∃ s', f s i = some s' ∧ Law (done ++ [i]) s') ↔ Meets s i)) :
    (∀ done, done <+: l → ∃ s, done.foldlM f s₀ = some s ∧ Law done s) ↔
      ∀ done i s, done ++ [i] <+: l → done.foldlM f s₀ = some s → Meets s i := by
  constructor
  · intro hall done i s hpre hrun
    obtain ⟨s₁, hs₁, hlaw⟩ := hall done ((prefix_append done [i]).trans hpre)
    obtain rfl := Option.some.inj (hrun.symm.trans hs₁)
    have hnext := hall (done ++ [i]) hpre
    rw [foldlM_concat, hrun, Option.bind_some] at hnext
    exact (hstep done i s hpre hrun hlaw).mp hnext
  · intro hmeets done
    induction done using List.reverseRecOn with
    | nil =>
      intro _
      exact ⟨s₀, rfl, hstart⟩
    | append_singleton done i ih =>
      intro hpre
      obtain ⟨s, hrun, hlaw⟩ := ih ((prefix_append done [i]).trans hpre)
      rw [foldlM_concat, hrun, Option.bind_some]
      exact (hstep done i s hpre hrun hlaw).mpr (hmeets done i s hpre hrun)

/-- The same of runs that always succeed. -/
theorem foldl_keeps_iff {f : σ → ι → σ} {s₀ : σ} {l : List ι} {Law : σ → Prop} {Meets : σ → ι → Prop} (hstart : Law s₀)
    (hstep : ∀ s i, Law s → (Law (f s i) ↔ Meets s i)) :
    (∀ done, done <+: l → Law (done.foldl f s₀)) ↔ ∀ done i, done ++ [i] <+: l → Meets (done.foldl f s₀) i := by
  constructor
  · intro hall done i hpre
    have hnext := hall (done ++ [i]) hpre
    rw [foldl_concat] at hnext
    exact (hstep _ i (hall done ((prefix_append done [i]).trans hpre))).mp hnext
  · intro hmeets done
    induction done using List.reverseRecOn with
    | nil =>
      intro _
      exact hstart
    | append_singleton done i ih =>
      intro hpre
      rw [foldl_concat]
      exact (hstep _ i (ih ((prefix_append done [i]).trans hpre))).mpr (hmeets done i hpre)

/-- Append what the list does not hold yet. -/
def addNew [DecidableEq ι] (l : List ι) (i : ι) : List ι := if i ∈ l then l else l ++ [i]

/-- The values of a partial function along an ordered list, each at its first occurrence: they stand in the order
of the arguments they were found at. -/
theorem exists_first {τ : Type*} [DecidableEq ι] [Nonempty τ] {f : τ → Option ι} {r : τ → τ → Prop} {l : List τ}
    (hl : l.Pairwise r) :
    ∃ a : ι → τ, (∀ i ∈ (l.filterMap f).foldl addNew [], a i ∈ l ∧ f (a i) = some i) ∧
      ((l.filterMap f).foldl addNew []).Pairwise fun i j => r (a i) (a j) := by
  induction l using List.reverseRecOn with
  | nil => exact ⟨fun _ => Classical.arbitrary τ, by simp, by simp⟩
  | append_singleton l x ih =>
    obtain ⟨a, hmem, hord⟩ := ih (pairwise_append.mp hl).1
    have hkeep : ∀ i ∈ (l.filterMap f).foldl addNew [], a i ∈ l ++ [x] ∧ f (a i) = some i :=
      fun i hi => ⟨mem_append_left _ (hmem i hi).1, (hmem i hi).2⟩
    rw [filterMap_append, foldl_append]
    cases hx : f x with
    | none =>
      rw [filterMap_cons_none hx, filterMap_nil, foldl_nil]
      exact ⟨a, hkeep, hord⟩
    | some j =>
      rw [filterMap_cons_some hx, filterMap_nil, foldl_cons, foldl_nil, addNew]
      split
      · exact ⟨a, hkeep, hord⟩
      rename_i hj
      have hold : ∀ i ∈ (l.filterMap f).foldl addNew [], Function.update a j x i = a i :=
        fun i hi => Function.update_of_ne (ne_of_mem_of_not_mem hi hj) x a
      refine ⟨Function.update a j x, ?_, ?_⟩
      · intro i hi
        rcases mem_append.mp hi with hi | hi
        · rw [hold i hi]
          exact hkeep i hi
        · rw [mem_singleton.mp hi, Function.update_self]
          exact ⟨by simp, hx⟩
      · refine pairwise_append.mpr ⟨?_, pairwise_singleton _ j, ?_⟩
        · refine hord.imp_of_mem ?_
          intro i k hi hk h
          rwa [hold i hi, hold k hk]
        · intro i hi k hk
          rw [hold i hi, mem_singleton.mp hk, Function.update_self]
          exact (pairwise_append.mp hl).2.2 (a i) (hmem i hi).1 x (by simp)

theorem mem_foldl_addNew [DecidableEq ι] {l acc : List ι} {i : ι} : i ∈ l.foldl addNew acc ↔ i ∈ acc ∨ i ∈ l := by
  induction l generalizing acc with
  | nil => simp
  | cons j l ih =>
    rw [foldl_cons, ih, addNew]
    split
    · rename_i hj
      rw [mem_cons]
      constructor
      · rintro (h | h)
        · exact Or.inl h
        · exact Or.inr (Or.inr h)
      · rintro (h | rfl | h)
        · exact Or.inl h
        · exact Or.inl hj
        · exact Or.inr h
    · rw [mem_append, mem_singleton, mem_cons, or_assoc]

/-- An increasing list splits at each of its members. -/
theorem eq_filter_append_of_pairwise_lt [Preorder ι] [DecidableLT ι] {l : List ι} (hl : l.Pairwise (· < ·)) {i : ι} (hi : i ∈ l) :
    l = l.filter (· < i) ++ i :: l.filter (i < ·) := by
  induction l with
  | nil => simp at hi
  | cons j l ih =>
    rw [pairwise_cons] at hl
    rcases mem_cons.mp hi with rfl | hi
    · have hlt : l.filter (· < i) = [] := by
        rw [filter_eq_nil_iff]
        intro k hk
        simpa using lt_asymm (hl.1 k hk)
      have hgt : l.filter (i < ·) = l := by
        rw [filter_eq_self]
        intro k hk
        simpa using hl.1 k hk
      simp [hlt, hgt]
    · have hji := hl.1 i hi
      rw [filter_cons, filter_cons, if_pos (by simpa using hji), if_neg (by simpa using lt_asymm hji)]
      exact congrArg (j :: ·) (ih hl.2 hi)

end List
