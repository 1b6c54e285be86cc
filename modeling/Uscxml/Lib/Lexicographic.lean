import Mathlib.Order.Lattice
import Mathlib.Data.List.Basic

/-!
# Orders of records and maps

Comparisons that go through the parts of two values, as `operator<` of C++ does: the first parts that differ decide. A
comparison is a function into `Bool`, and an order is one for the elements of a set only, so that values can be ordered by
the values they hold.
-/

namespace Lexicographic

variable {α β κ : Type}

/-- The elements of `S` are strictly ordered, and those that are not comparable are the ones that `eqv` relates. -/
structure Orders (S : α → Prop) (lt : α → α → Bool) (eqv : α → α → Prop) : Prop where
  irrefl : ∀ x, S x → lt x x = false
  trans : ∀ x y z, S x → S y → S z → lt x y = true → lt y z = true → lt x z = true
  incomparable : ∀ x y, S x → S y → ((lt x y = false ∧ lt y x = false) ↔ eqv x y)

variable {S : α → Prop} {lt : α → α → Bool} {eqv : α → α → Prop}

theorem Orders.asymm (h : Orders S lt eqv) {x y : α} (hx : S x) (hy : S y) (hlt : lt x y = true) : lt y x = false := by
  rw [Bool.eq_false_iff]
  intro hlt'
  have hself := h.trans x y x hx hy hx hlt hlt'
  rw [h.irrefl x hx] at hself
  cases hself

theorem Orders.flip (h : Orders S lt eqv) : Orders S (fun x y => lt y x) eqv where
  irrefl := h.irrefl
  trans x y z hx hy hz hxy hyz := h.trans z y x hz hy hx hyz hxy
  incomparable x y hx hy := and_comm.trans (h.incomparable x y hx hy)

theorem orders_of_linearOrder [LinearOrder α] : Orders (fun _ : α => True) (fun x y => decide (x < y)) (· = ·) where
  irrefl x _ := decide_eq_false (lt_irrefl x)
  trans x y z _ _ _ hxy hyz := decide_eq_true (lt_trans (of_decide_eq_true hxy) (of_decide_eq_true hyz))
  incomparable x y _ _ := by
    rw [decide_eq_false_iff_not, decide_eq_false_iff_not, not_lt, not_lt]
    exact ⟨fun ⟨hle, hle'⟩ => le_antisymm hle' hle, fun heq => ⟨heq ▸ le_refl _, heq ▸ le_refl _⟩⟩

theorem orders_nothing : Orders S (fun _ _ => false) (fun _ _ => True) where
  irrefl _ _ := rfl
  trans _ _ _ _ _ _ h _ := h
  incomparable _ _ _ _ := ⟨fun _ => trivial, fun _ => ⟨rfl, rfl⟩⟩

theorem Orders.after {T : β → Prop} {lt' ne : β → β → Bool} {f : α → β} (hpart : Orders T lt' (· = ·))
    (hne : ∀ a b, T a → T b → (ne a b = true ↔ a ≠ b)) (hf : ∀ x, S x → T (f x)) (h : Orders S lt eqv) :
    Orders S (fun x y => if ne (f x) (f y) = true then lt' (f x) (f y) else lt x y) (fun x y => f x = f y ∧ eqv x y) := by
  have hsame : ∀ {x y}, S x → S y → f x = f y → ¬ ne (f x) (f y) = true := by
    intro x y hx hy heq hdiff
    exact (hne _ _ (hf x hx) (hf y hy)).mp hdiff heq
  have hdiff : ∀ {x y}, S x → S y → f x ≠ f y → ne (f x) (f y) = true := fun hx hy h => (hne _ _ (hf _ hx) (hf _ hy)).mpr h
  constructor
  · intro x hx
    rw [if_neg (hsame hx hx rfl)]
    exact h.irrefl x hx
  · intro x y z hx hy hz hxy hyz
    by_cases hfxy : f x = f y
    · rw [if_neg (hsame hx hy hfxy)] at hxy
      by_cases hfyz : f y = f z
      · rw [if_neg (hsame hy hz hfyz)] at hyz
        rw [if_neg (hsame hx hz (hfxy.trans hfyz))]
        exact h.trans x y z hx hy hz hxy hyz
      · rw [if_pos (hdiff hy hz hfyz)] at hyz
        rw [if_pos (hdiff hx hz (hfxy ▸ hfyz)), hfxy]
        exact hyz
    · rw [if_pos (hdiff hx hy hfxy)] at hxy
      by_cases hfyz : f y = f z
      · rw [if_pos (hdiff hx hz (hfyz ▸ hfxy)), ← hfyz]
        exact hxy
      · rw [if_pos (hdiff hy hz hfyz)] at hyz
        have hxz := hpart.trans _ _ _ (hf x hx) (hf y hy) (hf z hz) hxy hyz
        have hfxz : f x ≠ f z := by
          intro heq
          rw [heq, hpart.irrefl _ (hf z hz)] at hxz
          cases hxz
        rw [if_pos (hdiff hx hz hfxz)]
        exact hxz
  · intro x y hx hy
    by_cases hfxy : f x = f y
    · rw [if_neg (hsame hx hy hfxy), if_neg (hsame hy hx hfxy.symm), h.incomparable x y hx hy]
      exact (and_iff_right hfxy).symm
    · rw [if_pos (hdiff hx hy hfxy), if_pos (hdiff hy hx (Ne.symm hfxy)), hpart.incomparable _ _ (hf x hx) (hf y hy)]
      exact iff_of_false hfxy fun h => hfxy h.1

/-! ### Maps -/

/-- `operator==` of maps: as many entries, with equal keys and equal values. -/
def mapEq [DecidableEq κ] (eq : α → α → Bool) : List (κ × α) → List (κ × α) → Bool
  | [], [] => true
  | x :: l, y :: l' => x.1 = y.1 && eq x.2 y.2 && mapEq eq l l'
  | _, _ => false

def pairLt [LT κ] [DecidableLT κ] (lt : α → α → Bool) (x y : κ × α) : Bool :=
  x.1 < y.1 || (!decide (y.1 < x.1) && lt x.2 y.2)

/-- `operator<` of maps, which is `std::lexicographical_compare`. -/
def mapLt [LT κ] [DecidableLT κ] (lt : α → α → Bool) : List (κ × α) → List (κ × α) → Bool
  | [], l' => !l'.isEmpty
  | _ :: _, [] => false
  | x :: l, y :: l' => if pairLt lt x y then true else if pairLt lt y x then false else mapLt lt l l'

theorem mapEq_iff [DecidableEq κ] {eq : α → α → Bool} {l l' : List (κ × α)}
    (h : ∀ x ∈ l, ∀ y ∈ l', (eq x.2 y.2 = true ↔ x.2 = y.2)) : mapEq eq l l' = true ↔ l = l' := by
  induction l generalizing l' with
  | nil => cases l' <;> simp [mapEq]
  | cons x l ih =>
    cases l' with
    | nil => simp [mapEq]
    | cons y l' =>
      have hhead := h x List.mem_cons_self y List.mem_cons_self
      have hrest := ih fun x hx y hy => h x (List.mem_cons_of_mem _ hx) y (List.mem_cons_of_mem _ hy)
      rw [mapEq, Bool.and_eq_true, Bool.and_eq_true, hhead, hrest, decide_eq_true_iff, List.cons.injEq, Prod.ext_iff]

theorem mapEq_congr [DecidableEq κ] {eq eq' : α → α → Bool} {l l' : List (κ × α)}
    (h : ∀ x ∈ l, ∀ y ∈ l', eq x.2 y.2 = eq' x.2 y.2) : mapEq eq l l' = mapEq eq' l l' := by
  induction l generalizing l' with
  | nil => cases l' <;> rfl
  | cons x l ih =>
    cases l' with
    | nil => rfl
    | cons y l' =>
      rw [mapEq, mapEq, h x List.mem_cons_self y List.mem_cons_self,
        ih fun x hx y hy => h x (List.mem_cons_of_mem _ hx) y (List.mem_cons_of_mem _ hy)]

theorem mapLt_congr [LT κ] [DecidableLT κ] {lt lt' : α → α → Bool} {l l' : List (κ × α)}
    (h : ∀ x ∈ l, ∀ y ∈ l', lt x.2 y.2 = lt' x.2 y.2) (h' : ∀ x ∈ l, ∀ y ∈ l', lt y.2 x.2 = lt' y.2 x.2) :
    mapLt lt l l' = mapLt lt' l l' := by
  induction l generalizing l' with
  | nil => cases l' <;> rfl
  | cons x l ih =>
    cases l' with
    | nil => rfl
    | cons y l' =>
      have hrest := ih (fun x hx y hy => h x (List.mem_cons_of_mem _ hx) y (List.mem_cons_of_mem _ hy))
        fun x hx y hy => h' x (List.mem_cons_of_mem _ hx) y (List.mem_cons_of_mem _ hy)
      rw [mapLt, mapLt, pairLt, pairLt, pairLt, pairLt, h x List.mem_cons_self y List.mem_cons_self,
        h' x List.mem_cons_self y List.mem_cons_self, hrest]

section Map

variable [LinearOrder κ]

theorem Orders.pair (h : Orders S lt (· = ·)) : Orders (fun x : κ × α => S x.2) (pairLt lt) (· = ·) := by
  have hbefore : ∀ x y : κ × α, pairLt lt x y = true ↔ x.1 < y.1 ∨ (x.1 = y.1 ∧ lt x.2 y.2 = true) := by
    intro x y
    rw [pairLt, Bool.or_eq_true, Bool.and_eq_true, decide_eq_true_iff, Bool.not_eq_true', decide_eq_false_iff_not, not_lt,
      le_iff_lt_or_eq]
    tauto
  constructor
  · intro x hx
    rw [Bool.eq_false_iff, ne_eq, hbefore, h.irrefl x.2 hx]
    simp
  · intro x y z hx hy hz hxy hyz
    rw [hbefore] at hxy hyz ⊢
    rcases hxy with hxy | ⟨hxy, hxy'⟩
    · rcases hyz with hyz | ⟨hyz, -⟩
      · exact .inl (lt_trans hxy hyz)
      · exact .inl (hyz ▸ hxy)
    · rcases hyz with hyz | ⟨hyz, hyz'⟩
      · exact .inl (hxy ▸ hyz)
      · exact .inr ⟨hxy.trans hyz, h.trans _ _ _ hx hy hz hxy' hyz'⟩
  · intro x y hx hy
    rw [Bool.eq_false_iff, Bool.eq_false_iff, ne_eq, ne_eq, hbefore, hbefore, Prod.ext_iff]
    have hvalues := h.incomparable x.2 y.2 hx hy
    rw [Bool.eq_false_iff, Bool.eq_false_iff] at hvalues
    constructor
    · rintro ⟨hxy, hyx⟩
      have heq : x.1 = y.1 := le_antisymm (not_lt.mp fun hlt => hyx (.inl hlt)) (not_lt.mp fun hlt => hxy (.inl hlt))
      exact ⟨heq, hvalues.mp ⟨fun hlt => hxy (.inr ⟨heq, hlt⟩), fun hlt => hyx (.inr ⟨heq.symm, hlt⟩)⟩⟩
    · rintro ⟨hkey, hvalue⟩
      obtain ⟨hxy, hyx⟩ := hvalues.mpr hvalue
      rw [hkey]
      simp [hxy, hyx]

theorem Orders.map (h : Orders S lt (· = ·)) :
    Orders (fun l : List (κ × α) => ∀ x ∈ l, S x.2) (mapLt lt) (· = ·) := by
  have hpair := h.pair (κ := κ)
  have hcons : ∀ {x y : κ × α} {l l' : List (κ × α)}, S x.2 → S y.2 →
      (mapLt lt (x :: l) (y :: l') = true ↔ pairLt lt x y = true ∨ (x = y ∧ mapLt lt l l' = true)) := by
    intro x y l l' hx hy
    rw [mapLt]
    by_cases hxy : pairLt lt x y = true
    · simp [hxy]
    · rw [if_neg hxy]
      by_cases hyx : pairLt lt y x = true
      · have hne : x ≠ y := by
          rintro rfl
          exact hxy hyx
        simp [hxy, hyx, hne]
      · rw [if_neg hyx]
        have heq := (hpair.incomparable x y hx hy).mp ⟨Bool.eq_false_iff.mpr hxy, Bool.eq_false_iff.mpr hyx⟩
        subst heq
        simp [hpair.irrefl x hx]
  constructor
  · intro l hl
    induction l with
    | nil => rfl
    | cons x l ih =>
      obtain ⟨hx, hl⟩ := List.forall_mem_cons.mp hl
      rw [Bool.eq_false_iff, ne_eq, hcons hx hx, hpair.irrefl x hx, ih hl]
      simp
  · intro l₁ l₂ l₃ h₁ h₂ h₃ h₁₂ h₂₃
    induction l₁ generalizing l₂ l₃ with
    | nil =>
      cases l₃ with
      | nil => cases l₂ <;> simp [mapLt] at h₁₂ h₂₃
      | cons z l₃ => rfl
    | cons x l₁ ih =>
      cases l₂ with
      | nil => simp [mapLt] at h₁₂
      | cons y l₂ =>
        cases l₃ with
        | nil => simp [mapLt] at h₂₃
        | cons z l₃ =>
          obtain ⟨hx, h₁'⟩ := List.forall_mem_cons.mp h₁
          obtain ⟨hy, h₂'⟩ := List.forall_mem_cons.mp h₂
          obtain ⟨hz, h₃'⟩ := List.forall_mem_cons.mp h₃
          rw [hcons hx hy] at h₁₂
          rw [hcons hy hz] at h₂₃
          rw [hcons hx hz]
          rcases h₁₂ with hxy | ⟨rfl, h₁₂⟩
          · rcases h₂₃ with hyz | ⟨rfl, -⟩
            · exact .inl (hpair.trans x y z hx hy hz hxy hyz)
            · exact .inl hxy
          · rcases h₂₃ with hyz | ⟨rfl, h₂₃⟩
            · exact .inl hyz
            · exact .inr ⟨rfl, ih l₂ l₃ h₁' h₂' h₃' h₁₂ h₂₃⟩
  · intro l l' hl hl'
    induction l generalizing l' with
    | nil => cases l' <;> simp [mapLt]
    | cons x l ih =>
      cases l' with
      | nil => simp [mapLt]
      | cons y l' =>
        obtain ⟨hx, hl⟩ := List.forall_mem_cons.mp hl
        obtain ⟨hy, hl'⟩ := List.forall_mem_cons.mp hl'
        have hpairs := hpair.incomparable x y hx hy
        have hrest := ih l' hl hl'
        rw [Bool.eq_false_iff, Bool.eq_false_iff] at hpairs hrest
        rw [Bool.eq_false_iff, Bool.eq_false_iff, ne_eq, ne_eq, hcons hx hy, hcons hy hx, List.cons.injEq]
        constructor
        · rintro ⟨hxy, hyx⟩
          have heq := hpairs.mp ⟨fun h => hxy (.inl h), fun h => hyx (.inl h)⟩
          exact ⟨heq, hrest.mp ⟨fun h => hxy (.inr ⟨heq, h⟩), fun h => hyx (.inr ⟨heq.symm, h⟩)⟩⟩
        · rintro ⟨heq, hll'⟩
          obtain ⟨hxy, hyx⟩ := hpairs.mpr heq
          obtain ⟨hlt, hlt'⟩ := hrest.mpr hll'
          exact ⟨fun h => h.elim hxy fun h => hlt h.2, fun h => h.elim hyx fun h => hlt' h.2⟩

end Map

/-! ### Sets -/

/-- `std::set::insert`: the elements stand in the order of the comparison, and one that is not comparable to the new one
stays in its place. -/
def insert (lt : α → α → Bool) (x : α) : List α → List α
  | [] => [x]
  | y :: l => if lt y x then y :: insert lt x l else if lt x y then x :: y :: l else y :: l

theorem mem_insert {lt : α → α → Bool} (h : Orders (fun _ => True) lt (· = ·)) {x z : α} {l : List α} :
    z ∈ insert lt x l ↔ z = x ∨ z ∈ l := by
  induction l with
  | nil => simp [insert]
  | cons y l ih =>
    rw [insert]
    split
    · rw [List.mem_cons, ih, List.mem_cons]
      tauto
    · split
      · rw [List.mem_cons]
      · rename_i hyx hxy
        have heq : x = y := (h.incomparable x y trivial trivial).mp ⟨Bool.eq_false_iff.mpr hxy, Bool.eq_false_iff.mpr hyx⟩
        rw [heq, List.mem_cons]
        tauto

theorem pairwise_insert {lt : α → α → Bool} (h : Orders (fun _ => True) lt (· = ·)) {x : α} {l : List α}
    (hl : l.Pairwise fun y z => lt y z = true) : (insert lt x l).Pairwise fun y z => lt y z = true := by
  induction l with
  | nil => exact List.pairwise_singleton _ _
  | cons y l ih =>
    obtain ⟨hy, hrest⟩ := List.pairwise_cons.mp hl
    rw [insert]
    split
    · rename_i hyx
      refine List.pairwise_cons.mpr ⟨?_, ih hrest⟩
      intro z hz
      rcases (mem_insert h).mp hz with rfl | hz
      · exact hyx
      · exact hy z hz
    · split
      · rename_i hxy
        refine List.pairwise_cons.mpr ⟨?_, hl⟩
        intro z hz
        rcases List.mem_cons.mp hz with rfl | hz
        · exact hxy
        · exact h.trans x y z trivial trivial trivial hxy (hy z hz)
      · exact hl

theorem foldl_insert {lt : α → α → Bool} (h : Orders (fun _ => True) lt (· = ·)) (l : List α) :
    (l.foldl (fun s x => insert lt x s) []).Nodup ∧ ∀ x, x ∈ l.foldl (fun s x => insert lt x s) [] ↔ x ∈ l := by
  suffices hfold : ∀ s : List α, s.Pairwise (fun y z => lt y z = true) →
      (l.foldl (fun s x => insert lt x s) s).Pairwise (fun y z => lt y z = true) ∧
        ∀ x, x ∈ l.foldl (fun s x => insert lt x s) s ↔ x ∈ s ∨ x ∈ l by
    obtain ⟨hsorted, hmem⟩ := hfold [] .nil
    refine ⟨hsorted.imp ?_, by simpa using hmem⟩
    rintro y z hlt rfl
    rw [h.irrefl y trivial] at hlt
    cases hlt
  induction l with
  | nil => exact fun s hs => ⟨hs, by simp⟩
  | cons x l ih =>
    intro s hs
    obtain ⟨hsorted, hmem⟩ := ih (insert lt x s) (pairwise_insert h hs)
    refine ⟨hsorted, ?_⟩
    intro z
    rw [List.foldl_cons, hmem, mem_insert h, List.mem_cons]
    tauto

end Lexicographic
