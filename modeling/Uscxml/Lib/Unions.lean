import Mathlib.Data.Finset.Basic
import Mathlib.Data.Finset.Lattice.Lemmas
import Mathlib.Data.List.Nodup

/-!
# Unions of sets from separate regions

Every set of one list joined with every set of another. When the sets of each list stay in a region of their own, a union
determines its parts, so that repeating this lists every choice of one set for each region exactly once.
-/

namespace List

variable {α ι : Type*} [DecidableEq α]

/-- The unions of a set of the first and a set of the second list. -/
def unions (acc sets : List (Finset α)) : List (Finset α) := acc.flatMap fun e => sets.map (e ∪ ·)

theorem mem_unions {acc sets : List (Finset α)} {s : Finset α} :
    s ∈ acc.unions sets ↔ ∃ e ∈ acc, ∃ t ∈ sets, e ∪ t = s := by
  simp [unions]

theorem unions_ne_nil {acc sets : List (Finset α)} (h : acc ≠ []) (h' : sets ≠ []) : acc.unions sets ≠ [] := by
  obtain ⟨e, he⟩ := List.exists_mem_of_ne_nil acc h
  obtain ⟨t, ht⟩ := List.exists_mem_of_ne_nil sets h'
  exact List.ne_nil_of_mem (mem_unions.mpr ⟨e, he, t, ht, rfl⟩)

section Regions

variable {R : ι → α → Prop} [∀ i, DecidablePred (R i)]

/-- The two parts of a union, one inside of a region and one outside of it. -/
theorem filter_union_inside {i : ι} {e t : Finset α} (he : ∀ x ∈ e, ¬ R i x) (ht : ∀ x ∈ t, R i x) :
    (e ∪ t).filter (R i) = t := by
  rw [Finset.filter_union, Finset.filter_false_of_mem he, Finset.filter_true_of_mem ht, Finset.empty_union]

theorem filter_union_outside {i : ι} {e t : Finset α} (he : ∀ x ∈ e, ¬ R i x) (ht : ∀ x ∈ t, R i x) :
    (e ∪ t).filter (fun x => ¬ R i x) = e := by
  rw [Finset.filter_union, Finset.filter_true_of_mem he, Finset.filter_false_of_mem (fun x hx => not_not.mpr (ht x hx)),
    Finset.union_empty]

omit [∀ i, DecidablePred (R i)] in
theorem outside_unions {i j : ι} {acc sets : List (Finset α)} (hij : ∀ x, R i x → ¬ R j x)
    (he : ∀ e ∈ acc, ∀ x ∈ e, ¬ R j x) (ht : ∀ t ∈ sets, ∀ x ∈ t, R i x) : ∀ e ∈ acc.unions sets, ∀ x ∈ e, ¬ R j x := by
  intro s hs x hx
  obtain ⟨e, hmem, t, htmem, rfl⟩ := mem_unions.mp hs
  rcases Finset.mem_union.mp hx with hx | hx
  · exact he e hmem x hx
  · exact hij x (ht t htmem x hx)

theorem nodup_unions {i : ι} {acc sets : List (Finset α)} (hacc : acc.Nodup) (hsets : sets.Nodup)
    (he : ∀ e ∈ acc, ∀ x ∈ e, ¬ R i x) (ht : ∀ t ∈ sets, ∀ x ∈ t, R i x) : (acc.unions sets).Nodup := by
  rw [unions, List.nodup_flatMap]
  constructor
  · intro e hmem
    refine hsets.map_on ?_
    intro t htmem t' htmem' heq
    rw [← filter_union_inside (he e hmem) (ht t htmem), heq, filter_union_inside (he e hmem) (ht t' htmem')]
  · refine hacc.pairwise_of_forall_ne ?_
    intro e hmem e' hmem' hne s hs hs'
    obtain ⟨t, htmem, rfl⟩ := List.mem_map.mp hs
    obtain ⟨t', htmem', heq⟩ := List.mem_map.mp hs'
    refine hne ?_
    rw [← filter_union_outside (he e hmem) (ht t htmem), ← heq, filter_union_outside (he e' hmem') (ht t' htmem')]

/-- A set is listed when it is one of the first list outside of all regions, and in every region one of the list of
that region. -/
theorem mem_foldl_unions {N : List (ι × List (Finset α))} (hdisj : N.Pairwise fun a b => ∀ x, R a.1 x → ¬ R b.1 x)
    (hN : ∀ a ∈ N, ∀ t ∈ a.2, ∀ x ∈ t, R a.1 x) {acc : List (Finset α)} (hacc : ∀ e ∈ acc, ∀ a ∈ N, ∀ x ∈ e, ¬ R a.1 x)
    {s : Finset α} :
    s ∈ N.foldl (fun acc a => acc.unions a.2) acc ↔
      s.filter (fun x => ∀ a ∈ N, ¬ R a.1 x) ∈ acc ∧ ∀ a ∈ N, s.filter (R a.1) ∈ a.2 := by
  induction N generalizing acc with
  | nil => simp
  | cons a N ih =>
    rw [List.pairwise_cons] at hdisj
    have hacc' : ∀ e ∈ acc.unions a.2, ∀ b ∈ N, ∀ x ∈ e, ¬ R b.1 x := fun e he b hb =>
      outside_unions (hdisj.1 b hb) (fun e he => hacc e he b (List.mem_cons_of_mem a hb)) (hN a List.mem_cons_self) e he
    rw [List.foldl_cons, ih hdisj.2 (fun b hb => hN b (List.mem_cons_of_mem a hb)) hacc', List.forall_mem_cons,
      ← and_assoc]
    refine and_congr_left fun _ => ?_
    have hout : (s.filter fun x => ∀ b ∈ N, ¬ R b.1 x).filter (fun x => ¬ R a.1 x) =
        s.filter fun x => ∀ b ∈ a :: N, ¬ R b.1 x := by
      ext x
      simp only [Finset.mem_filter, List.forall_mem_cons]
      tauto
    have hin : (s.filter fun x => ∀ b ∈ N, ¬ R b.1 x).filter (R a.1) = s.filter (R a.1) := by
      rw [Finset.filter_filter]
      refine Finset.filter_congr fun x _ => ?_
      exact ⟨fun h => h.2, fun h => ⟨fun b hb => hdisj.1 b hb x h, h⟩⟩
    rw [mem_unions]
    constructor
    · rintro ⟨e, he, t, ht, heq⟩
      have hne := hacc e he a List.mem_cons_self
      have hnt := hN a List.mem_cons_self t ht
      rw [← hout, ← hin, ← heq, filter_union_outside hne hnt, filter_union_inside hne hnt]
      exact ⟨he, ht⟩
    · intro ⟨he, ht⟩
      refine ⟨_, he, _, ht, ?_⟩
      rw [← hout, ← hin, Finset.union_comm, Finset.filter_union_filter_not_eq]

theorem nodup_foldl_unions {N : List (ι × List (Finset α))} (hdisj : N.Pairwise fun a b => ∀ x, R a.1 x → ¬ R b.1 x)
    (hN : ∀ a ∈ N, ∀ t ∈ a.2, ∀ x ∈ t, R a.1 x) (hnodup : ∀ a ∈ N, a.2.Nodup) {acc : List (Finset α)} (h : acc.Nodup)
    (hacc : ∀ e ∈ acc, ∀ a ∈ N, ∀ x ∈ e, ¬ R a.1 x) : (N.foldl (fun acc a => acc.unions a.2) acc).Nodup := by
  induction N generalizing acc with
  | nil => exact h
  | cons a N ih =>
    rw [List.pairwise_cons] at hdisj
    refine ih hdisj.2 (fun b hb => hN b (List.mem_cons_of_mem a hb)) (fun b hb => hnodup b (List.mem_cons_of_mem a hb)) ?_ ?_
    · exact nodup_unions h (hnodup a List.mem_cons_self) (fun e he => hacc e he a List.mem_cons_self)
        (hN a List.mem_cons_self)
    · exact fun e he b hb =>
        outside_unions (hdisj.1 b hb) (fun e he => hacc e he b (List.mem_cons_of_mem a hb)) (hN a List.mem_cons_self) e he

end Regions

end List
