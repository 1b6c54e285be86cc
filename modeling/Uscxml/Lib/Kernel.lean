import Uscxml.Lib.Fold
import Mathlib.Data.Finset.Basic
import Mathlib.Data.List.Induction

/-!
# Choosing without conflicts

Two ways to choose from a list of candidates of which some exclude each other. The greedy choice walks over
the list and takes what none of those taken before it excludes; its result is the only kernel of the
candidates, the set that holds exactly what no earlier member of it excludes. The other walk may take back
what it has chosen, when the newcomer outranks all chosen candidates it excludes.
-/

namespace Kernel

variable {α : Type*}

/-! ### The greedy choice -/

section Greedy

variable [DecidableEq α] (candidate : α → Prop) (conflict : α → α → Prop) [DecidablePred candidate] [DecidableRel conflict]

/-- Take a candidate unless something taken excludes it. -/
def take (S : Finset α) (t : α) : Finset α := if candidate t ∧ ∀ s ∈ S, ¬ conflict s t then insert t S else S

def greedy (l : List α) : Finset α := l.foldl (take candidate conflict) ∅

/-- `S` holds the candidates of `l` that no earlier member of `S` excludes. -/
def IsKernel (before : α → α → Prop) (l : List α) (S : Finset α) : Prop :=
  ∀ t, t ∈ S ↔ t ∈ l ∧ candidate t ∧ ∀ s ∈ S, before s t → ¬ conflict s t

variable {candidate conflict} {before : α → α → Prop} (hasymm : ∀ s t, before s t → ¬ before t s)

include hasymm

/-- What the greedy choice takes from the front of a list in which nothing occurs twice is what a kernel of the list
has there. -/
theorem greedy_append {l l' : List α} {S : Finset α} (hl : (l ++ l').Pairwise before)
    (hS : IsKernel candidate conflict before (l ++ l') S) :
    greedy candidate conflict l = S.filter (· ∈ l) := by
  induction l using List.reverseRecOn generalizing l' with
  | nil => simp [greedy]
  | append_singleton l t ih =>
    rw [List.append_assoc] at hl hS
    have hl' := (List.pairwise_append.mp hl).2.2
    have hbefore : ∀ s ∈ l, before s t := fun s hs => hl' s hs t (by simp)
    have hirrefl : ¬ before t t := fun h => hasymm t t h h
    have hstep : greedy candidate conflict (l ++ [t]) = take candidate conflict (S.filter (· ∈ l)) t := by
      rw [greedy, List.foldl_append, ← greedy, ih hl hS]
      rfl
    -- A member of the kernel before `t` stands in the front of the list.
    have hfront : ∀ s ∈ S, before s t → s ∈ l := by
      intro s hs hst
      rcases List.mem_append.mp ((hS s).mp hs).1 with h | h
      · exact h
      rcases List.mem_append.mp h with h | h
      · rw [List.mem_singleton.mp h] at hst
        exact absurd hst hirrefl
      · have hts := (List.pairwise_append.mp (List.pairwise_append.mp hl).2.1).2.2 t (by simp) s h
        exact absurd hst (hasymm t s hts)
    have hmem : t ∈ S ↔ candidate t ∧ ∀ s ∈ S.filter (· ∈ l), ¬ conflict s t := by
      rw [hS t]
      constructor
      · rintro ⟨-, hc, hfree⟩
        refine ⟨hc, fun s hs => ?_⟩
        obtain ⟨hs, hsl⟩ := Finset.mem_filter.mp hs
        exact hfree s hs (hbefore s hsl)
      · rintro ⟨hc, hfree⟩
        refine ⟨by simp, hc, fun s hs hst => ?_⟩
        exact hfree s (Finset.mem_filter.mpr ⟨hs, hfront s hs hst⟩)
    rw [hstep, take]
    ext u
    split
    · rename_i h
      rw [← hmem] at h
      simp only [Finset.mem_insert, Finset.mem_filter, List.mem_append, List.mem_singleton]
      constructor
      · rintro (rfl | hu)
        · exact ⟨h, Or.inr rfl⟩
        · exact ⟨hu.1, Or.inl hu.2⟩
      · rintro ⟨hu, hul | rfl⟩
        · exact Or.inr ⟨hu, hul⟩
        · exact Or.inl rfl
    · rename_i h
      rw [← hmem] at h
      simp only [Finset.mem_filter, List.mem_append, List.mem_singleton]
      constructor
      · exact fun hu => ⟨hu.1, Or.inl hu.2⟩
      · rintro ⟨hu, hul | rfl⟩
        · exact ⟨hu, hul⟩
        · exact absurd hu h

theorem greedy_isKernel {l : List α} (hl : l.Pairwise before) :
    IsKernel candidate conflict before l (greedy candidate conflict l) := by
  induction l using List.reverseRecOn with
  | nil => simp [IsKernel, greedy]
  | append_singleton l t ih =>
    have ih := ih (List.pairwise_append.mp hl).1
    have hbefore : ∀ s ∈ l, before s t := fun s hs => (List.pairwise_append.mp hl).2.2 s hs t (by simp)
    have hirrefl : ¬ before t t := fun h => hasymm t t h h
    have hnot : t ∉ l := fun h => hirrefl (hbefore t h)
    have hsub : ∀ s ∈ greedy candidate conflict l, s ∈ l := fun s hs => ((ih s).mp hs).1
    have hstep : greedy candidate conflict (l ++ [t]) =
        take candidate conflict (greedy candidate conflict l) t := by
      rw [greedy, List.foldl_append, ← greedy]
      rfl
    rw [hstep]
    generalize greedy candidate conflict l = S at ih hsub
    -- What is taken at the end of the list excludes nothing before it.
    have hold : ∀ u ∈ l, u ∈ take candidate conflict S t ↔ u ∈ S := by
      intro u hu
      rw [take]
      split
      · rw [Finset.mem_insert]
        refine ⟨fun h => h.resolve_left ?_, Or.inr⟩
        rintro rfl
        exact hnot hu
      · exact Iff.rfl
    have hearlier : ∀ s ∈ take candidate conflict S t, ∀ u, before s u → u ∈ l ++ [t] → s ∈ S := by
      intro s hs u hsu hu
      rw [take] at hs
      split at hs
      · rcases Finset.mem_insert.mp hs with rfl | hs
        · rcases List.mem_append.mp hu with hu | hu
          · exact absurd hsu (hasymm u s (hbefore u hu))
          · rw [List.mem_singleton.mp hu] at hsu
            exact absurd hsu hirrefl
        · exact hs
      · exact hs
    have hkeep : ∀ s ∈ S, s ∈ take candidate conflict S t := fun s hs => (hold s (hsub s hs)).mpr hs
    intro u
    by_cases hut : u = t
    · subst hut
      have hnew : u ∈ take candidate conflict S u ↔ candidate u ∧ ∀ s ∈ S, ¬ conflict s u := by
        rw [take]
        split
        · rename_i h
          exact ⟨fun _ => h, fun _ => Finset.mem_insert_self u S⟩
        · rename_i h
          exact ⟨fun hu => absurd (hsub u hu) hnot, fun hu => absurd hu h⟩
      rw [hnew]
      constructor
      · rintro ⟨hc, hfree⟩
        refine ⟨by simp, hc, fun s hs hsu => ?_⟩
        exact hfree s (hearlier s hs u hsu (by simp))
      · rintro ⟨-, hc, hfree⟩
        refine ⟨hc, fun s hs => ?_⟩
        exact hfree s (hkeep s hs) (hbefore s (hsub s hs))
    · constructor
      · intro hu
        have hu' : u ∈ S := by
          rw [take] at hu
          split at hu
          · exact (Finset.mem_insert.mp hu).resolve_left hut
          · exact hu
        obtain ⟨hul, hc, hfree⟩ := (ih u).mp hu'
        refine ⟨List.mem_append_left _ hul, hc, fun s hs hsu => ?_⟩
        exact hfree s (hearlier s hs u hsu (List.mem_append_left _ hul)) hsu
      · rintro ⟨hu, hc, hfree⟩
        have hul : u ∈ l := (List.mem_append.mp hu).resolve_right fun h => hut (List.mem_singleton.mp h)
        refine hkeep u ((ih u).mpr ⟨hul, hc, fun s hs hsu => ?_⟩)
        exact hfree s (hkeep s hs) hsu

/-- The greedy choice is the only kernel. -/
theorem greedy_eq_iff {l : List α} (hl : l.Pairwise before) {S : Finset α} :
    greedy candidate conflict l = S ↔ IsKernel candidate conflict before l S := by
  constructor
  · rintro rfl
    exact greedy_isKernel hasymm hl
  · intro hS
    have hall : S.filter (· ∈ l) = S := Finset.filter_true_of_mem fun s hs => ((hS s).mp hs).1
    rw [← hall]
    rw [← List.append_nil l] at hl hS
    exact greedy_append hasymm hl hS

omit hasymm [DecidableEq α] [DecidablePred candidate] [DecidableRel conflict] in
/-- A kernel of which all members are candidates in a narrower sense is a kernel in that sense, and each other candidate is
excluded by an earlier member. -/
theorem isKernel_narrower_iff {narrower : α → Prop} {l : List α} {S : Finset α} (h : ∀ t, narrower t → candidate t) :
    IsKernel candidate conflict before l S ∧ (∀ t ∈ S, narrower t) ↔
      IsKernel narrower conflict before l S ∧
        ∀ t ∈ l, candidate t → ¬ narrower t → ∃ s ∈ S, before s t ∧ conflict s t := by
  constructor
  · intro ⟨hS, hnarrower⟩
    refine ⟨fun t => ⟨fun ht => ?_, fun ⟨htl, ht, hfree⟩ => (hS t).mpr ⟨htl, h t ht, hfree⟩⟩, ?_⟩
    · obtain ⟨htl, -, hfree⟩ := (hS t).mp ht
      exact ⟨htl, hnarrower t ht, hfree⟩
    · intro t htl ht hnot
      by_contra hnone
      refine hnot (hnarrower t ((hS t).mpr ⟨htl, ht, fun s hs hst hc => ?_⟩))
      exact hnone ⟨s, hs, hst, hc⟩
  · intro ⟨hS, hothers⟩
    refine ⟨fun t => ⟨fun ht => ?_, fun ⟨htl, ht, hfree⟩ => ?_⟩, fun t ht => ((hS t).mp ht).2.1⟩
    · obtain ⟨htl, ht', hfree⟩ := (hS t).mp ht
      exact ⟨htl, h t ht', hfree⟩
    · by_cases ht' : narrower t
      · exact (hS t).mpr ⟨htl, ht', hfree⟩
      · obtain ⟨s, hs, hst, hc⟩ := hothers t htl ht ht'
        exact absurd hc (hfree s hs hst)

omit [DecidableEq α] [DecidablePred candidate] [DecidableRel conflict] in
theorem mem_take_idxOf_iff [BEq α] [LawfulBEq α] {l : List α} (hl : l.Pairwise before) {s t : α} (ht : t ∈ l) :
    s ∈ l.take (l.idxOf t) ↔ s ∈ l ∧ before s t := by
  have hlt := List.idxOf_lt_length_of_mem ht
  have hsplit : l = l.take (l.idxOf t) ++ t :: l.drop (l.idxOf t + 1) := by
    conv_lhs => rw [← List.take_append_drop (l.idxOf t) l]
    rw [List.drop_eq_getElem_cons hlt, List.getElem_idxOf hlt]
  rw [hsplit] at hl
  obtain ⟨-, hback, hfront⟩ := List.pairwise_append.mp hl
  constructor
  · intro hs
    exact ⟨List.mem_of_mem_take hs, hfront s hs t List.mem_cons_self⟩
  · intro ⟨hs, hst⟩
    rw [hsplit] at hs
    rcases List.mem_append.mp hs with h | h
    · exact h
    rcases List.mem_cons.mp h with rfl | h
    · exact absurd hst (hasymm s s hst)
    · exact absurd hst (hasymm t s (List.rel_of_pairwise_cons hback h))

end Greedy

/-! ### Choosing by rank -/

section Ranked

variable (conflict outranks : α → α → Prop) [DecidableRel conflict] [DecidableRel outranks]

/-- Pass over the newcomer when it excludes something chosen that it does not outrank; otherwise it takes the
place of everything it excludes. -/
def challenge (chosen : List α) (t : α) : List α :=
  if ∃ u ∈ chosen, conflict t u ∧ ¬ outranks t u then chosen
  else chosen.filter (fun u => ¬ conflict t u) ++ [t]

/-- What is left of the candidates in the end. -/
def ranked (l : List α) : List α := l.foldl (challenge conflict outranks) []

variable {conflict outranks} {before : α → α → Prop}

theorem ranked_append (l : List α) (t : α) :
    ranked conflict outranks (l ++ [t]) = challenge conflict outranks (ranked conflict outranks l) t := by
  rw [ranked, List.foldl_append]
  rfl

theorem ranked_subset (l : List α) : ∀ t ∈ ranked conflict outranks l, t ∈ l := by
  induction l using List.reverseRecOn with
  | nil => simp [ranked]
  | append_singleton l t ih =>
    intro u hu
    rw [ranked_append, challenge] at hu
    split at hu
    · exact List.mem_append_left _ (ih u hu)
    · rcases List.mem_append.mp hu with hu | hu
      · exact List.mem_append_left _ (ih u (List.mem_filter.mp hu).1)
      · exact List.mem_append_right _ hu

/-- Whatever is not chosen is excluded by a chosen candidate that outranks it, or by one before it that it does
not outrank. A candidate between two others of which the second outranks the first must outrank it too: then what
was passed over for the sake of a candidate that is taken back later is outranked by the newcomer. -/
theorem ranked_dominates (conflict outranks : α → α → Prop) [DecidableRel conflict] [DecidableRel outranks] {l : List α}
    (hl : l.Pairwise before)
    (hsymm : ∀ s t, conflict s t → conflict t s)
    (htrans : ∀ s t u, outranks s t → outranks t u → outranks s u)
    (hbetween : ∀ s ∈ l, ∀ t ∈ l, ∀ u ∈ l, before s t → before t u → outranks u s → outranks t s)
    (hconflict : ∀ s ∈ l, ∀ t ∈ l, ∀ u ∈ l, outranks s t → outranks t u → conflict s t → conflict t u →
      conflict s u) :
    ∀ t ∈ l, t ∉ ranked conflict outranks l →
      ∃ s ∈ ranked conflict outranks l, conflict s t ∧ (outranks s t ∨ before s t ∧ ¬ outranks t s) := by
  induction l using List.reverseRecOn with
  | nil => simp
  | append_singleton l n ih =>
    have hfront : ∀ t ∈ l, t ∈ l ++ [n] := fun t ht => List.mem_append_left _ ht
    have hn : n ∈ l ++ [n] := by simp
    have hlast : ∀ t ∈ l, before t n := fun t ht => (List.pairwise_append.mp hl).2.2 t ht n (by simp)
    have ih := ih (List.pairwise_append.mp hl).1
      (fun s hs t ht u hu => hbetween s (hfront s hs) t (hfront t ht) u (hfront u hu))
      (fun s hs t ht u hu => hconflict s (hfront s hs) t (hfront t ht) u (hfront u hu))
    have hsub : ∀ t ∈ ranked conflict outranks l, t ∈ l := ranked_subset l
    rw [ranked_append]
    generalize ranked conflict outranks l = chosen at ih hsub
    intro t ht hnot
    rw [challenge] at hnot ⊢
    by_cases hpass : ∃ u ∈ chosen, conflict n u ∧ ¬ outranks n u
    · rw [if_pos hpass] at hnot ⊢
      rcases List.mem_append.mp ht with ht | ht
      · exact ih t ht hnot
      · obtain ⟨u, hu, hc, hr⟩ := hpass
        rw [List.mem_singleton.mp ht]
        exact ⟨u, hu, hsymm n u hc, Or.inr ⟨hlast u (hsub u hu), hr⟩⟩
    rw [if_neg hpass] at hnot ⊢
    have hwins : ∀ u ∈ chosen, conflict n u → outranks n u := by
      intro u hu hc
      by_contra hr
      exact hpass ⟨u, hu, hc, hr⟩
    have htl : t ∈ l := by
      rcases List.mem_append.mp ht with ht | ht
      · exact ht
      · exact absurd (List.mem_append_right _ ht) hnot
    by_cases htc : t ∈ chosen
    · -- It was chosen until now, so the newcomer has taken its place.
      have hc : conflict n t := by
        by_contra hc
        exact hnot (List.mem_append_left _ (List.mem_filter.mpr ⟨htc, by simpa using hc⟩))
      exact ⟨n, List.mem_append_right _ (List.mem_singleton_self n), hc, Or.inl (hwins t htc hc)⟩
    · obtain ⟨s, hs, hc, hr⟩ := ih t htl htc
      by_cases hcn : conflict n s
      · have hns := hwins s hs hcn
        refine ⟨n, List.mem_append_right _ (List.mem_singleton_self n), ?_⟩
        rcases hr with hr | ⟨hb, hr⟩
        · exact ⟨hconflict n hn s (hfront s (hsub s hs)) t (hfront t htl) hns hr hcn hc,
            Or.inl (htrans n s t hns hr)⟩
        · exact absurd (hbetween s (hfront s (hsub s hs)) t (hfront t htl) n hn hb (hlast t htl) hns) hr
      · exact ⟨s, List.mem_append_left _ (List.mem_filter.mpr ⟨hs, by simpa using hcn⟩), hc, hr⟩

end Ranked

end Kernel
