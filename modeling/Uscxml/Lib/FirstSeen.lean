import Mathlib.Data.Finset.Dedup
import Mathlib.Data.Finset.Card
import Mathlib.Data.List.TakeWhile
import Uscxml.Lib.Fold

/-!
# Different elements in the order of their first occurrence

A list is read once, and an element that has not been seen yet is put at the end. The place of an element in the result
is the number of different elements before its first occurrence.
-/

section

variable {α : Type*} [DecidableEq α]

def firstSeen (l : List α) : List α := l.foldl List.addNew []

theorem firstSeen_concat (l : List α) (a : α) :
    firstSeen (l ++ [a]) = if a ∈ firstSeen l then firstSeen l else firstSeen l ++ [a] := by
  rw [firstSeen, List.foldl_append]
  rfl

theorem mem_firstSeen {l : List α} {a : α} : a ∈ firstSeen l ↔ a ∈ l := by
  rw [firstSeen, List.mem_foldl_addNew]
  simp

theorem nodup_firstSeen (l : List α) : (firstSeen l).Nodup := by
  induction l using List.reverseRecOn with
  | nil => exact List.nodup_nil
  | append_singleton l b ih =>
    rw [firstSeen_concat]
    split
    · exact ih
    · rename_i hb
      exact List.nodup_append.mpr ⟨ih, List.nodup_singleton b, fun a ha c hc => by
        rw [List.mem_singleton.mp hc]
        rintro rfl
        exact hb ha⟩

theorem length_firstSeen (l : List α) : (firstSeen l).length = l.toFinset.card := by
  have hsame : (firstSeen l).toFinset = l.toFinset := by
    ext a
    rw [List.mem_toFinset, List.mem_toFinset, mem_firstSeen]
  rw [← List.toFinset_card_of_nodup (nodup_firstSeen l), hsame]

theorem exists_firstSeen_append (l l' : List α) : ∃ rest, firstSeen (l ++ l') = firstSeen l ++ rest := by
  induction l' using List.reverseRecOn with
  | nil => exact ⟨[], by rw [List.append_nil, List.append_nil]⟩
  | append_singleton l' a ih =>
    obtain ⟨rest, hrest⟩ := ih
    rw [← List.append_assoc, firstSeen_concat, hrest]
    split
    · exact ⟨rest, rfl⟩
    · exact ⟨rest ++ [a], List.append_assoc _ _ _⟩

theorem findIdx?_firstSeen {l : List α} {a : α} (h : a ∈ l) :
    (firstSeen l).findIdx? (fun b => b = a) = some (l.takeWhile (· ≠ a)).toFinset.card := by
  obtain ⟨post, hsplit⟩ : ∃ post, l = l.takeWhile (· ≠ a) ++ a :: post := by
    have hdrop : l.dropWhile (· ≠ a) ≠ [] := by
      rw [ne_eq, List.dropWhile_eq_nil_iff]
      intro hall
      simpa using hall a h
    obtain ⟨b, post, hpost⟩ := List.exists_cons_of_ne_nil hdrop
    have hb : b = a := by
      have hhead : (l.dropWhile (· ≠ a)).head hdrop = b := by simp only [hpost, List.head_cons]
      have hstop := List.head_dropWhile_not (fun x => decide (x ≠ a)) hdrop
      rw [hhead] at hstop
      simpa using hstop
    refine ⟨post, ?_⟩
    rw [← hb, ← hpost, hb]
    exact List.takeWhile_append_dropWhile.symm
  have hnot : a ∉ firstSeen (l.takeWhile (· ≠ a)) := by
    intro ha
    have := List.mem_takeWhile_imp (mem_firstSeen.mp ha)
    simp at this
  obtain ⟨rest, hrest⟩ := exists_firstSeen_append (l.takeWhile (· ≠ a) ++ [a]) post
  have hnone : (firstSeen (l.takeWhile (· ≠ a))).findIdx? (fun b => b = a) = none := by
    rw [List.findIdx?_eq_none_iff]
    intro b hb
    exact decide_eq_false fun hba => hnot (hba ▸ hb)
  have hseen : firstSeen l = firstSeen (l.takeWhile (· ≠ a)) ++ (a :: rest) := by
    conv_lhs => rw [hsplit]
    rw [List.append_cons, hrest, firstSeen_concat, if_neg hnot, List.append_assoc]
    rfl
  rw [hseen, List.findIdx?_append, hnone, List.findIdx?_cons, if_pos (decide_eq_true rfl), ← length_firstSeen]
  simp

end
