import Uscxml.Chart

/-!
# `ChartToC::resortStates`

The generator of C sorts the pseudo-states in front as the interpreter does, but its recursive call stands in each of
the three passes over the children of an element, so that an element is sorted once for every way in which the passes
above it can be combined. That is an odd number of times, and the result is the same.
-/

namespace Uscxml

namespace ChartToC

variable {β : Type}

def mapKids (g : Forest (Elem β) → Forest (Elem β)) (f : Forest (Elem β)) : Forest (Elem β) :=
  Forest.ofList ((Forest.toList f).map fun c => (c.1, g c.2))

def pass (p : Elem β → Bool) (f : Forest (Elem β)) : Forest (Elem β) :=
  Forest.ofList (moveToFront (fun c => p c.1) (Forest.toList f))

/-- `ChartToC::resortStates` for the children of one element: three passes, and each of them calls `resortStates` for
every child. As in `FastMicroStep` the first two passes look at the element and not at the child, so that one of them
moves all histories. The number bounds the depth. -/
def resortChildren : Nat → Forest (Elem β) → Forest (Elem β)
  | 0, f => f
  | n + 1, f =>
    let f := pass (fun e => e.tag = .history) (mapKids (resortChildren n) f)
    let f := mapKids (resortChildren n) f
    pass (fun e => e.tag = .initial) (mapKids (resortChildren n) f)

def resortStates (d : Document β) : Document β :=
  { d with tree := { d.tree with kids := resortChildren d.states.length d.tree.kids } }

theorem binding_resortStates (d : Document β) : (resortStates d).binding = d.binding := by rw [resortStates]

theorem tag?_resortStates_nil (d : Document β) : (resortStates d).tag? [] = d.tag? [] := by
  have hread : ∀ d : Document β, d.tag? [] = some d.tree.root.tag := fun _ => rfl
  rw [hread, hread, resortStates]

theorem toList_mapKids (g : Forest (Elem β) → Forest (Elem β)) (f : Forest (Elem β)) :
    Forest.toList (mapKids g f) = (Forest.toList f).map fun c => (c.1, g c.2) := Forest.toList_ofList _

theorem mapKids_pass (g : Forest (Elem β) → Forest (Elem β)) (p : Elem β → Bool) (f : Forest (Elem β)) :
    mapKids g (pass p f) = pass p (mapKids g f) := by
  simp only [mapKids, pass, Forest.toList_ofList, moveToFront_eq, List.map_append, List.map_reverse, List.filter_map]
  rfl

theorem sortSiblings_eq (f : Forest (Elem β)) :
    sortSiblings f = pass (fun e => e.tag = .initial) (pass (fun e => e.tag = .history) f) := by
  rw [sortSiblings, pass, pass, Forest.toList_ofList]

theorem mapKids_sortSiblings (g : Forest (Elem β) → Forest (Elem β)) (f : Forest (Elem β)) :
    mapKids g (sortSiblings f) = sortSiblings (mapKids g f) := by
  rw [sortSiblings_eq, sortSiblings_eq, mapKids_pass, mapKids_pass]

theorem mapKids_mapKids (g g' : Forest (Elem β) → Forest (Elem β)) (f : Forest (Elem β)) :
    mapKids g (mapKids g' f) = mapKids (fun k => g (g' k)) f := by
  rw [mapKids, toList_mapKids, List.map_map]
  rfl

theorem mapKids_congr {g g' : Forest (Elem β) → Forest (Elem β)} {f : Forest (Elem β)}
    (h : ∀ c ∈ Forest.toList f, g c.2 = g' c.2) : mapKids g f = mapKids g' f := by
  rw [mapKids, mapKids]
  congr 1
  refine List.map_congr_left ?_
  intro c hc
  rw [h c hc]

theorem resortForest_eq (f : Forest (Elem β)) : resortForest f = mapKids (fun k => sortSiblings (resortForest k)) f := by
  induction f with
  | nil => rfl
  | cons a kids next _ ihn =>
    rw [resortForest, ihn]
    rfl

section MoveToFront

variable {γ : Type} {p q : γ → Bool}

theorem filter_filter_of_imp (h : ∀ c, p c = true → q c = true) (l : List γ) : (l.filter p).filter q = l.filter p := by
  rw [List.filter_eq_self]
  intro c hc
  exact h c (List.mem_filter.mp hc).2

theorem filter_filter_of_not (h : ∀ c, p c = true → q c = false) (l : List γ) : (l.filter p).filter q = [] := by
  rw [List.filter_eq_nil_iff]
  intro c hc
  simp [h c (List.mem_filter.mp hc).2]

variable (h : ∀ c, q c = true → p c = false)

include h

/-- Both kinds in front, each of them from the last to the first. -/
theorem moveToFront_moveToFront (l : List γ) : moveToFront p (moveToFront q l) =
    (l.filter p).reverse ++ ((l.filter q).reverse ++ l.filter fun c => !p c && !q c) := by
  have hfirst : (l.filter fun c => !q c).filter p = l.filter p := by
    rw [List.filter_filter]
    refine List.filter_congr ?_
    intro c _
    cases hq : q c with
    | true => simp [h c hq]
    | false => simp
  have hsecond : (l.filter q).filter (fun c => !p c) = l.filter q := filter_filter_of_imp (fun c hc => by simp [h c hc]) l
  rw [moveToFront_eq, moveToFront_eq, List.filter_append, List.filter_append, List.filter_reverse, List.filter_reverse,
    filter_filter_of_not h, hsecond, hfirst, List.filter_filter, List.reverse_nil, List.nil_append]

theorem moveToFront_thrice (l : List γ) :
    moveToFront p (moveToFront q (moveToFront p (moveToFront q (moveToFront p (moveToFront q l))))) =
      moveToFront p (moveToFront q l) := by
  have hp : ∀ l : List γ, (moveToFront p (moveToFront q l)).filter p = (l.filter p).reverse := by
    intro l
    rw [moveToFront_moveToFront h, List.filter_append, List.filter_append, List.filter_reverse, List.filter_reverse,
      filter_filter_of_imp (fun _ hc => hc), filter_filter_of_not h, filter_filter_of_not (fun c hc => by simp_all)]
    simp
  have hq : ∀ l : List γ, (moveToFront p (moveToFront q l)).filter q = (l.filter q).reverse := by
    intro l
    rw [moveToFront_moveToFront h, List.filter_append, List.filter_append, List.filter_reverse, List.filter_reverse,
      filter_filter_of_not (fun c hc => ?_), filter_filter_of_imp (fun _ hc => hc),
      filter_filter_of_not (fun c hc => by simp_all)]
    · simp
    · cases hq : q c with
      | true => simp [h c hq] at hc
      | false => rfl
  have hrest : ∀ l : List γ, (moveToFront p (moveToFront q l)).filter (fun c => !p c && !q c) =
      l.filter fun c => !p c && !q c := by
    intro l
    rw [moveToFront_moveToFront h, List.filter_append, List.filter_append, List.filter_reverse, List.filter_reverse,
      filter_filter_of_not (fun c hc => by simp [hc]), filter_filter_of_not (fun c hc => by simp [hc]),
      filter_filter_of_imp (fun _ hc => hc)]
    simp
  rw [moveToFront_moveToFront h, hp, hp, hq, hq, hrest, hrest, List.reverse_reverse, List.reverse_reverse,
    moveToFront_moveToFront h]

end MoveToFront

theorem sortSiblings_thrice (f : Forest (Elem β)) : sortSiblings (sortSiblings (sortSiblings f)) = sortSiblings f := by
  simp only [sortSiblings, Forest.toList_ofList]
  rw [moveToFront_thrice]
  intro c hc
  rw [decide_eq_true_iff] at hc
  simp [hc]

theorem resortForest_sortSiblings (f : Forest (Elem β)) :
    resortForest (sortSiblings f) = sortSiblings (resortForest f) := by
  rw [resortForest_eq, mapKids_sortSiblings, ← resortForest_eq]

theorem resortForest_thrice (f : Forest (Elem β)) : resortForest (resortForest (resortForest f)) = resortForest f := by
  induction f with
  | nil => rfl
  | cons a kids next ihk ihn =>
    simp only [resortForest, resortForest_sortSiblings, sortSiblings_thrice, ihk, ihn]

/-- The forest is at most `n` levels deep. -/
def Fits : Nat → Forest (Elem β) → Prop
  | 0, f => Forest.toList f = []
  | n + 1, f => ∀ c ∈ Forest.toList f, Fits n c.2

theorem Fits.succ {n : Nat} {f : Forest (Elem β)} (h : Fits n f) : Fits (n + 1) f := by
  induction n generalizing f with
  | zero =>
    intro c hc
    rw [Fits] at h
    simp [h] at hc
  | succ n ih => exact fun c hc => ih (h c hc)

theorem Fits.mono {n m : Nat} {f : Forest (Elem β)} (h : Fits n f) (hnm : n ≤ m) : Fits m f := by
  induction hnm with
  | refl => exact h
  | step _ ih => exact ih.succ

theorem fits_preorder (f : Forest (Elem β)) (k : Nat) : Fits (Forest.preorderFrom k f).length f := by
  induction f generalizing k with
  | nil => rfl
  | cons a kids next ihk ihn =>
    have hnext := ihn (k + 1)
    have hkids := ihk 0
    simp only [Forest.preorderFrom, List.length_cons, List.length_append, List.length_map]
    intro c hc
    rcases List.mem_cons.mp hc with rfl | hc
    · exact hkids.mono (Nat.le_add_right _ _)
    · cases hn : (Forest.preorderFrom (k + 1) next).length with
      | zero =>
        rw [hn, Fits] at hnext
        simp [hnext] at hc
      | succ m =>
        rw [hn] at hnext
        exact (hnext c hc).mono (by omega)

theorem Fits.sorted {n : Nat} {f : Forest (Elem β)} (h : Fits n f) : Fits n (sortSiblings (resortForest f)) := by
  induction n generalizing f with
  | zero =>
    rw [Fits] at h ⊢
    rw [sortSiblings, resortForest_eq, Forest.toList_ofList, toList_mapKids, h]
    rfl
  | succ n ih =>
    intro c hc
    rw [sortSiblings, resortForest_eq, Forest.toList_ofList, toList_mapKids, mem_moveToFront, mem_moveToFront,
      List.mem_map] at hc
    obtain ⟨c', hc', rfl⟩ := hc
    exact ih (h c' hc')

theorem resortChildren_eq {n : Nat} {f : Forest (Elem β)} (h : Fits n f) :
    resortChildren n f = sortSiblings (resortForest f) := by
  induction n generalizing f with
  | zero =>
    rw [Fits] at h
    rw [resortChildren, sortSiblings, resortForest_eq, toList_mapKids, h]
    cases f with
    | nil => rfl
    | cons a kids next => cases h
  | succ n ih =>
    -- Every child is sorted three times, which is as good as once.
    have hkids : ∀ c ∈ Forest.toList f,
        resortChildren n (resortChildren n (resortChildren n c.2)) = sortSiblings (resortForest c.2) := by
      intro c hc
      have hc' := h c hc
      rw [ih hc', ih hc'.sorted, ih hc'.sorted.sorted]
      simp only [resortForest_sortSiblings, sortSiblings_thrice, resortForest_thrice]
    simp only [resortChildren, mapKids_pass, mapKids_mapKids]
    have hsorted : mapKids (fun k => resortChildren n (resortChildren n (resortChildren n k))) f =
        mapKids (fun k => sortSiblings (resortForest k)) f := mapKids_congr hkids
    rw [hsorted, ← resortForest_eq, sortSiblings_eq]

/-- Both generators of tables see the same document. -/
theorem resortStates_eq (d : Document β) : resortStates d = Uscxml.resortStates d := by
  have hfits : Fits d.states.length d.tree.kids :=
    (fits_preorder d.tree.kids 0).mono (by simp [Document.states, RoseTree.preorder])
  rw [resortStates, resortChildren_eq hfits, Uscxml.resortStates]

/-! ### The children of an element -/

theorem exists_sorted_kids (f : Forest (Elem β)) (p : TreePath) :
    ∃ g, ∀ k, (sortSiblings (resortForest f)).get? (p ++ [k]) = (sortSiblings g).get? [k] := by
  induction p generalizing f with
  | nil => exact ⟨resortForest f, fun k => rfl⟩
  | cons j p ih =>
    cases hc : (Forest.toList (sortSiblings (resortForest f)))[j]? with
    | none =>
      refine ⟨.nil, fun k => ?_⟩
      rw [List.cons_append, Forest.get?_cons, hc]
      rfl
    | some c =>
      have hmem := List.mem_of_getElem? hc
      rw [sortSiblings, Forest.toList_ofList, mem_moveToFront, mem_moveToFront, resortForest_eq, toList_mapKids,
        List.mem_map] at hmem
      obtain ⟨c', -, rfl⟩ := hmem
      obtain ⟨g, hg⟩ := ih c'.2
      refine ⟨g, fun k => ?_⟩
      rw [List.cons_append, Forest.get?_cons, hc, ← hg k]
      simp

theorem sortSiblings_history (f : Forest (Elem β)) {j k : Nat} (hjk : j < k)
    (h : forestTag? (sortSiblings f) [k] = some .history) :
    forestTag? (sortSiblings f) [j] = some .history ∨ forestTag? (sortSiblings f) [j] = some .initial := by
  have hkinds : ∀ c : Elem β × Forest (Elem β), decide (c.1.tag = .history) = true →
      decide (c.1.tag = .initial) = false := by
    intro c hc
    rw [decide_eq_true_iff] at hc
    simp [hc]
  rw [forestTag?, Forest.get?_singleton, sortSiblings, Forest.toList_ofList, Option.map_map] at h ⊢
  rw [moveToFront_moveToFront hkinds, ← List.append_assoc] at h ⊢
  generalize hfront : ((Forest.toList f).filter fun c => decide (c.1.tag = .initial)).reverse ++
    ((Forest.toList f).filter fun c => decide (c.1.tag = .history)).reverse = front at h ⊢
  -- The history is not among the other children, so it stands in front with all before it.
  have hlt : k < front.length := by
    by_contra hge
    rw [List.getElem?_append_right (by omega)] at h
    obtain ⟨c, hc, htag⟩ := Option.map_eq_some_iff.mp h
    have hother := (List.mem_filter.mp (List.mem_of_getElem? hc)).2
    simp only [Function.comp_apply] at htag
    simp [htag] at hother
  rw [List.getElem?_append_left (by omega)]
  have hlt : j < front.length := by omega
  have hmem : front[j] ∈ front := List.getElem_mem hlt
  rw [List.getElem?_eq_getElem hlt]
  generalize front[j] = c at hmem ⊢
  rw [← hfront, List.mem_append, List.mem_reverse, List.mem_reverse, List.mem_filter, List.mem_filter] at hmem
  rcases hmem with ⟨-, htag⟩ | ⟨-, htag⟩
  · right
    simpa using htag
  · left
    simpa using htag

theorem resortStates_history_front (d : Document β) {p : TreePath} {j k : Nat} (hjk : j < k)
    (h : (Uscxml.resortStates d).tag? (p ++ [k]) = some .history) :
    (Uscxml.resortStates d).tag? (p ++ [j]) = some .history ∨ (Uscxml.resortStates d).tag? (p ++ [j]) = some .initial := by
  obtain ⟨g, hg⟩ := exists_sorted_kids d.tree.kids p
  have helem : ∀ k, (Uscxml.resortStates d).tag? (p ++ [k]) = forestTag? (sortSiblings g) [k] := by
    intro k
    rw [Document.tag?, forestTag?, ← hg k, Document.elem?]
    cases p <;> rfl
  rw [helem] at h ⊢
  exact sortSiblings_history g hjk h

end ChartToC

end Uscxml
