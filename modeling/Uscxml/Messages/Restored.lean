import Uscxml.Messages.RoundTrip
import Uscxml.Messages.EventData

/-!
# What is written and read again

A `Data` that `toJSON` writes and `fromJSON` reads comes back with the items of all its arrays counted through. The
values of a map are written in the order of its keys.
-/

namespace Uscxml

namespace Data

/-- Wherever the value is written, it is read again with its items counted through. -/
structure Restored (d : Data) : Prop where
  readable : Readable d
  noNul : ∀ n, NoNul (coreText n d)
  counts : Counts d

/-- Neither a NUL nor a vertical tab. -/
def Clean (text : String) : Prop := ∀ c ∈ text.toList, c ≠ '\x00' ∧ c ≠ '\x0b'

theorem clean_of_all (text : String) (h : (text.toList.all fun c => c ≠ '\x00' && c ≠ '\x0b') = true) : Clean text := by
  intro c hc
  simpa using List.all_eq_true.mp h c hc

theorem Clean.noNul {text : String} (h : Clean text) : '\x00' ∉ text.toList := fun hmem => (h _ hmem).1 rfl

theorem Clean.noTab {text : String} (h : Clean text) : '\x0b' ∉ text.toList := fun hmem => (h _ hmem).2 rfl

theorem restored_text {text : String} (h : Clean text) : Restored (ofText text) where
  readable := readable_text h.noTab
  noNul n := by
    rw [ofText, coreText_text]
    exact noNul_quoted h.noNul
  counts := counts_atom text true

theorem restored_null : Restored (mk "null" false [] []) where
  readable := readable_null
  noNul n := by
    rw [coreText_integer n (by decide)]
    show ∀ c ∈ ['n', 'u', 'l', 'l'], c ≠ '\x00'
    simp
  counts := counts_atom "null" false

theorem restored_compound (verbatim : Bool) {members : List (String × Data)} (hne : members ≠ [])
    (hkeys : ∀ m ∈ members, Clean m.1) (hsorted : members.Pairwise (·.1 < ·.1)) (h : ∀ m ∈ members, Restored m.2) :
    Restored (mk "" verbatim members []) where
  readable := readable_compound hne (fun m hm => (h m hm).readable) (fun m hm => (hkeys m hm).noTab) hsorted
  noNul := noNul_compound verbatim hne (fun m hm => (hkeys m hm).noNul) fun m hm => (h m hm).noNul
  counts := counts_compound verbatim hne fun m hm => (h m hm).counts

theorem restored_array (verbatim : Bool) {items : List (Nat × Data)} (hne : items ≠ []) (h : ∀ i ∈ items, Restored i.2) :
    Restored (mk "" verbatim [] items) where
  readable := readable_array hne (fun i hi => (h i hi).readable) fun i hi => (h i hi).counts
  noNul := noNul_array verbatim hne fun i hi => (h i hi).noNul
  counts := counts_array verbatim hne fun i hi => (h i hi).counts

/-- A value without arrays is counted through without a change. -/
def Uncounted (d : Data) : Prop := ∀ index, renumber index d = (d, index)

theorem uncounted_text (text : String) : Uncounted (ofText text) := fun index => renumber_atom index text true

theorem renumberMembers_uncounted {members : List (String × Data)} (h : ∀ m ∈ members, Uncounted m.2) (index : Nat) :
    renumberMembers index members = (members, index) := by
  induction members with
  | nil => rfl
  | cons m members ih =>
    obtain ⟨key, d⟩ := m
    obtain ⟨hd, hmembers⟩ := List.forall_mem_cons.mp h
    rw [renumberMembers, hd, ih hmembers]

theorem uncounted_compound {members : List (String × Data)} (hne : members ≠ []) (h : ∀ m ∈ members, Uncounted m.2) :
    Uncounted (mk "" false members []) := by
  intro index
  rw [renumber_compound index false hne, renumberMembers_uncounted h]

theorem renumberItems_uncounted {values : List Data} (h : ∀ v ∈ values, Uncounted v) (index index' : Nat) :
    renumberItems index (itemsFrom index' values) = (itemsFrom index values, index + values.length) := by
  induction values generalizing index index' with
  | nil => rfl
  | cons value values ih =>
    obtain ⟨hvalue, hvalues⟩ := List.forall_mem_cons.mp h
    rw [itemsFrom, renumberItems, hvalue, ih hvalues, itemsFrom, List.length_cons]
    simp only
    rw [Nat.add_assoc, Nat.add_comm 1]

theorem itemsToText_itemsFrom (n : Nat) (separator : List Char) (index index' : Nat) (values : List Data) :
    itemsToText n separator (itemsFrom index values) = itemsToText n separator (itemsFrom index' values) := by
  induction values generalizing separator index index' with
  | nil => rfl
  | cons value values ih => rw [itemsFrom, itemsFrom, itemsToText, itemsToText, ih _ (index + 1) (index' + 1)]

/-! ### Maps -/

def mapOf (values : List (String × Data)) : List (String × Data) :=
  values.foldl (fun map value => alter value.1 (fun _ => value.2) map) []

theorem mapOf_concat (values : List (String × Data)) (value : String × Data) :
    mapOf (values ++ [value]) = alter value.1 (fun _ => value.2) (mapOf values) := by
  rw [mapOf, List.foldl_append]
  rfl

theorem alter_ne_nil (key : String) (f : Data → Data) (l : List (String × Data)) : alter key f l ≠ [] := by
  cases l with
  | nil => simp [alter]
  | cons m l =>
    obtain ⟨k, d⟩ := m
    rw [alter]
    split
    · simp
    · split <;> simp

theorem mapOf_eq_nil_iff {values : List (String × Data)} : mapOf values = [] ↔ values = [] := by
  constructor
  · intro h
    rcases List.eq_nil_or_concat' values with rfl | ⟨values', value, rfl⟩
    · rfl
    · rw [mapOf_concat] at h
      exact absurd h (alter_ne_nil _ _ _)
  · rintro rfl
    rfl

theorem mem_alter {key : String} {value : Data} {l : List (String × Data)} {m : String × Data}
    (h : m ∈ alter key (fun _ => value) l) : m = (key, value) ∨ m ∈ l := by
  induction l with
  | nil => exact .inl (List.mem_singleton.mp h)
  | cons m' l ih =>
    obtain ⟨k, d⟩ := m'
    rw [alter] at h
    split at h
    · exact List.mem_cons.mp h
    · split at h
      · rename_i hkey
        subst hkey
        exact (List.mem_cons.mp h).imp_right (List.mem_cons_of_mem _)
      · rcases List.mem_cons.mp h with rfl | h
        · exact .inr List.mem_cons_self
        · exact (ih h).imp_right (List.mem_cons_of_mem _)

theorem mem_mapOf {values : List (String × Data)} {m : String × Data} (h : m ∈ mapOf values) : m ∈ values := by
  induction values using List.reverseRecOn with
  | nil => exact h
  | append_singleton values value ih =>
    rw [mapOf_concat] at h
    rcases mem_alter h with rfl | h
    · exact List.mem_append_right _ (List.mem_singleton_self _)
    · exact List.mem_append_left _ (ih h)

theorem alter_sorted {key : String} {value : Data} {l : List (String × Data)} (h : l.Pairwise (·.1 < ·.1)) :
    (alter key (fun _ => value) l).Pairwise (·.1 < ·.1) := by
  induction l with
  | nil => exact List.pairwise_singleton _ _
  | cons m l ih =>
    obtain ⟨k, d⟩ := m
    obtain ⟨hfirst, hrest⟩ := List.pairwise_cons.mp h
    rw [alter]
    split
    · rename_i hlt
      refine List.pairwise_cons.mpr ⟨List.forall_mem_cons.mpr ⟨hlt, fun m hm => ?_⟩, h⟩
      exact String.lt_trans hlt (hfirst m hm)
    · rename_i hnot
      split
      · rename_i hkey
        subst hkey
        exact List.pairwise_cons.mpr ⟨hfirst, hrest⟩
      · rename_i hne
        refine List.pairwise_cons.mpr ⟨fun m hm => ?_, ih hrest⟩
        rcases mem_alter hm with rfl | hm
        · by_contra hlt
          exact hne (String.le_antisymm hlt hnot)
        · exact hfirst m hm

theorem mapOf_sorted (values : List (String × Data)) : (mapOf values).Pairwise (·.1 < ·.1) := by
  induction values using List.reverseRecOn with
  | nil => exact .nil
  | append_singleton values value ih =>
    rw [mapOf_concat]
    exact alter_sorted ih

/-- Are these members written alike? -/
def SameTexts (members members' : List (String × Data)) : Prop :=
  ∀ n, members.map (fun m => (m.1, m.2.toText n)) = members'.map fun m => (m.1, m.2.toText n)

theorem SameTexts.alter {l l' : List (String × Data)} (h : SameTexts l l') (key : String) {value value' : Data}
    (hvalue : ∀ n, value.toText n = value'.toText n) :
    SameTexts (alter key (fun _ => value) l) (Data.alter key (fun _ => value') l') := by
  intro n
  have hl := h n
  clear h
  induction l generalizing l' with
  | nil =>
    obtain rfl : l' = [] := List.map_eq_nil_iff.mp hl.symm
    simp [Data.alter, hvalue n]
  | cons m l ih =>
    cases l' with
    | nil => cases hl
    | cons m' l' =>
      obtain ⟨k, d⟩ := m
      obtain ⟨k', d'⟩ := m'
      rw [List.map_cons, List.map_cons, List.cons.injEq, Prod.mk.injEq] at hl
      obtain ⟨⟨rfl, hd⟩, hl⟩ := hl
      rw [Data.alter, Data.alter]
      split
      · simp [hvalue n, hd, hl]
      · split
        · simp [hvalue n, hl]
        · simp [hd, ih hl]

theorem SameTexts.mapOf {values values' : List (String × Data)} (h : SameTexts values values') :
    SameTexts (mapOf values) (Data.mapOf values') := by
  induction values using List.reverseRecOn generalizing values' with
  | nil =>
    obtain rfl : values' = [] := List.map_eq_nil_iff.mp (h 0).symm
    exact fun _ => rfl
  | append_singleton values value ih =>
    rcases List.eq_nil_or_concat' values' with rfl | ⟨values', value', rfl⟩
    · exact absurd (h 0) (by simp)
    · have hboth : ∀ n, values.map (fun m => (m.1, m.2.toText n)) = values'.map (fun m => (m.1, m.2.toText n)) ∧
          (value.1, value.2.toText n) = (value'.1, value'.2.toText n) := by
        intro n
        have hn := h n
        rw [List.map_append, List.map_append] at hn
        exact (List.append_inj' hn rfl).imp_right List.singleton_inj.mp
      have hkey : value.1 = value'.1 := (Prod.mk.inj (hboth 0).2).1
      rw [mapOf_concat, mapOf_concat, hkey]
      exact (ih fun n => (hboth n).1).alter _ fun n => (Prod.mk.inj (hboth n).2).2

/-- What is written of a compound depends on the texts of its members only. -/
theorem toText_compound {members members' : List (String × Data)} (h : SameTexts members members') (n : Nat) :
    (mk "" false members []).toText n = (mk "" false members' []).toText n := by
  have hlength : members.length = members'.length := by simpa using congrArg List.length (h 0)
  have hlongest : longestKey members = longestKey members' := by
    have hfold : ∀ members : List (String × Data),
        longestKey members = (members.map fun m => (m.1, m.2.toText 0)).foldl (fun n m => max n m.1.length) 0 := by
      intro members
      rw [longestKey, List.foldl_map]
    rw [hfold, hfold, h 0]
  have hmembers : ∀ (longest : Nat) (separator : List Char), membersToText n longest separator members =
      membersToText n longest separator members' := by
    intro longest
    have htexts := h (n + 1)
    clear h hlength hlongest
    induction members generalizing members' with
    | nil =>
      obtain rfl : members' = [] := List.map_eq_nil_iff.mp htexts.symm
      exact fun _ => rfl
    | cons m members ih =>
      cases members' with
      | nil => cases htexts
      | cons m' members' =>
        obtain ⟨k, d⟩ := m
        obtain ⟨k', d'⟩ := m'
        rw [List.map_cons, List.map_cons, List.cons.injEq, Prod.mk.injEq] at htexts
        obtain ⟨⟨hkey, hd⟩, htexts⟩ := htexts
        obtain rfl : k = k' := hkey
        have hd' : d.toText (n + 1) = d'.toText (n + 1) := hd
        intro separator
        rw [membersToText, membersToText, hd', ih htexts]
  rw [toText, toText, hlength, hlongest, hmembers]

end Data

end Uscxml
