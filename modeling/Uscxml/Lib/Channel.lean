import Mathlib.Data.List.Basic
import Mathlib.Tactic.Common

/-!
# Buffered channels

A channel of a fixed capacity with the two blocking operations, and the two loops that lead its messages once around:
one whose bound is the length of the channel at every turn, one that counts the turns down.
-/

structure Channel (α : Type*) where
  capacity : Nat
  items : List α
  bounded : items.length ≤ capacity

namespace Channel

variable {α : Type*}

def empty (capacity : Nat) : Channel α := ⟨capacity, [], Nat.zero_le _⟩

def len (q : Channel α) : Nat := q.items.length

/-- Blocks at a full channel. -/
def send (q : Channel α) (a : α) : Option (Channel α) :=
  if h : q.items.length < q.capacity then some ⟨q.capacity, q.items ++ [a], by rw [List.length_append]; exact h⟩ else none

/-- Blocks at an empty channel. -/
def receive : Channel α → Option (α × Channel α)
  | ⟨_, [], _⟩ => none
  | ⟨capacity, a :: l, h⟩ => some (a, ⟨capacity, l, Nat.le_of_succ_le h⟩)

/-- The computation does not block and leaves these messages in a channel of this capacity. -/
def Leaves (r : Option (Channel α)) (capacity : Nat) (l : List α) : Prop :=
  ∃ q, r = some q ∧ q.capacity = capacity ∧ q.items = l

theorem leaves_some {q : Channel α} : Leaves (some q) q.capacity q.items := ⟨q, rfl, rfl, rfl⟩

theorem send_leaves {q : Channel α} {a : α} (h : q.items.length < q.capacity) :
    Leaves (q.send a) q.capacity (q.items ++ [a]) := by
  rw [send, dif_pos h]
  exact ⟨_, rfl, rfl, rfl⟩

theorem of_send {q q' : Channel α} {a : α} (h : q.send a = some q') :
    q'.capacity = q.capacity ∧ q'.items = q.items ++ [a] := by
  unfold send at h
  split at h
  · cases h
    exact ⟨rfl, rfl⟩
  · cases h

theorem receive_eq {q : Channel α} {a : α} {l : List α} (h : q.items = a :: l) :
    ∃ q', q.receive = some (a, q') ∧ q'.capacity = q.capacity ∧ q'.items = l := by
  obtain ⟨capacity, items, hbound⟩ := q
  subst h
  exact ⟨_, rfl, rfl, rfl⟩

theorem of_receive {q q' : Channel α} {a : α} (h : q.receive = some (a, q')) :
    q'.capacity = q.capacity ∧ q.items = a :: q'.items := by
  obtain ⟨capacity, _ | ⟨b, l⟩, hbound⟩ := q
  · cases h
  · cases h
    exact ⟨rfl, rfl⟩

/-- One turn: the first message is taken out and put back at the end, changed or not at all. -/
def turn (f : α → Option α) (q : Channel α) : Option (Channel α) :=
  q.receive.bind fun (a, q) =>
    match f a with
    | some b => q.send b
    | none => some q

def around (f : α → Option α) : Nat → Nat → Channel α → Option (Channel α)
  | 0, _, _ => none
  | fuel + 1, index, q => if index < q.len then (q.turn f).bind (around f fuel (index + 1)) else some q

def turns (f : α → Option α) : Nat → Channel α → Option (Channel α)
  | 0, q => some q
  | n + 1, q => (q.turn f).bind (turns f n)

variable {f : α → Option α}

theorem turn_leaves {q : Channel α} {a : α} {l : List α} (h : q.items = a :: l) :
    Leaves (q.turn f) q.capacity (l ++ (f a).toList) := by
  obtain ⟨q', hreceive, hcapacity, hitems⟩ := receive_eq h
  have hroom : q'.items.length < q'.capacity := by
    have hbound := q.bounded
    rw [h, List.length_cons] at hbound
    rw [hitems, hcapacity]
    omega
  rw [turn, hreceive, ← hcapacity, ← hitems]
  cases hf : f a with
  | none => simpa [hf] using leaves_some
  | some b => simpa [hf] using send_leaves hroom

theorem turns_leaves {q : Channel α} {n : Nat} {l m : List α} (hl : q.items = l ++ m) (hn : l.length = n) :
    Leaves (q.turns f n) q.capacity (m ++ l.filterMap f) := by
  induction n generalizing q l m with
  | zero =>
    obtain rfl := List.length_eq_zero_iff.mp hn
    simpa [turns, hl] using leaves_some (q := q)
  | succ n ih =>
    obtain ⟨a, l, rfl⟩ := List.exists_cons_of_length_eq_add_one hn
    obtain ⟨q', hturn, hcapacity, hitems⟩ := turn_leaves (f := f) hl
    have h := ih (q := q') (l := l) (m := m ++ (f a).toList) (by simpa using hitems) (by simpa using hn)
    rw [turns, hturn, ← hcapacity]
    cases hf : f a with
    | none => simpa [hf, List.filterMap_cons] using h
    | some b => simpa [hf, List.filterMap_cons] using h

/-- As many turns as the channel has messages lead every message around once. -/
theorem turns_len (q : Channel α) : Leaves (q.turns f q.len) q.capacity (q.items.filterMap f) := by
  have h := turns_leaves (f := f) (q := q) (m := []) (List.append_nil _).symm rfl
  simpa [len] using h

def GoesOn (f : α → Option α) (l : List α) (n : Nat) : Prop := n < l.length - n + ((l.take n).filterMap f).length

/-- The loop is left after the first turns that make the index reach the length, whether or not every message has
come around by then. -/
theorem around_leaves (l : List α) (fuel index : Nat) {q : Channel α} (hindex : index ≤ l.length)
    (hitems : q.items = l.drop index ++ (l.take index).filterMap f) (hfuel : l.length < fuel + index) :
    ∃ k, index ≤ k ∧ k ≤ l.length ∧ ¬GoesOn f l k ∧ (∀ i, index ≤ i → i < k → GoesOn f l i) ∧
      Leaves (q.around f fuel index) q.capacity (l.drop k ++ (l.take k).filterMap f) := by
  induction fuel generalizing q index with
  | zero => omega
  | succ fuel ih =>
    have hlen : q.len = l.length - index + ((l.take index).filterMap f).length := by
      rw [len, hitems, List.length_append, List.length_drop]
    have hkept : ((l.take index).filterMap f).length ≤ index :=
      Nat.le_trans (List.length_filterMap_le _ _) (List.length_take_le _ _)
    by_cases hgo : index < q.len
    · have hin : index < l.length := by omega
      have hcons : q.items = l[index] :: (l.drop (index + 1) ++ (l.take index).filterMap f) := by
        rw [hitems, List.drop_eq_getElem_cons hin, List.cons_append]
      obtain ⟨q', hturn, hcapacity, hitems'⟩ := turn_leaves (f := f) hcons
      have hnext : q'.items = l.drop (index + 1) ++ (l.take (index + 1)).filterMap f := by
        rw [hitems', List.append_assoc, List.take_add_one, List.getElem?_eq_getElem hin, List.filterMap_append]
        cases hf : f l[index] with
        | none => simp [hf]
        | some b => simp [hf]
      obtain ⟨k, hk, hkl, hstop, hgoes, hleaves⟩ := ih (index + 1) hin hnext (by omega)
      refine ⟨k, by omega, hkl, hstop, ?_, ?_⟩
      · intro i hi hik
        rcases Nat.eq_or_lt_of_le hi with rfl | hi
        · rw [GoesOn]
          omega
        · exact hgoes i hi hik
      · rw [around, if_pos hgo, hturn, ← hcapacity]
        exact hleaves
    · refine ⟨index, Nat.le_refl _, hindex, by rw [GoesOn]; omega, by intro i hi hik; omega, ?_⟩
      rw [around, if_neg hgo, ← hitems]
      exact leaves_some

/-- A loop that puts every message back leads every message around once. -/
theorem around_all (q : Channel α) {g : α → α} (hf : ∀ a, f a = some (g a)) :
    Leaves (q.around f (q.len + 1) 0) q.capacity (q.items.map g) := by
  obtain ⟨k, _, hk, hstop, _, hleaves⟩ := around_leaves (f := f) (q := q) q.items (q.len + 1) 0
    (Nat.zero_le _) (by simp) (by simp [len])
  have hmap : ∀ l : List α, l.filterMap f = l.map g := by
    intro l
    rw [← List.filterMap_eq_map]
    congr 1
    funext a
    exact hf a
  have hend : k = q.items.length := by
    rw [GoesOn, hmap, List.length_map, List.length_take] at hstop
    omega
  subst hend
  simpa [hmap] using hleaves

theorem Leaves.unique {r : Option (Channel α)} {c c' : Nat} {l m : List α} (h : Leaves r c l) (h' : Leaves r c' m) : l = m := by
  obtain ⟨q, hq, _, rfl⟩ := h
  obtain ⟨q', hq', _, rfl⟩ := h'
  rw [hq] at hq'
  cases hq'
  rfl

/-- The lists from which the loop with the shrinking bound removes what it should: at most the last message goes, or
the first half goes and nothing else. -/
def Whole (p : α → Bool) (l : List α) : Prop :=
  (∀ a ∈ l.dropLast, p a = true) ∨
    (∀ a ∈ l.take ((l.length + 1) / 2), p a = false) ∧ ∀ a ∈ l.drop ((l.length + 1) / 2), p a = true

instance (p : α → Bool) (l : List α) : Decidable (Whole p l) := inferInstanceAs (Decidable (_ ∨ _))

variable {p : α → Bool} {l : List α}

theorem goesOn_guard {n : Nat} : GoesOn (Option.guard p) l n ↔ n < l.length - n + ((l.take n).filter p).length := by
  rw [GoesOn, List.filterMap_eq_filter]

private theorem disjoint_append_comm {s t : List α} (hnodup : (s ++ t).Nodup) (h : t ++ s = s ++ t) : s = [] ∨ t = [] := by
  cases s with
  | nil => exact .inl rfl
  | cons a s =>
    cases t with
    | nil => exact .inr rfl
    | cons b t =>
      -- The two lists begin with the same message.
      obtain rfl : b = a := by simpa using congrArg List.head? h
      simp at hnodup

/-- Where the loop stops, it has done what it should only if everything has come around or everything that has come
around was dropped. -/
theorem whole_of_eq {k : Nat} (hl : l.Nodup) (hk : k ≤ l.length) (hstop : ¬GoesOn (Option.guard p) l k)
    (hgoes : ∀ i < k, GoesOn (Option.guard p) l i) (h : l.drop k ++ (l.take k).filter p = l.filter p) : Whole p l := by
  have hsplit : l.filter p = (l.take k).filter p ++ (l.drop k).filter p := by
    rw [← List.filter_append, List.take_append_drop]
  rw [hsplit] at h
  have hkept : (l.drop k).filter p = l.drop k := by
    apply List.Sublist.eq_of_length List.filter_sublist
    have hlength := congrArg List.length h
    simp only [List.length_append] at hlength
    omega
  rw [hkept] at h
  have hnodup : ((l.take k).filter p ++ l.drop k).Nodup := by
    rw [← hkept, ← hsplit]
    exact hl.filter p
  rcases disjoint_append_comm hnodup h with hnone | hend
  · by_cases hzero : k = 0
    · subst hzero
      rw [goesOn_guard] at hstop
      obtain rfl : l = [] := List.length_eq_zero_iff.mp (by simpa using hstop)
      exact .inl (by simp)
    · have hlast := goesOn_guard.mp (hgoes (k - 1) (by omega))
      have hbefore : (l.take (k - 1)).filter p = [] := by
        apply List.eq_nil_of_sublist_nil
        rw [← hnone]
        exact ((List.take_sublist_take_left (by omega)).filter p)
      rw [goesOn_guard, hnone] at hstop
      rw [hbefore] at hlast
      simp only [List.length_nil, Nat.add_zero, Nat.not_lt] at hstop hlast
      have hhalf : (l.length + 1) / 2 = k := by omega
      refine .inr ⟨?_, ?_⟩
      · rw [hhalf]
        simpa using hnone
      · rw [hhalf]
        simpa using hkept
  · obtain rfl : k = l.length := by
      have hlength := congrArg List.length hend
      simp only [List.length_drop, List.length_nil] at hlength
      omega
    refine .inl ?_
    cases hn : l.length with
    | zero => simp [List.length_eq_zero_iff.mp hn]
    | succ n =>
      have hlast := goesOn_guard.mp (hgoes n (by omega))
      have hall : (l.take n).filter p = l.take n := by
        apply List.Sublist.eq_of_length_le List.filter_sublist
        rw [List.length_take]
        omega
      rw [List.dropLast_eq_take, hn]
      simpa using hall

theorem eq_of_whole {k : Nat} (hk : k ≤ l.length) (hstop : ¬GoesOn (Option.guard p) l k)
    (hgoes : ∀ i < k, GoesOn (Option.guard p) l i) (h : Whole p l) : l.drop k ++ (l.take k).filter p = l.filter p := by
  rcases h with h | ⟨hfirst, hrest⟩
  · have hend : k = l.length := by
      by_contra hne
      apply hstop
      have hall : (l.take k).filter p = l.take k := by
        rw [List.filter_eq_self]
        intro a ha
        apply h a
        rw [List.dropLast_eq_take]
        exact (List.take_sublist_take_left (by omega)).subset ha
      rw [goesOn_guard, hall, List.length_take]
      omega
    rw [hend]
    simp
  · have hnone : ∀ i, i ≤ (l.length + 1) / 2 → (l.take i).filter p = [] := by
      intro i hi
      rw [List.filter_eq_nil_iff]
      intro a ha
      rw [hfirst a ((List.take_sublist_take_left hi).subset ha)]
      exact Bool.false_ne_true
    have hhalf : k = (l.length + 1) / 2 := by
      rcases Nat.lt_trichotomy k ((l.length + 1) / 2) with hlt | heq | hgt
      · rw [goesOn_guard, hnone k (by omega), List.length_nil] at hstop
        omega
      · exact heq
      · have hgo := goesOn_guard.mp (hgoes _ hgt)
        rw [hnone _ (Nat.le_refl _), List.length_nil] at hgo
        omega
    have hkept : (l.drop k).filter p = l.drop k := by
      rw [List.filter_eq_self, hhalf]
      exact hrest
    calc l.drop k ++ (l.take k).filter p = l.drop k := by rw [hnone k (by omega), List.append_nil]
      _ = (l.take k).filter p ++ (l.drop k).filter p := by rw [hnone k (by omega), hkept, List.nil_append]
      _ = l.filter p := by rw [← List.filter_append, List.take_append_drop]

/-- When the loop with the shrinking bound removes exactly the messages it drops. -/
theorem around_filter_iff {q : Channel α} (hq : q.items.Nodup) :
    Leaves (q.around (Option.guard p) (q.len + 1) 0) q.capacity (q.items.filter p) ↔ Whole p q.items := by
  obtain ⟨k, _, hk, hstop, hgoes, hleaves⟩ := around_leaves (f := Option.guard p) (q := q) q.items (q.len + 1) 0
    (Nat.zero_le _) (by simp) (by simp [len])
  have hgoes' : ∀ i < k, GoesOn (Option.guard p) q.items i := fun i hi => hgoes i (Nat.zero_le i) hi
  rw [List.filterMap_eq_filter] at hleaves
  constructor
  · intro h
    exact whole_of_eq hq hk hstop hgoes' (hleaves.unique h)
  · intro h
    rw [← eq_of_whole hk hstop hgoes' h]
    exact hleaves

end Channel
