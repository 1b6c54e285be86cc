import Uscxml.Messages
import Uscxml.Lib.Runs

/-!
# Event descriptors

`nameMatch` of `util/String.cpp`, which says whether one of the descriptors of an `event` attribute matches the name of an
event. A text is the list of its characters; `eventDescs[i]` for the position behind the last character is the terminating
zero, which is no white space.
-/

namespace Uscxml

/-- `boost::iequals`. -/
def iequals (a b : List Char) : Bool := a.map Char.toUpper = b.map Char.toUpper

def substr (start n : Nat) (text : List Char) : List Char := (text.drop start).take n

/-- A descriptor without one `*` and then one `.` at its end. -/
def removeWildcard (eventDesc : List Char) : List Char :=
  let eventDesc := if eventDesc.getLast? = some '*' then eventDesc.dropLast else eventDesc
  if eventDesc.getLast? = some '.' then eventDesc.dropLast else eventDesc

/-- What the loop does with a descriptor it has found. -/
def descMatch (eventDesc eventName : List Char) : Bool :=
  let eventDesc := removeWildcard eventDesc
  if eventDesc.length = 0 then true
  else if eventName.length < eventDesc.length then false
  else if iequals eventDesc eventName then true
  else eventDesc.isPrefixOf eventName && eventName[eventDesc.length]? = some '.'

/-- The loop of `nameMatch` from `i` on, when the current descriptor begins at `start`. The number bounds the rounds. -/
def scanDescs (eventDescs eventName : List Char) : Nat → Nat → Nat → Bool
  | 0, _, _ => false
  | n + 1, i, start =>
    match eventDescs[i]? with
    | none => false
    | some c =>
      if isspace c then
        let eventDesc := if 0 < i ∧ start < i - 1 then substr start (i - start) eventDescs else []
        -- `while (ISWHITESPACE(eventDescs[++i]));`
        let i := i + 1 + ((eventDescs.drop (i + 1)).takeWhile isspace).length
        (0 < eventDesc.length && descMatch eventDesc eventName) || scanDescs eventDescs eventName n (i + 1) i
      else if i + 1 = eventDescs.length then
        descMatch (substr start (i + 1 - start) eventDescs) eventName || scanDescs eventDescs eventName n (i + 1) start
      else scanDescs eventDescs eventName n (i + 1) start

def nameMatch (eventDescs eventName : List Char) : Bool :=
  if eventDescs.length = 0 ∨ eventName.length = 0 then false
  else if iequals eventDescs eventName then true
  else scanDescs eventDescs eventName eventDescs.length 0 0

/-! ### What descriptors mean -/

/-- The descriptors of an attribute: its maximal runs of characters that are no white space. -/
def descriptors (eventDescs : List Char) : List (List Char) := (eventDescs.splitOnP isspace).filter fun w => !w.isEmpty

/-- A descriptor matches every name when nothing is left of it, and else the name it gives and those that go on with a
dot. -/
def Matches (eventDesc eventName : List Char) : Prop :=
  removeWildcard eventDesc = [] ∨ removeWildcard eventDesc = eventName ∨ removeWildcard eventDesc ++ ['.'] <+: eventName

instance (eventDesc eventName : List Char) : Decidable (Matches eventDesc eventName) := inferInstanceAs (Decidable (_ ∨ _))

def AnyMatches (eventDescs eventName : List Char) : Prop :=
  eventName ≠ [] ∧ ∃ w ∈ descriptors eventDescs, Matches w eventName

instance (eventDescs eventName : List Char) : Decidable (AnyMatches eventDescs eventName) :=
  inferInstanceAs (Decidable (_ ∧ _))

/-- The scanner looks at descriptors of two characters and more, and at one that is the whole attribute. -/
def Scanned (eventDescs w : List Char) : Prop := 2 ≤ w.length ∨ w = eventDescs

instance (eventDescs w : List Char) : Decidable (Scanned eventDescs w) := inferInstanceAs (Decidable (_ ∨ _))

/-- The name is the attribute, or what is left of a descriptor, but for the case of letters. -/
def EqualByCase (eventDescs eventName : List Char) : Prop :=
  iequals eventDescs eventName = true ∨
    ∃ w ∈ descriptors eventDescs, Scanned eventDescs w ∧ iequals (removeWildcard w) eventName = true

instance (eventDescs eventName : List Char) : Decidable (EqualByCase eventDescs eventName) :=
  inferInstanceAs (Decidable (_ ∨ _))

/-! ### Descriptors of a text -/

theorem descriptors_eq_runs (text : List Char) : descriptors text = text.runs isspace := rfl

theorem descriptors_of_none {w : List Char} (hw : ∀ c ∈ w, isspace c = false) :
    descriptors w = if w = [] then [] else [w] := List.runs_of_forall hw

theorem descriptors_append_space {w : List Char} (hw : ∀ c ∈ w, isspace c = false) {c : Char} (hc : isspace c = true)
    (rest : List Char) : descriptors (w ++ c :: rest) = (if w = [] then [] else [w]) ++ descriptors rest :=
  List.runs_append_cons hw hc rest

theorem descriptors_dropWhile (text : List Char) : descriptors (text.dropWhile isspace) = descriptors text :=
  List.runs_dropWhile text

theorem ne_nil_of_mem_descriptors {text w : List Char} (h : w ∈ descriptors text) : w ≠ [] := List.ne_nil_of_mem_runs h

theorem not_space_of_mem_descriptors {text r : List Char} (h : r ∈ descriptors text) : ∀ c ∈ r, isspace c = false :=
  List.not_of_mem_runs h

/-! ### The scanner -/

theorem scanDescs_of_length_le {eventDescs eventName : List Char} {i : Nat} (h : eventDescs.length ≤ i) (n start : Nat) :
    scanDescs eventDescs eventName n i start = false := by
  cases n with
  | zero => rfl
  | succ n => rw [scanDescs, List.getElem?_eq_none h]

/-- The descriptors of `w` and what follows it that the loop still looks at: not a single character, unless it begins
the attribute. -/
def Ahead (w rest eventName : List Char) : Prop :=
  ∃ r ∈ descriptors (w ++ rest), (2 ≤ r.length ∨ w = [] ∧ r = rest) ∧ descMatch r eventName = true

theorem not_ahead_nil {w eventName : List Char} (hw : ∀ c ∈ w, isspace c = false) (hlong : w.length ≤ 1) :
    ¬ Ahead w [] eventName := by
  rintro ⟨r, hr, hr', -⟩
  rw [List.append_nil, descriptors_of_none hw] at hr
  split at hr
  · exact List.not_mem_nil hr
  · rename_i hne
    obtain rfl := List.mem_singleton.mp hr
    rcases hr' with h | ⟨-, rfl⟩
    · omega
    · exact hne rfl

theorem ahead_last {w eventName : List Char} {c : Char} (hw : ∀ x ∈ w, isspace x = false) (hc : isspace c = false) :
    Ahead w [c] eventName ↔ descMatch (w ++ [c]) eventName = true := by
  have hall : ∀ x ∈ w ++ [c], isspace x = false := by
    intro x hx
    rcases List.mem_append.mp hx with hx | hx
    · exact hw x hx
    · exact List.mem_singleton.mp hx ▸ hc
  rw [Ahead, descriptors_of_none hall, if_neg (by simp)]
  constructor
  · rintro ⟨r, hr, -, hmatch⟩
    exact List.mem_singleton.mp hr ▸ hmatch
  · intro hmatch
    refine ⟨w ++ [c], List.mem_singleton_self _, ?_, hmatch⟩
    cases w with
    | nil => exact Or.inr ⟨rfl, rfl⟩
    | cons x w => exact Or.inl (by simp)

theorem ahead_cons {w rest eventName : List Char} {c : Char} (hrest : rest ≠ []) :
    Ahead w (c :: rest) eventName ↔ Ahead (w ++ [c]) rest eventName := by
  rw [Ahead, Ahead, List.append_assoc, List.singleton_append]
  have hlen : 1 ≤ rest.length := List.length_pos_iff.mpr hrest
  constructor
  · rintro ⟨r, hr, h | ⟨-, rfl⟩, hmatch⟩
    · exact ⟨r, hr, Or.inl h, hmatch⟩
    · exact ⟨_, hr, Or.inl (by rw [List.length_cons]; omega), hmatch⟩
  · rintro ⟨r, hr, h | ⟨h, -⟩, hmatch⟩
    · exact ⟨r, hr, Or.inl h, hmatch⟩
    · simp at h

/-- White space ends a descriptor, which is looked at when it has two characters. -/
theorem ahead_space {w rest eventName : List Char} {c : Char} (hw : ∀ x ∈ w, isspace x = false) (hc : isspace c = true) :
    Ahead w (c :: rest) eventName ↔ 2 ≤ w.length ∧ descMatch w eventName = true ∨
      Ahead ((rest.dropWhile isspace).take 1) ((rest.dropWhile isspace).drop 1) eventName := by
  rw [Ahead, Ahead, descriptors_append_space hw hc, List.take_append_drop, descriptors_dropWhile]
  constructor
  · rintro ⟨r, hr, hlong, hmatch⟩
    have hlen : 2 ≤ r.length := by
      rcases hlong with h | ⟨rfl, rfl⟩
      · exact h
      · rw [← descriptors_append_space hw hc] at hr
        have := not_space_of_mem_descriptors hr c List.mem_cons_self
        simp [hc] at this
    rcases List.mem_append.mp hr with hr | hr
    · split at hr
      · exact absurd hr List.not_mem_nil
      · obtain rfl := List.mem_singleton.mp hr
        exact Or.inl ⟨hlen, hmatch⟩
    · exact Or.inr ⟨r, hr, Or.inl hlen, hmatch⟩
  · rintro (⟨hlen, hmatch⟩ | ⟨r, hr, h, hmatch⟩)
    · refine ⟨w, List.mem_append_left _ ?_, Or.inl hlen, hmatch⟩
      rw [if_neg (by rintro rfl; simp at hlen)]
      exact List.mem_singleton_self w
    · refine ⟨r, List.mem_append_right _ hr, ?_, hmatch⟩
      rcases h with h | ⟨hnil, rfl⟩
      · exact Or.inl h
      · rcases List.take_eq_nil_iff.mp hnil with h | h
        · cases h
        · exact absurd (by rw [h]; rfl) (ne_nil_of_mem_descriptors hr)

/-- The loop at the end of the piece `w` of a descriptor, with `rest` ahead. A descriptor of one character is lost: in
front of white space its length is compared with one too many, and at the end of the attribute its position has been
passed with the white space before it. -/
theorem scanDescs_iff {eventName : List Char} (n : Nat) (pre w rest : List Char) (hw : ∀ c ∈ w, isspace c = false)
    (hrest : rest = [] → w.length ≤ 1) (hn : rest.length ≤ n) :
    scanDescs (pre ++ (w ++ rest)) eventName n (pre.length + w.length) pre.length = true ↔ Ahead w rest eventName := by
  induction n generalizing pre w rest with
  | zero =>
    obtain rfl : rest = [] := List.length_eq_zero_iff.mp (by omega)
    simp [scanDescs, not_ahead_nil hw (hrest rfl)]
  | succ n ih =>
    cases rest with
    | nil =>
      rw [scanDescs_of_length_le (by simp)]
      simp [not_ahead_nil hw (hrest rfl)]
    | cons c rest =>
      have hget : (pre ++ (w ++ c :: rest))[pre.length + w.length]? = some c := by
        rw [← List.append_assoc, ← List.length_append, List.getElem?_append_right (Nat.le_refl _), Nat.sub_self]
        rfl
      have hlength : (pre ++ (w ++ c :: rest)).length = pre.length + w.length + 1 + rest.length := by
        simp only [List.length_append, List.length_cons]
        omega
      have hsub : substr pre.length (pre.length + w.length - pre.length) (pre ++ (w ++ c :: rest)) = w := by
        rw [substr, List.drop_left, Nat.add_sub_cancel_left, List.take_left]
      rw [scanDescs, hget]
      simp only
      cases hc : isspace c with
      | true =>
        rw [if_pos rfl, ahead_space hw hc, Bool.or_eq_true]
        have hskip : (pre ++ (w ++ c :: rest)).drop (pre.length + w.length + 1) = rest := by
          rw [← List.append_assoc, ← List.length_append, ← List.drop_drop, List.drop_left]
          rfl
        rw [hskip, hsub]
        refine or_congr ?_ ?_
        · split
          · rename_i h
            have hlen : 2 ≤ w.length := by omega
            simp [hlen]
            omega
          · rename_i h
            have hlen : ¬ 2 ≤ w.length := by omega
            simp [hlen]
        · -- Behind the white space the loop is one character into the next descriptor.
          have hsplit : pre ++ (w ++ c :: rest) =
              (pre ++ w ++ c :: rest.takeWhile isspace) ++ ((rest.dropWhile isspace).take 1 ++ (rest.dropWhile isspace).drop 1) := by
            rw [List.take_append_drop, List.append_assoc, List.append_assoc, List.cons_append, List.takeWhile_append_dropWhile]
          have hpos : (pre ++ w ++ c :: rest.takeWhile isspace).length =
              pre.length + w.length + 1 + (rest.takeWhile isspace).length := by
            simp only [List.length_append, List.length_cons]
            omega
          rw [hsplit, ← hpos]
          have hdrop : (rest.dropWhile isspace).length ≤ rest.length := List.length_dropWhile_le isspace rest
          rcases hnext : rest.dropWhile isspace with _ | ⟨x, next⟩
          · rw [scanDescs_of_length_le (by simp)]
            simp [not_ahead_nil (List.forall_mem_nil _) (Nat.zero_le 1)]
          · have hx : isspace x = false := by
              have := List.head?_dropWhile_not isspace rest
              rw [hnext] at this
              simpa using this
            rw [hnext, List.length_cons] at hdrop
            rw [List.length_cons] at hn
            refine ih _ [x] next ?_ (fun _ => Nat.le_refl 1) (by omega)
            intro y hy
            exact List.mem_singleton.mp hy ▸ hx
      | false =>
        rw [if_neg Bool.false_ne_true, hlength]
        by_cases hlast : rest = []
        · subst hlast
          have hall : substr pre.length (pre.length + w.length + 1 - pre.length) (pre ++ (w ++ [c])) = w ++ [c] := by
            rw [substr, List.drop_left, Nat.add_assoc, Nat.add_sub_cancel_left]
            exact List.take_of_length_le (by simp)
          rw [if_pos (by simp), ahead_last hw hc, Bool.or_eq_true, scanDescs_of_length_le (by simp; omega), hall]
          simp
        · have hpos : 0 < rest.length := List.length_pos_iff.mpr hlast
          rw [if_neg (by omega), ahead_cons hlast]
          have hw' : ∀ x ∈ w ++ [c], isspace x = false :=
            List.forall_mem_append.mpr ⟨hw, List.forall_mem_singleton.mpr hc⟩
          rw [List.length_cons] at hn
          rw [← ih pre (w ++ [c]) rest hw' (fun h => absurd h hlast) (by omega)]
          simp [Nat.add_assoc]

theorem length_eq_of_iequals {a b : List Char} (h : iequals a b = true) : a.length = b.length := by
  rw [iequals, decide_eq_true_iff] at h
  rw [← List.length_map Char.toUpper, h, List.length_map]

theorem iequals_refl (a : List Char) : iequals a a = true := decide_eq_true rfl

/-- A descriptor the loop has found: it matches, or is the name but for the case of letters. -/
theorem descMatch_iff {w eventName : List Char} (hname : eventName ≠ []) :
    descMatch w eventName = true ↔ Matches w eventName ∨ iequals (removeWildcard w) eventName = true := by
  rw [descMatch, Matches]
  generalize removeWildcard w = v
  have hdot : (v.isPrefixOf eventName && eventName[v.length]? = some '.') = true ↔ v ++ ['.'] <+: eventName := by
    rw [Bool.and_eq_true, List.isPrefixOf_iff_prefix, decide_eq_true_iff]
    constructor
    · rintro ⟨⟨rest, rfl⟩, hget⟩
      rw [List.getElem?_append_right (Nat.le_refl _), Nat.sub_self] at hget
      cases rest with
      | nil => cases hget
      | cons c rest =>
        cases hget
        exact ⟨rest, by simp⟩
    · rintro ⟨rest, rfl⟩
      exact ⟨⟨'.' :: rest, by simp⟩, by simp⟩
  split
  · rename_i h
    simp [List.length_eq_zero_iff.mp h]
  · rename_i hne
    have hne : v ≠ [] := fun h => hne (by rw [h]; rfl)
    split
    · rename_i hlt
      have hno : ¬ v <+: eventName := fun h => by
        have := h.length_le
        omega
      have heq : iequals v eventName = false := by
        rw [← Bool.not_eq_true]
        intro h
        have := length_eq_of_iequals h
        omega
      have hself : v ≠ eventName := by
        rintro rfl
        exact hno (List.prefix_refl v)
      have hpre : ¬ v ++ ['.'] <+: eventName := fun h => hno ((List.prefix_append v ['.']).trans h)
      simp [hne, hself, hpre, heq]
    · split
      · rename_i h
        simp [h]
      · rename_i h
        have hself : v ≠ eventName := by
          rintro rfl
          exact h (iequals_refl v)
        rw [hdot]
        simp [hne, hself, h]

theorem nameMatch_iff {eventDescs eventName : List Char} :
    nameMatch eventDescs eventName = true ↔ eventName ≠ [] ∧
      ((∃ w ∈ descriptors eventDescs, Scanned eventDescs w ∧ Matches w eventName) ∨ EqualByCase eventDescs eventName) := by
  by_cases hname : eventName = []
  · simp [nameMatch, hname]
  by_cases hdescs : eventDescs = []
  · subst hdescs
    have hcase : iequals [] eventName = false := by
      rw [← Bool.not_eq_true]
      intro h
      exact hname (List.length_eq_zero_iff.mp (length_eq_of_iequals h).symm)
    simp [nameMatch, EqualByCase, descriptors, hcase]
  have hlen : ¬ (eventDescs.length = 0 ∨ eventName.length = 0) := by
    rw [List.length_eq_zero_iff, List.length_eq_zero_iff]
    exact fun h => h.elim hdescs hname
  have hscan := @scanDescs_iff eventName eventDescs.length [] [] eventDescs (List.forall_mem_nil _)
    (fun h => absurd h hdescs) (Nat.le_refl _)
  simp only [List.nil_append, List.length_nil, Nat.add_zero, Ahead, true_and] at hscan
  have hfound : (∃ r ∈ descriptors eventDescs, (2 ≤ r.length ∨ r = eventDescs) ∧ descMatch r eventName = true) ↔
      (∃ w ∈ descriptors eventDescs, Scanned eventDescs w ∧ Matches w eventName) ∨
        ∃ w ∈ descriptors eventDescs, Scanned eventDescs w ∧ iequals (removeWildcard w) eventName = true := by
    simp only [descMatch_iff hname, Scanned, and_or_left, exists_or]
  rw [nameMatch, if_neg hlen, EqualByCase]
  split
  · rename_i h
    simp [hname, h]
  · rename_i h
    rw [hscan, hfound]
    simp [hname, h]

/-- `nameMatch` says what the descriptors mean exactly when one that the scanner looks at matches as it should, or when
equality but for the case of letters makes up for what the scanner leaves out. -/
theorem nameMatch_correct_iff (eventDescs eventName : List Char) :
    (nameMatch eventDescs eventName = true ↔ AnyMatches eventDescs eventName) ↔
      eventName = [] ∨ (∃ w ∈ descriptors eventDescs, Scanned eventDescs w ∧ Matches w eventName) ∨
        ((∃ w ∈ descriptors eventDescs, Matches w eventName) ↔ EqualByCase eventDescs eventName) := by
  rw [nameMatch_iff, AnyMatches]
  by_cases hname : eventName = []
  · simp [hname]
  by_cases hscanned : ∃ w ∈ descriptors eventDescs, Scanned eventDescs w ∧ Matches w eventName
  · have hany : ∃ w ∈ descriptors eventDescs, Matches w eventName := by
      obtain ⟨w, hw, -, hmatch⟩ := hscanned
      exact ⟨w, hw, hmatch⟩
    simp only [hscanned, hany, true_or, or_true, and_true]
  · simp only [hname, hscanned, false_or, ne_eq, not_false_eq_true, true_and]
    exact iff_comm

/-- A wildcard behind another descriptor matches nothing, and letters are compared without their case. -/
theorem nameMatch_wrong :
    (nameMatch ['f', 'o', 'o', ' ', '*'] ['b', 'a', 'r'] = false ∧ AnyMatches ['f', 'o', 'o', ' ', '*'] ['b', 'a', 'r']) ∧
      nameMatch ['F', 'O', 'O'] ['f', 'o', 'o'] = true ∧ ¬ AnyMatches ['F', 'O', 'O'] ['f', 'o', 'o'] := by
  decide +kernel

end Uscxml
