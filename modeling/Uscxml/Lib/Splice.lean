import Mathlib.Data.List.Basic
import Mathlib.Data.List.Induction
import Mathlib.Data.List.Sort

/-!
# Texts with pieces put in

Positions in a text are integers here, and -1 stands for the largest unsigned number: no position, which is behind every
other one and has 0 after it. A loop reads a list of places and writes what is in front of each, a piece for it, and what is
behind the last. When the places are those of some segments of the text, in order, only these are replaced.
-/

namespace Splice

variable {α : Type*}

/-- A substring. There is none that begins behind the end of the text, and a number of characters below 0 is a large one. -/
def substr? (text : List α) (pos count : Int) : Option (List α) :=
  if pos < 0 ∨ text.length < pos then none
  else some (if count < 0 then text.drop pos.toNat else (text.drop pos.toNat).take count.toNat)

def spliceFrom (text : List α) (piece : Int × Int → Option (List α)) (lastPos : Int) : List (Int × Int) → Option (List α)
  | [] => substr? text lastPos (text.length - lastPos)
  | pos :: posList => do
    let new ← piece pos
    let before ← substr? text lastPos (pos.1 - lastPos)
    let behind ← spliceFrom text piece pos.2 posList
    return before ++ new ++ behind

def sizeLe (a b : Int) : Bool := b = -1 || (a ≠ -1 && a ≤ b)

def placeLe (a b : Int × Int) : Bool := if a.1 = b.1 then sizeLe a.2 b.2 else sizeLe a.1 b.1

theorem substr?_append (pre mid post : List α) :
    substr? (pre ++ mid ++ post) pre.length (mid.length : Int) = some mid := by
  have hinside : ¬ ((pre.length : Int) < 0 ∨ ((pre ++ mid ++ post).length : Int) < pre.length) := by
    simp only [List.length_append]
    omega
  rw [substr?, if_neg hinside, if_neg (by omega), Int.toNat_natCast, Int.toNat_natCast, List.append_assoc,
    List.drop_left, List.take_left]

theorem isSome_piece_of_spliceFrom {text result : List α} {piece : Int × Int → Option (List α)} {lastPos : Int}
    {posList : List (Int × Int)} (h : spliceFrom text piece lastPos posList = some result) :
    ∀ pos ∈ posList, (piece pos).isSome := by
  induction posList generalizing lastPos result with
  | nil => exact List.forall_mem_nil _
  | cons pos posList ih =>
    rw [spliceFrom, Option.bind_eq_bind, Option.bind_eq_some_iff] at h
    obtain ⟨new, hnew, hrest⟩ := h
    obtain ⟨before, -, hrest⟩ := Option.bind_eq_some_iff.mp hrest
    obtain ⟨behind, hbehind, -⟩ := Option.bind_eq_some_iff.mp hrest
    refine List.forall_mem_cons.mpr ⟨?_, ih hbehind⟩
    rw [hnew]
    rfl

/-! ### Segments -/

/-- The places of the segments to be replaced: each segment has its text and, if it is to be replaced, its new text. -/
def places (offset : Nat) : List (List α × Option (List α)) → List (Int × Int)
  | [] => []
  | (old, none) :: segments => places (offset + old.length) segments
  | (old, some _) :: segments =>
    ((offset : Int), ((offset + old.length : Nat) : Int)) :: places (offset + old.length) segments

def oldText (segments : List (List α × Option (List α))) : List α := segments.flatMap fun segment => segment.1

def newText (segments : List (List α × Option (List α))) : List α :=
  segments.flatMap fun segment => segment.2.getD segment.1

/-- For a segment that is to be replaced, the piece is its new text. -/
def Fits (piece : Int × Int → Option (List α)) (offset : Nat) (segments : List (List α × Option (List α))) : Prop :=
  ∀ front old new back, segments = front ++ (old, some new) :: back →
    piece (((offset + (oldText front).length : Nat) : Int), ((offset + (oldText front).length + old.length : Nat) : Int)) =
      some new

theorem oldText_append (l l' : List (List α × Option (List α))) : oldText (l ++ l') = oldText l ++ oldText l' :=
  List.flatMap_append

theorem oldText_cons (segment : List α × Option (List α)) (l : List (List α × Option (List α))) :
    oldText (segment :: l) = segment.1 ++ oldText l := rfl

theorem Fits.of_cons {piece : Int × Int → Option (List α)} {offset : Nat} {segment : List α × Option (List α)}
    {segments : List (List α × Option (List α))} (h : Fits piece offset (segment :: segments)) :
    Fits piece (offset + segment.1.length) segments := by
  intro front old new back hsplit
  have hpiece := h (segment :: front) old new back (by rw [hsplit]; rfl)
  rw [oldText_cons, List.length_append, ← Nat.add_assoc] at hpiece
  exact hpiece

/-- The loop between two pieces: `pending` has been passed and is not written yet. -/
theorem spliceFrom_places (piece : Int × Int → Option (List α)) (segments : List (List α × Option (List α)))
    (written pending : List α) (h : Fits piece (written ++ pending).length segments) :
    spliceFrom (written ++ pending ++ oldText segments) piece written.length
      (places (written ++ pending).length segments) = some (pending ++ newText segments) := by
  induction segments generalizing written pending with
  | nil =>
    have hcount : ((written ++ pending ++ oldText ([] : List (List α × Option (List α)))).length : Int) - written.length =
        pending.length := by
      simp only [oldText, List.flatMap_nil, List.append_nil, List.length_append]
      omega
    rw [places, spliceFrom, hcount, substr?_append]
    simp [newText]
  | cons segment segments ih =>
    obtain ⟨old, new⟩ := segment
    have hrest := h.of_cons
    rw [← List.length_append] at hrest
    cases new with
    | none =>
      have hold : written ++ pending ++ oldText ((old, none) :: segments) =
          written ++ (pending ++ old) ++ oldText segments := by
        simp [oldText]
      have hnew : pending ++ newText ((old, none) :: segments) = pending ++ old ++ newText segments := by
        simp [newText]
      have hlength : (written ++ (pending ++ old)).length = (written ++ pending ++ old).length := by
        rw [List.append_assoc]
      rw [places, ← List.length_append, hold, hnew, ← hlength]
      exact ih written (pending ++ old) (hlength ▸ hrest)
    | some text =>
      have hpiece := h [] old text segments rfl
      have hold : written ++ pending ++ oldText ((old, some text) :: segments) =
          written ++ pending ++ old ++ [] ++ oldText segments := by
        simp [oldText]
      have hbefore : substr? (written ++ pending ++ old ++ [] ++ oldText segments) written.length
          (((written ++ pending).length : Int) - written.length) = some pending := by
        have hcount : ((written ++ pending).length : Int) - written.length = pending.length := by
          rw [List.length_append]
          omega
        rw [hcount, List.append_nil, List.append_assoc (written ++ pending)]
        exact substr?_append written pending (old ++ oldText segments)
      have hbehind := ih (written ++ pending ++ old) [] (by rw [List.append_nil]; exact hrest)
      rw [List.append_nil (written ++ pending ++ old)] at hbehind
      simp only [oldText, List.flatMap_nil, List.length_nil, Nat.add_zero] at hpiece
      rw [places, spliceFrom, hpiece, hold, hbefore, ← List.length_append, List.append_nil, hbehind]
      simp [newText]

theorem splice_places (piece : Int × Int → Option (List α)) (segments : List (List α × Option (List α)))
    (h : Fits piece 0 segments) : spliceFrom (oldText segments) piece 0 (places 0 segments) = some (newText segments) :=
  spliceFrom_places piece segments [] [] h

theorem places_append (offset : Nat) (l l' : List (List α × Option (List α))) :
    places offset (l ++ l') = places offset l ++ places (offset + (oldText l).length) l' := by
  induction l generalizing offset with
  | nil => rfl
  | cons segment l ih =>
    obtain ⟨old, new⟩ := segment
    have hoffset : offset + (oldText ((old, new) :: l)).length = offset + old.length + (oldText l).length := by
      rw [oldText_cons, List.length_append]
      exact (Nat.add_assoc _ _ _).symm
    rw [hoffset]
    cases new with
    | none => exact ih _
    | some text => exact congrArg _ (ih _)

theorem places_eq (segments : List (List α × Option (List α))) :
    places 0 segments =
      ((List.range segments.length).filter fun i => (segments[i]?.bind Prod.snd).isSome).map fun i =>
        (((oldText (segments.take i)).length : Int), ((oldText (segments.take (i + 1))).length : Int)) := by
  induction segments using List.reverseRecOn with
  | nil => rfl
  | append_singleton l segment ih =>
    have hsame : ∀ i ∈ List.range l.length,
        (((l ++ [segment])[i]?.bind Prod.snd).isSome = (l[i]?.bind Prod.snd).isSome) ∧
          (l ++ [segment]).take i = l.take i ∧ (l ++ [segment]).take (i + 1) = l.take (i + 1) := by
      intro i hi
      have hlt : i < l.length := List.mem_range.mp hi
      rw [List.getElem?_append_left hlt, List.take_append_of_le_length hlt.le, List.take_append_of_le_length hlt]
      exact ⟨rfl, rfl, rfl⟩
    have hbefore : ((List.range l.length).filter fun i => ((l ++ [segment])[i]?.bind Prod.snd).isSome).map
        (fun i => (((oldText ((l ++ [segment]).take i)).length : Int),
          ((oldText ((l ++ [segment]).take (i + 1))).length : Int))) = places 0 l := by
      rw [ih, List.filter_congr fun i hi => (hsame i hi).1]
      refine List.map_congr_left fun i hi => ?_
      have hi := hsame i (List.mem_of_mem_filter hi)
      rw [hi.2.1, hi.2.2]
    rw [places_append, List.length_append, List.length_singleton, List.range_succ, List.filter_append, List.map_append,
      hbefore]
    congr 1
    obtain ⟨old, new⟩ := segment
    cases new with
    | none => simp [places]
    | some text =>
      have hplaces : places (0 + (oldText l).length) [(old, some text)] =
          [(((oldText l).length : Int), ((oldText (l ++ [(old, some text)])).length : Int))] := by
        rw [oldText_append, List.length_append, Nat.zero_add]
        simp [places, oldText]
      have hsel : ([l.length].filter fun i => ((l ++ [(old, some text)])[i]?.bind Prod.snd).isSome) = [l.length] := by
        simp
      have hall : (l ++ [(old, some text)]).take (l.length + 1) = l ++ [(old, some text)] :=
        List.take_of_length_le (by simp)
      rw [hplaces, hsel, List.map_singleton, hall, List.take_left]

theorem pairwise_places (offset : Nat) (segments : List (List α × Option (List α))) :
    (places offset segments).Pairwise (fun a b => placeLe a b = true) ∧
      ∀ a ∈ places offset segments, (offset : Int) ≤ a.1 ∧ a.1 ≤ a.2 := by
  induction segments generalizing offset with
  | nil => exact ⟨List.Pairwise.nil, List.forall_mem_nil _⟩
  | cons segment segments ih =>
    obtain ⟨old, new⟩ := segment
    obtain ⟨hsorted, hlow⟩ := ih (offset + old.length)
    have hlater : ∀ a ∈ places (offset + old.length) segments, (offset : Int) ≤ a.1 ∧ a.1 ≤ a.2 := by
      intro a ha
      have := hlow a ha
      omega
    cases new with
    | none => exact ⟨hsorted, hlater⟩
    | some text =>
      refine ⟨List.pairwise_cons.mpr ⟨fun a ha => ?_, hsorted⟩, ?_⟩
      · have := hlow a ha
        simp only [placeLe, sizeLe, ne_eq]
        split
        · simp only [Bool.or_eq_true, Bool.and_eq_true, decide_eq_true_eq]
          omega
        · simp only [Bool.or_eq_true, Bool.and_eq_true, decide_eq_true_eq]
          omega
      · intro a ha
        rcases List.mem_cons.mp ha with rfl | ha
        · show (offset : Int) ≤ (offset : Int) ∧ (offset : Int) ≤ ((offset + old.length : Nat) : Int)
          omega
        · exact hlater a ha

theorem sizeLe_iff {a b : Int} : sizeLe a b = true ↔ b = -1 ∨ a ≠ -1 ∧ a ≤ b := by
  simp [sizeLe]

theorem placeLe_iff {a b : Int × Int} :
    placeLe a b = true ↔ a.1 = b.1 ∧ (b.2 = -1 ∨ a.2 ≠ -1 ∧ a.2 ≤ b.2) ∨
      a.1 ≠ b.1 ∧ (b.1 = -1 ∨ a.1 ≠ -1 ∧ a.1 ≤ b.1) := by
  rw [placeLe]
  split
  · rename_i h
    rw [sizeLe_iff]
    exact ⟨fun hle => .inl ⟨h, hle⟩, fun hle => hle.elim And.right fun hne => absurd h hne.1⟩
  · rename_i h
    rw [sizeLe_iff]
    exact ⟨fun hle => .inr ⟨h, hle⟩, fun hle => hle.elim (fun heq => absurd heq.1 h) And.right⟩

theorem placeLe_trans (a b c : Int × Int) (hab : placeLe a b = true) (hbc : placeLe b c = true) : placeLe a c = true := by
  rw [placeLe_iff] at *
  omega

theorem placeLe_total (a b : Int × Int) : (placeLe a b || placeLe b a) = true := by
  rw [Bool.or_eq_true, placeLe_iff, placeLe_iff]
  omega

theorem placeLe_antisymm {a b : Int × Int} (hab : placeLe a b = true) (hba : placeLe b a = true) : a = b := by
  rw [placeLe_iff] at *
  exact Prod.ext (by omega) (by omega)

/-- However the places are found, they are in order after they have been sorted. -/
theorem mergeSort_eq_places {posList : List (Int × Int)} {segments : List (List α × Option (List α))}
    (h : posList.Perm (places 0 segments)) : posList.mergeSort placeLe = places 0 segments := by
  have hsorted : (posList.mergeSort placeLe).Pairwise (fun a b => placeLe a b = true) :=
    List.pairwise_mergeSort placeLe_trans placeLe_total posList
  exact List.Perm.eq_of_pairwise (fun a b _ _ => placeLe_antisymm) hsorted (pairwise_places 0 segments).1
    ((List.mergeSort_perm posList placeLe).trans h)

end Splice
