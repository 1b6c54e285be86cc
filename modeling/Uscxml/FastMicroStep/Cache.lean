import Uscxml.FastMicroStep.Bitset
import Uscxml.FastMicroStep.Tables
import Uscxml.Lib.Fold
import Uscxml.Messages.EventData

/-!
# Tables from a cache

`FastMicroStep::init` writes the bit sets that it computes into a `Data`, one item of an array for every state and every
transition, and takes them from there the next time. It goes through the items that are there in the order of their keys,
whatever these are, and makes an item for every state behind the last one. The keys of these items are counted from 0, also
when there is an item with this key already: it is then used a second time, for another state.
-/

namespace Uscxml

namespace Data

def item? (key : Nat) (array : List (Nat × Data)) : Option Data := (array.find? fun i => i.1 = key).map (·.2)

theorem item?_alter (key key' : Nat) (item : Data) (array : List (Nat × Data)) :
    item? key' (alter key (fun _ => item) array) = if key = key' then some item else item? key' array :=
  find?_alter key key' item array

theorem item?_eq_none {key : Nat} {array : List (Nat × Data)} (h : key ∉ array.map (·.1)) : item? key array = none := by
  rw [item?, Option.map_eq_none_iff, List.find?_eq_none]
  intro i hi
  rw [decide_eq_true_iff]
  rintro rfl
  exact h (List.mem_map_of_mem hi)

theorem item?_itemsFrom (key index : Nat) (values : List Data) :
    item? key (itemsFrom index values) = if index ≤ key then values[key - index]? else none := by
  induction values generalizing index with
  | nil => simp [itemsFrom, item?]
  | cons value values ih =>
    rw [item?, itemsFrom, List.find?_cons]
    by_cases heq : index = key
    · subst heq
      simp
    · rw [decide_eq_false heq]
      show item? key (itemsFrom (index + 1) values) = _
      rw [ih]
      by_cases hle : index ≤ key
      · rw [if_pos (by omega), if_pos hle, ← Nat.succ_pred_eq_of_pos (show 0 < key - index by omega), List.getElem?_cons_succ]
        congr 1
      · rw [if_neg (by omega), if_neg hle]

theorem itemsFrom_append (index : Nat) (values values' : List Data) :
    itemsFrom index (values ++ values') = itemsFrom index values ++ itemsFrom (index + values.length) values' := by
  induction values generalizing index with
  | nil => rfl
  | cons value values ih => rw [List.cons_append, itemsFrom, ih, itemsFrom, List.cons_append, List.length_cons,
      Nat.add_assoc, Nat.add_comm 1]

theorem lt_of_mem_itemsFrom {index : Nat} {values : List Data} {entry : Nat × Data} (h : entry ∈ itemsFrom index values) :
    index ≤ entry.1 ∧ entry.1 < index + values.length := by
  induction values generalizing index with
  | nil => cases h
  | cons value values ih =>
    rw [List.length_cons]
    rcases List.mem_cons.mp h with rfl | h
    · exact ⟨le_refl _, by simp only; omega⟩
    · have := ih h
      omega

theorem alter_append {key : Nat} {item : Data} {array : List (Nat × Data)} (h : ∀ e ∈ array, e.1 < key) :
    alter key (fun _ => item) array = array ++ [(key, item)] := by
  induction array with
  | nil => rfl
  | cons e array ih =>
    obtain ⟨he, harray⟩ := List.forall_mem_cons.mp h
    rw [alter, if_neg (by omega), if_neg (by omega), ih harray]
    rfl

theorem alter_same {key : Nat} {item : Data} {array : List (Nat × Data)} (hsorted : (array.map (·.1)).Pairwise (· < ·))
    (h : item? key array = some item) : alter key (fun _ => item) array = array := by
  induction array with
  | nil => cases h
  | cons e array ih =>
    obtain ⟨k, d⟩ := e
    rw [List.map_cons, List.pairwise_cons] at hsorted
    rw [item?, List.find?_cons] at h
    by_cases hk : k = key
    · subst hk
      simp only [decide_true, Option.map_some, Option.some.injEq] at h
      rw [alter, if_neg (lt_irrefl k), if_pos rfl, h]
    · rw [decide_eq_false hk] at h
      have hmem : key ∈ array.map (·.1) := by
        by_contra hnot
        exact absurd (item?_eq_none hnot) (by rw [item?, h]; simp)
      have hlt := hsorted.1 key hmem
      rw [alter, if_neg (by omega), if_neg (by omega), ih hsorted.2 h]

theorem keys_itemsFrom (index : Nat) (values : List Data) : (itemsFrom index values).map (·.1) = List.range' index values.length := by
  induction values generalizing index with
  | nil => rfl
  | cons value values ih => rw [itemsFrom, List.map_cons, ih, List.length_cons, List.range'_succ]

end Data

namespace FastMicroStep

variable {β : Type}

/-! ### The rows of the tables -/

/-- What `init` establishes for a state: the bits of its completion, and the bit of its type that depends on whether the
completion was computed. -/
structure StateRow where
  completion : List Bool
  hasHistory : Bool
  deriving DecidableEq

/-- What `init` establishes for a transition. -/
structure TransitionRow where
  exitSet : List Bool
  conflicts : List Bool
  target : List Bool
  deriving DecidableEq

/-- The bit set in a member of a cached item, unless it is of another size. -/
def cachedBits (size : Nat) (member : String) (item : Data) : Option (List Bool) :=
  (item.at? member).bind fun text => if (fromBase64 text.atom).length = size then some (fromBase64 text.atom) else none

/-- A bit set comes from the cached item, or it is computed and written there. -/
def establish (size : Nat) (member : String) (computed : List Bool) : Option Data → List Bool × Option Data
  | none => (computed, none)
  | some item =>
    match cachedBits size member item with
    | some bits => (bits, some item)
    | none => (computed, some (Data.put member (Data.ofText (toBase64 computed)) item))

section Rows

variable (d : Document β)

/-- The body of the loop over the states. Only the computation of the completion of a history leaves `hasHistoryChild` in
its user data. -/
def establishState (_ : List StateRow) (p : TreePath) (item : Option Data) : StateRow × Option Data :=
  let computes := (item.bind (cachedBits d.states.length "completion")).isNone
  let (completion, item) := establish d.states.length "completion" (bitsOf d.states (stateInfo d p).completion) item
  ({ completion, hasHistory := computes && hasHistoryChild d p = some p }, item)

/-- A row of the conflict matrix: it is computed from the diagonal on, the bits before that come from the rows above. -/
def conflictBits (rows : List TransitionRow) (t : TransId) : List Bool :=
  rows.map (fun row => row.conflicts.getD rows.length false) ++
    ((postFixTransitions d).drop rows.length).map (d.conflicts t)

/-- The body of the loop over the transitions. -/
def establishTransition (rows : List TransitionRow) (t : TransId) (item : Option Data) : TransitionRow × Option Data :=
  let (exitSet, item) := establish d.states.length "exitset" (bitsOf d.states (transitionInfo d t).exitSet) item
  let (conflicts, item) := establish (postFixTransitions d).length "conflicts" (conflictBits d rows t) item
  let (target, item) := establish d.states.length "target" (bitsOf d.states (transitionInfo d t).target) item
  ({ exitSet, conflicts, target }, item)

end Rows

/-! ### The loops -/

section Loops

variable {α ρ : Type} (row : List ρ → α → Option Data → ρ × Option Data)

/-- A loop over states or transitions: the array, the keys of the items that are still to come, the next key for a new item
and the rows so far. -/
structure CacheLoop (ρ : Type) where
  array : List (Nat × Data)
  curr : List Nat
  index : Nat := 0
  rows : List ρ := []

def cacheRound (l : CacheLoop ρ) (a : α) : CacheLoop ρ :=
  let key := l.curr.headD l.index
  let (r, item) := row l.rows a (some ((Data.item? key l.array).getD Data.empty))
  { array := Data.alter key (fun e => item.getD e) l.array
    curr := l.curr.tail
    index := if l.curr.isEmpty then l.index + 1 else l.index
    rows := l.rows ++ [r] }

def cachedLoop (array : List (Nat × Data)) (l : List α) : CacheLoop ρ :=
  l.foldl (cacheRound row) { array, curr := array.map (·.1) }

/-- The loop without one. -/
def plainRows (l : List α) : List ρ := l.foldl (fun rows a => rows ++ [(row rows a none).1]) []

end Loops

structure Rows where
  states : List StateRow
  transitions : List TransitionRow
  deriving DecidableEq

/-- `cache.compound[member].array`, in the part of the cache that belongs to the microstepper. -/
def cachedArray (member : String) (cache : Data) : List (Nat × Data) :=
  ((cache.at? "FastMicroStep").bind (·.at? member)).elim [] Data.array

def setArray (member : String) (array : List (Nat × Data)) (cache : Data) : Data :=
  Data.modify (fun | .mk atom verbatim compound _ => .mk atom verbatim compound array)
    [.key "FastMicroStep", .key member] cache

/-- `FastMicroStep::init` for a document whose pseudo-states stand first, with the cache that it leaves. -/
def initRows (d : Document β) : Option Data → Rows × Option Data
  | none =>
    ({ states := plainRows (establishState d) d.states
       transitions := plainRows (establishTransition d) (postFixTransitions d) }, none)
  | some cache =>
    let states := cachedLoop (establishState d) (cachedArray "states" cache) d.states
    let transitions := cachedLoop (establishTransition d) (cachedArray "transitions" cache) (postFixTransitions d)
    ({ states := states.rows, transitions := transitions.rows },
      some (setArray "transitions" transitions.array (setArray "states" states.array cache)))

/-! ### Items that are used again -/

section Loops

variable {α ρ : Type} {row : List ρ → α → Option Data → ρ × Option Data} {g : α → ρ}

/-- Whatever it is used for, the item gives this row and stays as it is. -/
def Holds (row : List ρ → α → Option Data → ρ × Option Data) (item : Data) (r : ρ) : Prop :=
  ∀ rows a, row rows a (some item) = (r, some item)

def Gives (row : List ρ → α → Option Data → ρ × Option Data) (rows : List ρ) (a : α) (item : Data) (r : ρ) : Prop :=
  ∃ item', row rows a (some item) = (r, some item') ∧ Holds row item' r

/-- An array of items that may have been written for these elements: the keys ascend, and each item leads to the row that
is computed without it. -/
structure SoundArray (row : List ρ → α → Option Data → ρ × Option Data) (g : α → ρ) (l : List α) (array : List (Nat × Data)) :
    Prop where
  sorted : (array.map (·.1)).Pairwise (· < ·)
  gives : ∀ (i : Nat) (a : α) (key : Nat), l[i]? = some a → (array.map (·.1))[i]? = some key →
    Gives row ((l.take i).map g) a ((Data.item? key array).getD Data.empty) (g a)

/-- The items that are used twice are used for elements with the same row. -/
def ReusedAlike (g : α → ρ) (array : List (Nat × Data)) (l : List α) : Prop :=
  ∀ (i : Nat) (a : α) (k : Nat) (b : α), l[i]? = some a → l[k]? = some b → array.length ≤ i → (array.map (·.1))[k]? = some (i - array.length) → g a = g b

/-- The loop behind the elements `pre`, as long as all rows are right. -/
structure Kept (row : List ρ → α → Option Data → ρ × Option Data) (g : α → ρ) (array : List (Nat × Data)) (pre : List α)
    (l : CacheLoop ρ) : Prop where
  curr : l.curr = (array.map (·.1)).drop pre.length
  index : l.index = pre.length - array.length
  done : ∀ (k : Nat) (b : α) (key : Nat), pre[k]? = some b → (array.map (·.1))[k]? = some key →
    ∃ item, Data.item? key l.array = some item ∧ Holds row item (g b)
  todo : ∀ (k : Nat) (key : Nat), pre.length ≤ k → (array.map (·.1))[k]? = some key → Data.item? key l.array = Data.item? key array
  rest : ∀ key, key ∉ array.map (·.1) → pre.length - array.length ≤ key → Data.item? key l.array = none

variable {array : List (Nat × Data)}

theorem kept_start : Kept row g array [] { array, curr := array.map (·.1) } where
  curr := rfl
  index := (Nat.zero_sub _).symm
  done _ _ _ h := by simp at h
  todo _ _ _ _ := rfl
  rest _ h _ := Data.item?_eq_none h

theorem cacheRound_eq (row : List ρ → α → Option Data → ρ × Option Data) (l : CacheLoop ρ) (a : α) (r : ρ) (item : Data)
    (h : row l.rows a (some ((Data.item? (l.curr.headD l.index) l.array).getD Data.empty)) = (r, some item)) :
    cacheRound row l a =
      { array := Data.alter (l.curr.headD l.index) (fun _ => item) l.array
        curr := l.curr.tail
        index := if l.curr.isEmpty then l.index + 1 else l.index
        rows := l.rows ++ [r] } := by
  simp only [cacheRound, h, Option.getD_some]

theorem lt_of_key {array : List (Nat × Data)} {k key : Nat} (h : (array.map (·.1))[k]? = some key) : k < array.length := by
  have hlt := (List.getElem?_eq_some_iff.mp h).1
  rwa [List.length_map] at hlt

theorem keys_getElem?_ne {array : List (Nat × Data)} (hsorted : (array.map (·.1)).Pairwise (· < ·)) {i k key : Nat}
    (hi : (array.map (·.1))[i]? = some key) (hk : (array.map (·.1))[k]? = some key) : i = k := by
  have hnodup : (array.map (·.1)).Nodup := hsorted.imp fun h => ne_of_lt h
  obtain ⟨hlt, -⟩ := List.getElem?_eq_some_iff.mp hi
  exact (List.getElem?_inj hlt hnodup).mp (hi.trans hk.symm)

variable {pre : List α} {l : CacheLoop ρ} {a : α} (hsorted : (array.map (·.1)).Pairwise (· < ·)) (h : Kept row g array pre l)
  (hrows : l.rows = pre.map g)

include hsorted h hrows

theorem kept_round_cached {key : Nat} (hkey : (array.map (·.1))[pre.length]? = some key)
    (hgives : Gives row (pre.map g) a ((Data.item? key array).getD Data.empty) (g a)) :
    (cacheRound row l a).rows = l.rows ++ [g a] ∧ Kept row g array (pre ++ [a]) (cacheRound row l a) := by
  obtain ⟨item, hrow, hholds⟩ := hgives
  obtain ⟨hlt, hget⟩ := List.getElem?_eq_some_iff.mp hkey
  have hcurr : l.curr = key :: (array.map (·.1)).drop (pre.length + 1) := by
    rw [h.curr, List.drop_eq_getElem_cons hlt, hget]
  have hlength := lt_of_key hkey
  have hround := cacheRound_eq row l a (g a) item (by
    rw [hcurr, List.headD_cons, h.todo pre.length key (le_refl _) hkey, hrows]
    exact hrow)
  rw [hcurr, List.headD_cons, List.tail_cons] at hround
  rw [hround]
  refine ⟨rfl, ?_, ?_, ?_, ?_, ?_⟩
  · rw [List.length_append, List.length_singleton]
  · show l.index = _
    rw [h.index, List.length_append, List.length_singleton]
    omega
  · intro k b key' hb hkey'
    rw [Data.item?_alter]
    by_cases hk : k = pre.length
    · subst hk
      rw [List.getElem?_concat_length, Option.some.injEq] at hb
      rw [hkey, Option.some.injEq] at hkey'
      subst hb
      subst hkey'
      exact ⟨item, if_pos rfl, hholds⟩
    · have hk' : k < pre.length := by
        have := (List.getElem?_eq_some_iff.mp hb).1
        rw [List.length_append, List.length_singleton] at this
        omega
      have hne : key ≠ key' := by
        rintro rfl
        exact hk (keys_getElem?_ne hsorted hkey' hkey)
      rw [if_neg hne]
      rw [List.getElem?_append_left hk'] at hb
      exact h.done k b key' hb hkey'
  · intro k key' hk hkey'
    rw [List.length_append, List.length_singleton] at hk
    have hne : key ≠ key' := by
      rintro rfl
      have := keys_getElem?_ne hsorted hkey' hkey
      omega
    rw [Data.item?_alter, if_neg hne]
    exact h.todo k key' (by omega) hkey'
  · intro key' hnot hle
    have hne : key ≠ key' := by
      rintro rfl
      exact hnot (List.mem_of_getElem? hkey)
    rw [Data.item?_alter, if_neg hne]
    rw [List.length_append, List.length_singleton] at hle
    exact h.rest key' hnot (by omega)

omit hsorted in
theorem kept_round_fresh (hlength : array.length ≤ pre.length) (hkey : pre.length - array.length ∉ array.map (·.1))
    (hgives : Gives row (pre.map g) a Data.empty (g a)) :
    (cacheRound row l a).rows = l.rows ++ [g a] ∧ Kept row g array (pre ++ [a]) (cacheRound row l a) := by
  obtain ⟨item, hrow, hholds⟩ := hgives
  have hcurr : l.curr = [] := by
    rw [h.curr, List.drop_eq_nil_iff, List.length_map]
    exact hlength
  have hround := cacheRound_eq row l a (g a) item (by
    rw [hcurr, List.headD_nil, h.index, h.rest _ hkey (le_refl _), hrows]
    exact hrow)
  rw [hcurr, List.headD_nil, List.tail_nil, List.isEmpty_nil, if_pos rfl, h.index] at hround
  rw [hround]
  refine ⟨rfl, ?_, ?_, ?_, ?_, ?_⟩
  · rw [eq_comm, List.drop_eq_nil_iff, List.length_map, List.length_append]
    omega
  · show pre.length - array.length + 1 = _
    rw [List.length_append, List.length_singleton]
    omega
  · intro k b key' hb hkey'
    have hmem := List.mem_of_getElem? hkey'
    have hne : pre.length - array.length ≠ key' := by
      rintro rfl
      exact hkey hmem
    have hk : k < pre.length := lt_of_lt_of_le (lt_of_key hkey') hlength
    rw [Data.item?_alter, if_neg hne]
    rw [List.getElem?_append_left hk] at hb
    exact h.done k b key' hb hkey'
  · intro k key' hk hkey'
    have hlt := lt_of_key hkey'
    rw [List.length_append, List.length_singleton] at hk
    omega
  · intro key' hnot hle
    rw [List.length_append, List.length_singleton] at hle
    rw [Data.item?_alter, if_neg (by omega)]
    exact h.rest key' hnot (by omega)

omit hsorted hrows in
theorem kept_round_reused {k : Nat} {b : α} (hlength : array.length ≤ pre.length) (hb : pre[k]? = some b)
    (hkey : (array.map (·.1))[k]? = some (pre.length - array.length)) :
    (cacheRound row l a).rows = l.rows ++ [g b] ∧
      (g a = g b → Kept row g array (pre ++ [a]) (cacheRound row l a)) := by
  obtain ⟨item, hitem, hholds⟩ := h.done k b _ hb hkey
  have hcurr : l.curr = [] := by
    rw [h.curr, List.drop_eq_nil_iff, List.length_map]
    exact hlength
  have hround := cacheRound_eq row l a (g b) item (by
    rw [hcurr, List.headD_nil, h.index, hitem]
    exact hholds l.rows a)
  rw [hcurr, List.headD_nil, List.tail_nil, List.isEmpty_nil, if_pos rfl, h.index] at hround
  rw [hround]
  have hsame : ∀ key', Data.item? key' (Data.alter (pre.length - array.length) (fun _ => item) l.array) =
      Data.item? key' l.array := by
    intro key'
    rw [Data.item?_alter]
    split
    · rename_i hkey'
      rw [← hkey', hitem]
    · rfl
  refine ⟨rfl, fun hab => ⟨?_, ?_, ?_, ?_, ?_⟩⟩
  · rw [eq_comm, List.drop_eq_nil_iff, List.length_map, List.length_append]
    omega
  · show pre.length - array.length + 1 = _
    rw [List.length_append, List.length_singleton]
    omega
  · intro k' b' key' hb' hkey'
    have hk' : k' < pre.length := lt_of_lt_of_le (lt_of_key hkey') hlength
    rw [hsame]
    rw [List.getElem?_append_left hk'] at hb'
    exact h.done k' b' key' hb' hkey'
  · intro k' key' hk' hkey'
    have hlt := lt_of_key hkey'
    rw [List.length_append, List.length_singleton] at hk'
    omega
  · intro key' hnot hle
    rw [List.length_append, List.length_singleton] at hle
    rw [hsame]
    exact h.rest key' hnot (by omega)

omit hsorted h hrows

theorem reusedAlike_concat : ReusedAlike g array (pre ++ [a]) ↔ ReusedAlike g array pre ∧
    ∀ (k : Nat) (b : α), pre[k]? = some b → array.length ≤ pre.length →
      (array.map (·.1))[k]? = some (pre.length - array.length) → g a = g b := by
  constructor
  · intro h
    constructor
    · intro i b k b' hi hk hlength hkey
      exact h i b k b' (List.getElem?_append_left (List.getElem?_eq_some_iff.mp hi).1 ▸ hi)
        (List.getElem?_append_left (List.getElem?_eq_some_iff.mp hk).1 ▸ hk) hlength hkey
    · intro k b hk hlength hkey
      exact h pre.length a k b List.getElem?_concat_length
        (List.getElem?_append_left (List.getElem?_eq_some_iff.mp hk).1 ▸ hk) hlength hkey
  · rintro ⟨hpre, hlast⟩ i b k b' hi hk hlength hkey
    have hklt := lt_of_key hkey
    have hilt := (List.getElem?_eq_some_iff.mp hi).1
    rw [List.length_append, List.length_singleton] at hilt
    rw [List.getElem?_append_left (by omega)] at hk
    by_cases hlast' : i = pre.length
    · subst hlast'
      rw [List.getElem?_concat_length, Option.some.injEq] at hi
      exact hi ▸ hlast k b' hk hlength hkey
    · rw [List.getElem?_append_left (by omega)] at hi
      exact hpre i b k b' hi hk hlength hkey

theorem cachedLoop_concat (row : List ρ → α → Option Data → ρ × Option Data) (array : List (Nat × Data)) (pre : List α) (a : α) :
    cachedLoop row array (pre ++ [a]) = cacheRound row (cachedLoop row array pre) a := by
  rw [cachedLoop, List.foldl_append]
  rfl

/-- The rows are right exactly when the items that are used twice are used for elements with the same row. -/
theorem cachedLoop_rows_iff {all : List α} (hsound : SoundArray row g all array)
    (hfresh : ∀ (i : Nat) (a : α), all[i]? = some a → Gives row ((all.take i).map g) a Data.empty (g a)) :
    (cachedLoop row array all).rows = all.map g ↔ ReusedAlike g array all := by
  suffices hboth : ((cachedLoop row array all).rows = all.map g ↔ ReusedAlike g array all) ∧
      (ReusedAlike g array all → Kept row g array all (cachedLoop row array all)) from hboth.1
  refine List.prefix_induction (motive := fun pre => ((cachedLoop row array pre).rows = pre.map g ↔ ReusedAlike g array pre) ∧
    (ReusedAlike g array pre → Kept row g array pre (cachedLoop row array pre))) all ?_ ?_
  · have halike : ReusedAlike g array [] := fun i a _ _ hi => by simp at hi
    exact ⟨iff_of_true rfl halike, fun _ => kept_start⟩
  · intro pre a htake hget ⟨hrows, hkept⟩
    have hmap : (pre ++ [a]).map g = pre.map g ++ [g a] := by rw [List.map_append, List.map_singleton]
    have hround : ∃ r, (cacheRound row (cachedLoop row array pre) a).rows = (cachedLoop row array pre).rows ++ [r] :=
      ⟨_, rfl⟩
    rw [cachedLoop_concat, hmap, reusedAlike_concat]
    by_cases halike : ReusedAlike g array pre
    swap
    · refine ⟨iff_of_false ?_ fun h => halike h.1, fun h => absurd h.1 halike⟩
      intro heq
      obtain ⟨r, hr⟩ := hround
      rw [hr] at heq
      exact halike (hrows.mp (List.append_inj_left' heq rfl))
    have hright := hrows.mpr halike
    have hkeptPre := hkept halike
    rw [and_iff_right halike]
    by_cases hlength : array.length ≤ pre.length
    · by_cases htaken : pre.length - array.length ∈ array.map (·.1)
      · obtain ⟨k, hklt, hk⟩ := List.mem_iff_getElem.mp htaken
        have hkey : (array.map (·.1))[k]? = some (pre.length - array.length) := List.getElem?_eq_some_iff.mpr ⟨hklt, hk⟩
        have hk' : k < pre.length := by
          rw [List.length_map] at hklt
          omega
        have hb : pre[k]? = some pre[k] := List.getElem?_eq_getElem hk'
        obtain ⟨hreused, hkeeps⟩ := kept_round_reused (a := a) hkeptPre hlength hb hkey
        have hiff : (∀ (k : Nat) (b : α), pre[k]? = some b → array.length ≤ pre.length →
            (array.map (·.1))[k]? = some (pre.length - array.length) → g a = g b) ↔ g a = g pre[k] := by
          constructor
          · intro h
            exact h k _ hb hlength hkey
          · intro h k' b' hb' _ hkey'
            obtain rfl := keys_getElem?_ne hsound.sorted hkey hkey'
            rw [hb, Option.some.injEq] at hb'
            rw [h, hb']
        rw [hiff, hreused, hright]
        refine ⟨?_, hkeeps⟩
        rw [List.append_cancel_left_eq, List.cons.injEq, eq_comm]
        exact and_iff_left rfl
      · obtain ⟨hnew, hkeeps⟩ := kept_round_fresh hkeptPre hright hlength htaken (htake ▸ hfresh pre.length a hget)
        refine ⟨iff_of_true (by rw [hnew, hright]) ?_, fun _ => hkeeps⟩
        intro k b _ _ hkey
        exact absurd (List.mem_of_getElem? hkey) htaken
    · have hklt : pre.length < (array.map (·.1)).length := by
        rw [List.length_map]
        omega
      have hkey : (array.map (·.1))[pre.length]? = some (array.map (·.1))[pre.length] := List.getElem?_eq_getElem hklt
      obtain ⟨hnew, hkeeps⟩ := kept_round_cached hsound.sorted hkeptPre hright hkey
        (htake ▸ hsound.gives pre.length a _ hget hkey)
      refine ⟨iff_of_true (by rw [hnew, hright]) ?_, fun _ => hkeeps⟩
      intro k b _ hlength'
      exact absurd hlength' hlength

theorem cachedLoop_empty {all : List α} {w : α → Data}
    (h : ∀ (i : Nat) (a : α), all[i]? = some a → row ((all.take i).map g) a (some Data.empty) = (g a, some (w a))) :
    cachedLoop row [] all =
      { array := Data.itemsFrom 0 (all.map w), curr := [], index := all.length, rows := all.map g } := by
  refine List.prefix_induction (motive := fun pre => cachedLoop row [] pre =
    { array := Data.itemsFrom 0 (pre.map w), curr := [], index := pre.length, rows := pre.map g }) all rfl ?_
  intro pre a htake hget hpre
  have hrow := h pre.length a hget
  rw [htake] at hrow
  have hnone : Data.item? pre.length (Data.itemsFrom 0 (pre.map w)) = none := by
    rw [Data.item?_itemsFrom, if_pos (Nat.zero_le _)]
    simp
  have hround := cacheRound_eq row (cachedLoop row [] pre) a (g a) (w a) (by
    rw [hpre]
    show row (pre.map g) a (some ((Data.item? pre.length (Data.itemsFrom 0 (pre.map w))).getD Data.empty)) = _
    rw [hnone]
    exact hrow)
  rw [cachedLoop_concat, hround, hpre, List.length_append, List.map_append, List.map_append, Data.itemsFrom_append, List.length_map,
    Nat.zero_add]
  show CacheLoop.mk (Data.alter pre.length (fun _ => w a) (Data.itemsFrom 0 (pre.map w))) _ _ _ = _
  rw [Data.alter_append]
  · rfl
  · intro e he
    have := Data.lt_of_mem_itemsFrom he
    rw [List.length_map] at this
    omega

theorem cachedLoop_full {all : List α} {w : α → Data} (index : Nat)
    (h : ∀ (i : Nat) (a : α), all[i]? = some a → row ((all.take i).map g) a (some (w a)) = (g a, some (w a))) :
    cachedLoop row (Data.itemsFrom index (all.map w)) all =
      { array := Data.itemsFrom index (all.map w), curr := [], rows := all.map g } := by
  have hkeys := Data.keys_itemsFrom index (all.map w)
  rw [List.length_map] at hkeys
  suffices hpre : cachedLoop row (Data.itemsFrom index (all.map w)) all =
      { array := Data.itemsFrom index (all.map w)
        curr := (List.range' index all.length).drop all.length
        rows := all.map g } by
    rw [hpre, List.drop_of_length_le (by rw [List.length_range'])]
  refine List.prefix_induction (motive := fun pre => cachedLoop row (Data.itemsFrom index (all.map w)) pre =
    { array := Data.itemsFrom index (all.map w)
      curr := (List.range' index all.length).drop pre.length
      rows := pre.map g }) all ?_ ?_
  · show CacheLoop.mk _ ((Data.itemsFrom index (all.map w)).map (·.1)) 0 [] = _
    rw [hkeys]
    rfl
  · intro pre a htake hget hpre
    have hrow := h pre.length a hget
    rw [htake] at hrow
    have hlt : pre.length < all.length := (List.getElem?_eq_some_iff.mp hget).1
    have hdrop : (List.range' index all.length).drop pre.length =
        (index + pre.length) :: (List.range' index all.length).drop (pre.length + 1) := by
      rw [List.drop_eq_getElem_cons (by rw [List.length_range']; exact hlt), List.getElem_range', Nat.one_mul]
    rw [hdrop] at hpre
    have hitem : Data.item? (index + pre.length) (Data.itemsFrom index (all.map w)) = some (w a) := by
      rw [Data.item?_itemsFrom, if_pos (Nat.le_add_right _ _), Nat.add_sub_cancel_left, List.getElem?_map, hget, Option.map_some]
    have hround := cacheRound_eq row (cachedLoop row (Data.itemsFrom index (all.map w)) pre) a (g a) (w a) (by
        rw [hpre]
        show row (pre.map g) a (some ((Data.item? (index + pre.length) (Data.itemsFrom index (all.map w))).getD Data.empty)) = _
        rw [hitem]
        exact hrow)
    have hsorted : ((Data.itemsFrom index (all.map w)).map (·.1)).Pairwise (· < ·) := by
      rw [hkeys]
      exact List.pairwise_lt_range'
    rw [cachedLoop_concat, hround, hpre, List.length_append, List.map_append]
    show CacheLoop.mk (Data.alter (index + pre.length) (fun _ => w a) (Data.itemsFrom index (all.map w))) _ _ _ = _
    rw [Data.alter_same hsorted hitem]
    rfl

end Loops

/-! ### The rows of a document -/

section Rows

variable {α ρ : Type}

theorem plainRows_eq {row : List ρ → α → Option Data → ρ × Option Data} {g : α → ρ} {all : List α}
    (h : ∀ (i : Nat) (a : α), all[i]? = some a → (row ((all.take i).map g) a none).1 = g a) : plainRows row all = all.map g := by
  refine List.prefix_induction (motive := fun pre => plainRows row pre = pre.map g) all rfl ?_
  intro pre a htake hget hpre
  have hrow := h pre.length a hget
  rw [htake] at hrow
  rw [plainRows] at hpre
  rw [plainRows, List.foldl_append, hpre, List.foldl_cons, List.foldl_nil, hrow, List.map_append, List.map_singleton]

variable (d : Document β)

def stateRow (p : TreePath) : StateRow :=
  { completion := bitsOf d.states (stateInfo d p).completion, hasHistory := (stateInfo d p).hasHistory }

def transitionRow (t : TransId) : TransitionRow :=
  { exitSet := bitsOf d.states (transitionInfo d t).exitSet
    conflicts := bitsOf (postFixTransitions d) (transitionInfo d t).conflicts
    target := bitsOf d.states (transitionInfo d t).target }

/-- What `hasHistoryChild` is asked for is never left there: a history is not below its parent for itself. -/
theorem hasHistoryChild_ne (p : TreePath) : hasHistoryChild d p ≠ some p := by
  intro h
  have hmem := List.mem_of_getLast? h
  rw [List.mem_filter, Bool.and_eq_true, Bool.and_eq_true, decide_eq_true_iff] at hmem
  exact hmem.2.1.1 rfl

theorem stateRow_hasHistory (p : TreePath) : (stateRow d p).hasHistory = false := decide_eq_false (hasHistoryChild_ne d p)

variable {d}

theorem conflictBits_eq {i : Nat} {t : TransId} (ht : (postFixTransitions d)[i]? = some t) :
    conflictBits d (((postFixTransitions d).take i).map (transitionRow d)) t = (transitionRow d t).conflicts := by
  have hlt := (List.getElem?_eq_some_iff.mp ht).1
  have hmem : ∀ u u', u' ∈ postFixTransitions d → (decide (u' ∈ (transitionInfo d u).conflicts)) = d.conflicts u u' := by
    intro u u' hu'
    simp [transitionInfo, hu']
  have hsplit : (postFixTransitions d).take i ++ (postFixTransitions d).drop i = postFixTransitions d := List.take_append_drop i _
  have hlength : (((postFixTransitions d).take i).map (transitionRow d)).length = i := by
    rw [List.length_map, List.length_take]
    omega
  have hrow : (transitionRow d t).conflicts = (postFixTransitions d).map (d.conflicts t) :=
    List.map_congr_left fun u hu => hmem t u hu
  rw [hrow, conflictBits, hlength]
  conv_rhs => rw [← hsplit, List.map_append]
  congr 1
  rw [List.map_map]
  refine List.map_congr_left ?_
  intro u _
  have hbit : (bitsOf (postFixTransitions d) (transitionInfo d u).conflicts)[i]? = some (d.conflicts u t) := by
    rw [bitsOf, List.getElem?_map, ht, Option.map_some, hmem u t (List.mem_of_getElem? ht)]
  show (bitsOf (postFixTransitions d) (transitionInfo d u).conflicts).getD i false = d.conflicts t u
  rw [List.getD_eq_getElem?_getD, hbit, Option.getD_some, Document.conflicts_comm]

theorem initRows_none : (initRows d none).1 =
    { states := d.states.map (stateRow d), transitions := (postFixTransitions d).map (transitionRow d) } := by
  have hstates : plainRows (establishState d) d.states = d.states.map (stateRow d) :=
    plainRows_eq fun _ _ _ => rfl
  have htransitions : plainRows (establishTransition d) (postFixTransitions d) = (postFixTransitions d).map (transitionRow d) := by
    refine plainRows_eq ?_
    intro i t ht
    show TransitionRow.mk _ (conflictBits d _ t) _ = _
    rw [conflictBits_eq ht]
    rfl
  rw [initRows, hstates, htransitions]

/-! ### Items -/

def HasBits (item : Data) (member : String) (bits : List Bool) : Prop :=
  ∃ text, item.at? member = some text ∧ text.atom = toBase64 bits

/-- If the member is there, it has a bit set of another size or the one that is computed. -/
def SoundMember (size : Nat) (member : String) (computed : List Bool) (item : Data) : Prop :=
  ∀ text, item.at? member = some text → ∃ bits, text.atom = toBase64 bits ∧ bits.length < 2 ^ 64 ∧
    (bits.length = size → bits = computed)

theorem soundMember_empty (size : Nat) (member : String) (computed : List Bool) : SoundMember size member computed Data.empty := by
  intro text h
  cases h

theorem cachedBits_of_hasBits {item : Data} {member : String} {bits : List Bool} (h : HasBits item member bits)
    (hfits : bits.length < 2 ^ 64) : cachedBits bits.length member item = some bits := by
  obtain ⟨text, hat, hatom⟩ := h
  rw [cachedBits, hat, Option.bind_some, hatom, fromBase64_toBase64 hfits, if_pos rfl]

theorem establish_of_hasBits {item : Data} {member : String} {bits : List Bool} (h : HasBits item member bits)
    (hfits : bits.length < 2 ^ 64) (computed : List Bool) :
    establish bits.length member computed (some item) = (bits, some item) := by
  simp only [establish, cachedBits_of_hasBits h hfits]

/-- A sound member does not change what is established, and is there afterwards. The other members stay. -/
theorem establish_sound {item : Data} {member : String} {computed : List Bool} (hfits : computed.length < 2 ^ 64)
    (h : SoundMember computed.length member computed item) :
    ∃ item', establish computed.length member computed (some item) = (computed, some item') ∧
      HasBits item' member computed ∧ ∀ other, other ≠ member → item'.at? other = item.at? other := by
  have hwritten : HasBits (Data.put member (Data.ofText (toBase64 computed)) item) member computed :=
    ⟨_, by rw [Data.at?_put, if_pos rfl], rfl⟩
  have hother : ∀ other, other ≠ member → (Data.put member (Data.ofText (toBase64 computed)) item).at? other = item.at? other := by
    intro other hne
    rw [Data.at?_put, if_neg hne.symm]
  cases hat : item.at? member with
  | none =>
    have hnone : cachedBits computed.length member item = none := by rw [cachedBits, hat, Option.bind_none]
    exact ⟨_, by simp only [establish, hnone], hwritten, hother⟩
  | some text =>
    obtain ⟨bits, hatom, hbits, hright⟩ := h text hat
    by_cases hsize : bits.length = computed.length
    · obtain rfl := hright hsize
      have hhas : HasBits item member bits := ⟨text, hat, hatom⟩
      exact ⟨item, establish_of_hasBits hhas hfits bits, hhas, fun _ _ => rfl⟩
    · have hnone : cachedBits computed.length member item = none := by
        rw [cachedBits, hat, Option.bind_some, hatom, fromBase64_toBase64 hbits, if_neg hsize]
      exact ⟨_, by simp only [establish, hnone], hwritten, hother⟩

theorem SoundMember.of_at? {size : Nat} {member : String} {computed : List Bool} {item item' : Data}
    (h : SoundMember size member computed item) (hat : item'.at? member = item.at? member) :
    SoundMember size member computed item' := by
  intro text htext
  exact h text (hat ▸ htext)

/-! ### Sound caches -/

variable (d) in
/-- The item has the bit sets of the state, or sets of another size. -/
def SoundState (p : TreePath) (item : Data) : Prop :=
  SoundMember d.states.length "completion" (stateRow d p).completion item

variable (d) in
/-- The item has the bit sets of the transition, or sets of another size. -/
structure SoundTransition (t : TransId) (item : Data) : Prop where
  exitSet : SoundMember d.states.length "exitset" (transitionRow d t).exitSet item
  conflicts : SoundMember (postFixTransitions d).length "conflicts" (transitionRow d t).conflicts item
  target : SoundMember d.states.length "target" (transitionRow d t).target item

theorem holds_state (hfits : d.states.length < 2 ^ 64) {p : TreePath} {item : Data}
    (h : HasBits item "completion" (stateRow d p).completion) : Holds (establishState d) item (stateRow d p) := by
  have hsize : (stateRow d p).completion.length = d.states.length := length_bitsOf _ _
  have hflag : ∀ (b : Bool) (q : TreePath), (b && decide (hasHistoryChild d q = some q)) = (stateRow d p).hasHistory := by
    intro b q
    rw [stateRow_hasHistory, decide_eq_false (hasHistoryChild_ne d q), Bool.and_false]
  have hholds := establish_of_hasBits h (by rw [hsize]; exact hfits)
  rw [hsize] at hholds
  intro rows q
  simp only [establishState, hholds, hflag]

theorem establishState_sound (hfits : d.states.length < 2 ^ 64) (rows : List StateRow) (p : TreePath) {item : Data}
    (h : SoundState d p item) : Gives (establishState d) rows p item (stateRow d p) := by
  have hsize : (stateRow d p).completion.length = d.states.length := length_bitsOf _ _
  have hflag : ∀ b : Bool, (b && decide (hasHistoryChild d p = some p)) = (stateRow d p).hasHistory := by
    intro b
    rw [stateRow_hasHistory, decide_eq_false (hasHistoryChild_ne d p), Bool.and_false]
  rw [SoundState, ← hsize] at h
  obtain ⟨item', heq, hbits, -⟩ := establish_sound (by rw [hsize]; exact hfits) h
  rw [hsize] at heq
  have hcomputed : bitsOf d.states (stateInfo d p).completion = (stateRow d p).completion := rfl
  exact ⟨item', by simp only [establishState, hcomputed, heq, hflag], holds_state hfits hbits⟩

theorem holds_transition (hstates : d.states.length < 2 ^ 64) (htransitions : (postFixTransitions d).length < 2 ^ 64)
    {t : TransId} {item : Data} (hexit : HasBits item "exitset" (transitionRow d t).exitSet)
    (hconf : HasBits item "conflicts" (transitionRow d t).conflicts) (htarget : HasBits item "target" (transitionRow d t).target) :
    Holds (establishTransition d) item (transitionRow d t) := by
  have hsize₁ : (transitionRow d t).exitSet.length = d.states.length := length_bitsOf _ _
  have hsize₂ : (transitionRow d t).conflicts.length = (postFixTransitions d).length := length_bitsOf _ _
  have hsize₃ : (transitionRow d t).target.length = d.states.length := length_bitsOf _ _
  have hholds₁ := establish_of_hasBits hexit (by rw [hsize₁]; exact hstates)
  have hholds₂ := establish_of_hasBits hconf (by rw [hsize₂]; exact htransitions)
  have hholds₃ := establish_of_hasBits htarget (by rw [hsize₃]; exact hstates)
  rw [hsize₁] at hholds₁
  rw [hsize₂] at hholds₂
  rw [hsize₃] at hholds₃
  intro rows u
  simp only [establishTransition, hholds₁, hholds₂, hholds₃]

theorem establishTransition_sound (hstates : d.states.length < 2 ^ 64) (htransitions : (postFixTransitions d).length < 2 ^ 64)
    {i : Nat} {t : TransId} (ht : (postFixTransitions d)[i]? = some t) {item : Data} (h : SoundTransition d t item) :
    Gives (establishTransition d) (((postFixTransitions d).take i).map (transitionRow d)) t item (transitionRow d t) := by
  have hexit : (transitionRow d t).exitSet.length = d.states.length := length_bitsOf _ _
  have hconf : (transitionRow d t).conflicts.length = (postFixTransitions d).length := length_bitsOf _ _
  have htarget : (transitionRow d t).target.length = d.states.length := length_bitsOf _ _
  obtain ⟨item₁, heq₁, hbits₁, hother₁⟩ := establish_sound (by rw [hexit]; exact hstates) (hexit ▸ h.exitSet)
  obtain ⟨item₂, heq₂, hbits₂, hother₂⟩ := establish_sound (by rw [hconf]; exact htransitions)
    (hconf ▸ h.conflicts.of_at? (hother₁ "conflicts" (by decide)))
  obtain ⟨item₃, heq₃, hbits₃, hother₃⟩ := establish_sound (by rw [htarget]; exact hstates)
    (htarget ▸ (h.target.of_at? (hother₁ "target" (by decide))).of_at? (hother₂ "target" (by decide)))
  rw [hexit] at heq₁
  rw [hconf] at heq₂
  rw [htarget] at heq₃
  have hkept : ∀ {member bits item item'}, HasBits item member bits → item'.at? member = item.at? member →
      HasBits item' member bits := fun ⟨text, hat, hatom⟩ hsame => ⟨text, hsame.trans hat, hatom⟩
  have hrow₁ : bitsOf d.states (transitionInfo d t).exitSet = (transitionRow d t).exitSet := rfl
  have hrow₃ : bitsOf d.states (transitionInfo d t).target = (transitionRow d t).target := rfl
  refine ⟨item₃, by simp only [establishTransition, hrow₁, heq₁, conflictBits_eq ht, heq₂, hrow₃, heq₃], ?_⟩
  exact holds_transition hstates htransitions
    (hkept (hkept hbits₁ (hother₂ "exitset" (by decide))) (hother₃ "exitset" (by decide)))
    (hkept hbits₂ (hother₃ "conflicts" (by decide))) hbits₃

variable (d) in
/-- A cache whose bit sets are those that were computed for the document, as far as they have the size that they should
have. -/
structure SoundCache (cache : Data) : Prop where
  sortedStates : ((cachedArray "states" cache).map (·.1)).Pairwise (· < ·)
  states : ∀ (i : Nat) (p : TreePath) (entry : Nat × Data), d.states[i]? = some p →
    (cachedArray "states" cache)[i]? = some entry → SoundState d p entry.2
  sortedTransitions : ((cachedArray "transitions" cache).map (·.1)).Pairwise (· < ·)
  transitions : ∀ (i : Nat) (t : TransId) (entry : Nat × Data), (postFixTransitions d)[i]? = some t →
    (cachedArray "transitions" cache)[i]? = some entry → SoundTransition d t entry.2

theorem item?_of_getElem? {array : List (Nat × Data)} (hsorted : (array.map (·.1)).Pairwise (· < ·)) {i : Nat}
    {entry : Nat × Data} (h : array[i]? = some entry) : Data.item? entry.1 array = some entry.2 := by
  rw [List.pairwise_map] at hsorted
  obtain ⟨hlt, hget⟩ := List.getElem?_eq_some_iff.mp h
  have hfind : array.find? (fun e => e.1 = entry.1) = some entry := by
    rw [List.find?_eq_some_iff_getElem]
    refine ⟨decide_eq_true rfl, i, hlt, hget, ?_⟩
    intro k hk
    have hlt' := List.pairwise_iff_getElem.mp hsorted k i (by omega) hlt hk
    rw [hget] at hlt'
    simpa using ne_of_lt hlt'
  rw [Data.item?, hfind, Option.map_some]

theorem soundTransition_empty (t : TransId) : SoundTransition d t Data.empty :=
  ⟨soundMember_empty _ _ _, soundMember_empty _ _ _, soundMember_empty _ _ _⟩

/-- With a sound cache the rows are those without a cache exactly when the items that are used twice are used for states,
and for transitions, with the same row. -/
theorem initRows_iff (hstates : d.states.length < 2 ^ 64) (htransitions : (postFixTransitions d).length < 2 ^ 64) {cache : Data}
    (h : SoundCache d cache) : (initRows d (some cache)).1 = (initRows d none).1 ↔
      ReusedAlike (stateRow d) (cachedArray "states" cache) d.states ∧
        ReusedAlike (transitionRow d) (cachedArray "transitions" cache) (postFixTransitions d) := by
  have hgives : ∀ {array : List (Nat × Data)}, (array.map (·.1)).Pairwise (· < ·) → ∀ {i key : Nat},
      (array.map (·.1))[i]? = some key → ∃ entry, array[i]? = some entry ∧ Data.item? key array = some entry.2 := by
    intro array hsorted i key hkey
    rw [List.getElem?_map, Option.map_eq_some_iff] at hkey
    obtain ⟨entry, hentry, rfl⟩ := hkey
    exact ⟨entry, hentry, item?_of_getElem? hsorted hentry⟩
  have hsoundStates : SoundArray (establishState d) (stateRow d) d.states (cachedArray "states" cache) := by
    refine ⟨h.sortedStates, ?_⟩
    intro i p key hp hkey
    obtain ⟨entry, hentry, hitem⟩ := hgives h.sortedStates hkey
    rw [hitem, Option.getD_some]
    exact establishState_sound hstates _ p (h.states i p entry hp hentry)
  have hsoundTransitions : SoundArray (establishTransition d) (transitionRow d) (postFixTransitions d)
      (cachedArray "transitions" cache) := by
    refine ⟨h.sortedTransitions, ?_⟩
    intro i t key ht hkey
    obtain ⟨entry, hentry, hitem⟩ := hgives h.sortedTransitions hkey
    rw [hitem, Option.getD_some]
    exact establishTransition_sound hstates htransitions ht (h.transitions i t entry ht hentry)
  have hrows := cachedLoop_rows_iff hsoundStates fun i p _ => establishState_sound hstates _ p (soundMember_empty _ _ _)
  have hrows' := cachedLoop_rows_iff hsoundTransitions fun i t ht =>
    establishTransition_sound hstates htransitions ht (soundTransition_empty t)
  rw [initRows_none, ← hrows, ← hrows']
  exact Rows.mk.injEq .. ▸ Iff.rfl

end Rows

end FastMicroStep

end Uscxml
