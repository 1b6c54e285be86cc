import Uscxml.FastMicroStep.Cache
import Uscxml.Messages.Restored

/-!
# Cache files

`InterpreterImpl` keeps the cache of a document in a file: `init` reads it, the destructor writes it again as JSON. What is
read back has other keys than what was written, for `fromJSON` counts the items of all arrays through, but the same items
in the same order.
-/

namespace Uscxml

namespace FastMicroStep

theorem encodeFrom_clean (n : Nat) (bytes : List Nat) : ∀ c ∈ Base64.encodeFrom n bytes, c ≠ '\x00' ∧ c ≠ '\x0b' := by
  have hvalue : ∀ sextet, Base64.encodeValue sextet ≠ '\x00' ∧ Base64.encodeValue sextet ≠ '\x0b' := by
    have hall : (('=' :: Base64.alphabet).all fun c => c ≠ '\x00' && c ≠ '\x0b') = true := by decide +kernel
    intro sextet
    have hmem : Base64.encodeValue sextet ∈ '=' :: Base64.alphabet := by
      rw [Base64.encodeValue, List.getD_eq_getElem?_getD]
      cases hget : Base64.alphabet[sextet]? with
      | none => exact List.mem_cons_self
      | some c => exact List.mem_cons_of_mem _ (List.mem_of_getElem? hget)
    simpa using List.all_eq_true.mp hall _ hmem
  have hpadding : '=' ≠ '\x00' ∧ '=' ≠ '\x0b' := ⟨by decide, by decide⟩
  induction n, bytes using Base64.encodeFrom.induct with
  | case1 n a b c bytes ih₀ ih =>
    rw [Base64.encodeFrom]
    refine List.forall_mem_cons.mpr ⟨hvalue _, List.forall_mem_cons.mpr ⟨hvalue _, List.forall_mem_cons.mpr ⟨hvalue _,
      List.forall_mem_cons.mpr ⟨hvalue _, ?_⟩⟩⟩⟩
    split
    · exact List.forall_mem_cons.mpr ⟨by decide, ih₀⟩
    · exact ih
  | case2 n a b =>
    rw [Base64.encodeFrom]
    refine List.forall_mem_cons.mpr ⟨hvalue _, List.forall_mem_cons.mpr ⟨hvalue _, List.forall_mem_cons.mpr ⟨hvalue _, ?_⟩⟩⟩
    exact List.forall_mem_singleton.mpr hpadding
  | case3 n a =>
    rw [Base64.encodeFrom]
    refine List.forall_mem_cons.mpr ⟨hvalue _, List.forall_mem_cons.mpr ⟨hvalue _, List.forall_mem_cons.mpr ⟨hpadding, ?_⟩⟩⟩
    exact List.forall_mem_singleton.mpr hpadding
  | case4 n =>
    rw [Base64.encodeFrom]
    exact List.forall_mem_nil _

theorem toBase64_clean (bits : List Bool) : Data.Clean (toBase64 bits) := by
  intro c hc
  rw [toBase64, String.toList_ofList] at hc
  exact encodeFrom_clean _ _ c hc

variable {β : Type} (d : Document β)

/-! ### What `init` leaves in a cache -/

def stateItem (p : TreePath) : Data := .mk "" false [("completion", .ofText (toBase64 (stateRow d p).completion))] []

def transitionItem (t : TransId) : Data :=
  .mk "" false [("conflicts", .ofText (toBase64 (transitionRow d t).conflicts)),
    ("exitset", .ofText (toBase64 (transitionRow d t).exitSet)), ("target", .ofText (toBase64 (transitionRow d t).target))] []

variable {d}

theorem establishState_empty (rows : List StateRow) (p : TreePath) :
    establishState d rows p (some Data.empty) = (stateRow d p, some (stateItem d p)) := rfl

theorem establishTransition_empty {i : Nat} {t : TransId} (ht : (postFixTransitions d)[i]? = some t) :
    establishTransition d (((postFixTransitions d).take i).map (transitionRow d)) t (some Data.empty) =
      (transitionRow d t, some (transitionItem d t)) := by
  have hrow : establishTransition d (((postFixTransitions d).take i).map (transitionRow d)) t (some Data.empty) =
      let conflicts := conflictBits d (((postFixTransitions d).take i).map (transitionRow d)) t
      ({ transitionRow d t with conflicts }, some (.mk "" false [("conflicts", .ofText (toBase64 conflicts)),
        ("exitset", .ofText (toBase64 (transitionRow d t).exitSet)), ("target", .ofText (toBase64 (transitionRow d t).target))] [])) :=
    rfl
  rw [hrow, conflictBits_eq ht]
  rfl

theorem establishState_full (hfits : d.states.length < 2 ^ 64) (rows : List StateRow) (p : TreePath) :
    establishState d rows p (some (stateItem d p)) = (stateRow d p, some (stateItem d p)) :=
  holds_state hfits ⟨_, rfl, rfl⟩ rows p

theorem establishTransition_full (hstates : d.states.length < 2 ^ 64) (htransitions : (postFixTransitions d).length < 2 ^ 64)
    (rows : List TransitionRow) (t : TransId) :
    establishTransition d rows t (some (transitionItem d t)) = (transitionRow d t, some (transitionItem d t)) :=
  holds_transition hstates htransitions ⟨_, rfl, rfl⟩ ⟨_, rfl, rfl⟩ ⟨_, rfl, rfl⟩ rows t

end FastMicroStep

/-! ### The file of a document -/

/-- What a cache file is named and checked by: the URL of the document, which is an escaped one, and a checksum in
hexadecimal digits. -/
structure CacheKey where
  baseURL : String
  md5 : String
  clean : Data.Clean baseURL ∧ Data.Clean md5

namespace InterpreterImpl

open FastMicroStep

variable {β : Type}

/-- The file is read when there is one; one that throws is removed. -/
def readCache : Option (List Char) → Except Data.Fault Data
  | none => .ok Data.empty
  | some cacheStr =>
    match Data.fromJSON cacheStr with
    | .error (.thrown _) => .ok Data.empty
    | result => result

/-- Is the cache of another document? -/
def foreign (key : CacheKey) (cache : Data) : Bool :=
  ((cache.at? "InterpreterImpl").bind (·.at? "md5")).any (·.atom ≠ key.md5)

def openCache (key : CacheKey) (file : Option (List Char)) : Except Data.Fault Data :=
  (readCache file).map fun cache =>
    let cache := if foreign key cache then Data.mk "" true [] [] else cache
    let cache := Data.modify (fun _ => .ofText key.baseURL) [.key "InterpreterImpl", .key "baseURL"] cache
    Data.modify (fun _ => .ofText key.md5) [.key "InterpreterImpl", .key "md5"] cache

/-- An interpreter from `init` to its destructor: the rows it works with, and the file that it leaves. -/
def runCached (key : CacheKey) (d : Document β) (file : Option (List Char)) : Except Data.Fault (Rows × List Char) :=
  (openCache key file).map fun cache =>
    let (rows, cache) := initRows d (some cache)
    (rows, (cache.getD Data.empty).toJSON)

/-- A file that interpreters of this document have written, the first of them without one. -/
inductive Written (key : CacheKey) (d : Document β) : List Char → Prop
  | first {rows : Rows} {text : List Char} (hrun : runCached key d none = .ok (rows, text)) : Written key d text
  | again {rows : Rows} {file text : List Char} (hfile : Written key d file)
      (hrun : runCached key d (some file) = .ok (rows, text)) : Written key d text

/-! ### Written and read -/

section Files

variable (key : CacheKey)

def cacheOf (states transitions : Data) : Data :=
  .mk "" false [("FastMicroStep", .mk "" false [("states", states), ("transitions", transitions)] []),
    ("InterpreterImpl", .mk "" false [("baseURL", .ofText key.baseURL), ("md5", .ofText key.md5)] [])] []

/-- What is read for an array: without items it is no array any more. -/
def arrayOf (array : List (Nat × Data)) : Data := if array = [] then .mk "null" false [] [] else .mk "" false [] array

theorem array_arrayOf (array : List (Nat × Data)) : (arrayOf array).array = array := by
  rw [arrayOf]
  split
  · rename_i h
    exact h.symm
  · rfl

theorem toText_arrayOf (n index index' : Nat) (values : List Data) :
    (arrayOf (Data.itemsFrom index values)).toText n = (Data.mk "" false [] (Data.itemsFrom index' values)).toText n := by
  cases values with
  | nil =>
    rw [arrayOf, Data.itemsFrom, if_pos rfl]
    simp [Data.toText, Data.itemsFrom]
  | cons value values =>
    rw [arrayOf, if_neg (by simp [Data.itemsFrom]), Data.toText, Data.toText, Data.itemsToText_itemsFrom n [] index index']
    rfl

/-- What is written depends on the texts of the arrays only. -/
theorem toJSON_cacheOf {states states' transitions transitions' : Data} (hstates : ∀ n, states.toText n = states'.toText n)
    (htransitions : ∀ n, transitions.toText n = transitions'.toText n) :
    (cacheOf key states transitions).toJSON = (cacheOf key states' transitions').toJSON := by
  simp [cacheOf, Data.toJSON, Data.toText, Data.membersToText, Data.longestKey, hstates, htransitions]

theorem setArray_cacheOf (states transitions : Data) (array array' : List (Nat × Data)) (hstates : states.array = array)
    (htransitions : transitions.array = array') :
    setArray "transitions" array' (setArray "states" array (cacheOf key states transitions)) = cacheOf key states transitions := by
  obtain ⟨_, _, _, _⟩ := states
  obtain ⟨_, _, _, _⟩ := transitions
  subst hstates
  subst htransitions
  rfl

theorem openCache_none : openCache key none =
    .ok (.mk "" false [("InterpreterImpl", .mk "" false [("baseURL", .ofText key.baseURL), ("md5", .ofText key.md5)] [])] []) :=
  rfl

theorem openCache_cacheOf {file : List Char} {states transitions : Data}
    (hread : Data.fromJSON file = .ok (cacheOf key states transitions)) :
    openCache key (some file) = .ok (cacheOf key states transitions) := by
  have hforeign : foreign key (cacheOf key states transitions) = false := by
    simp [foreign, cacheOf, Data.at?, Data.compound, Data.ofText, Data.atom]
  rw [openCache, readCache, hread]
  simp only [Except.map, hforeign]
  rfl

theorem restored_cacheOf {states transitions : Data} (hstates : Data.Restored states) (htransitions : Data.Restored transitions) :
    Data.Restored (cacheOf key states transitions) := by
  have hpair : ∀ {k k' : String} {v v' : Data}, Data.Clean k → Data.Clean k' → k < k' → Data.Restored v → Data.Restored v' →
      Data.Restored (.mk "" false [(k, v), (k', v')] []) := by
    intro k k' v v' hk hk' hlt hv hv'
    refine Data.restored_compound false (List.cons_ne_nil _ _) ?_ ?_ ?_
    · simpa using ⟨hk, hk'⟩
    · simpa using hlt
    · simpa using ⟨hv, hv'⟩
  have hparts := hpair (Data.clean_of_all "states" (by decide +kernel))
    (Data.clean_of_all "transitions" (by decide +kernel)) (by decide +kernel) hstates htransitions
  have hkey := hpair (Data.clean_of_all "baseURL" (by decide +kernel))
    (Data.clean_of_all "md5" (by decide +kernel)) (by decide +kernel) (Data.restored_text key.clean.1)
    (Data.restored_text key.clean.2)
  exact hpair (Data.clean_of_all "FastMicroStep" (by decide +kernel)) (Data.clean_of_all "InterpreterImpl" (by decide +kernel))
    (by decide +kernel) hparts hkey

theorem restored_items (index : Nat) {values : List Data} (h : ∀ v ∈ values, Data.Restored v) :
    Data.Restored (arrayOf (Data.itemsFrom index values)) := by
  rw [arrayOf]
  split
  · exact Data.restored_null
  · rename_i hne
    refine Data.restored_array false hne ?_
    intro i hi
    refine h i.2 ?_
    rw [← Data.map_snd_itemsFrom index values]
    exact List.mem_map_of_mem hi

theorem renumber_arrayOf {values : List Data} (h : ∀ v ∈ values, Data.Uncounted v) (index index' : Nat) :
    Data.renumber index (arrayOf (Data.itemsFrom index' values)) =
      (arrayOf (Data.itemsFrom index values), index + values.length) := by
  cases values with
  | nil => exact Data.renumber_atom index "null" false
  | cons value values =>
    have hne : ∀ n, Data.itemsFrom n (value :: values) ≠ [] := fun n => List.cons_ne_nil _ _
    rw [arrayOf, if_neg (hne index'), arrayOf, if_neg (hne index), Data.renumber_array index false (hne index'),
      Data.renumberItems_uncounted h]

theorem fromJSON_cacheOf {states transitions : List Data} (hstates : ∀ v ∈ states, Data.Restored v ∧ Data.Uncounted v)
    (htransitions : ∀ v ∈ transitions, Data.Restored v ∧ Data.Uncounted v) :
    Data.fromJSON (cacheOf key (.mk "" false [] (Data.itemsFrom 0 states)) (.mk "" false [] (Data.itemsFrom 0 transitions))).toJSON =
      .ok (cacheOf key (arrayOf (Data.itemsFrom 0 states)) (arrayOf (Data.itemsFrom states.length transitions))) := by
  have hrestored := restored_cacheOf key (restored_items 0 fun v hv => (hstates v hv).1)
    (restored_items 0 fun v hv => (htransitions v hv).1)
  have hread := hrestored.readable.fromJSON_eq (.inl (List.cons_ne_nil _ _))
    (Data.bracketed_compound false (List.cons_ne_nil _ _) 1) (hrestored.noNul 1)
  have hwritten : (cacheOf key (.mk "" false [] (Data.itemsFrom 0 states)) (.mk "" false [] (Data.itemsFrom 0 transitions))).toJSON =
      (cacheOf key (arrayOf (Data.itemsFrom 0 states)) (arrayOf (Data.itemsFrom 0 transitions))).toJSON :=
    toJSON_cacheOf key (fun n => (toText_arrayOf n 0 0 states).symm) fun n => (toText_arrayOf n 0 0 transitions).symm
  have hmember : ∀ index, Data.renumber index
      (.mk "" false [("states", arrayOf (Data.itemsFrom 0 states)), ("transitions", arrayOf (Data.itemsFrom 0 transitions))] []) =
      (.mk "" false [("states", arrayOf (Data.itemsFrom index states)),
        ("transitions", arrayOf (Data.itemsFrom (index + states.length) transitions))] [],
        index + states.length + transitions.length) := by
    intro index
    rw [Data.renumber_compound index false (List.cons_ne_nil _ _)]
    simp only [Data.renumberMembers, renumber_arrayOf fun v hv => (hstates v hv).2, renumber_arrayOf fun v hv => (htransitions v hv).2]
  rw [hwritten, hread, cacheOf, Data.renumber_compound 0 false (List.cons_ne_nil _ _)]
  simp only [Data.renumberMembers, hmember, Nat.zero_add]
  rfl

end Files

/-! ### Runs -/

section Runs

variable (key : CacheKey) (d : Document β)

/-- What the first interpreter of a document writes. -/
def firstFile : List Char :=
  (cacheOf key (.mk "" false [] (Data.itemsFrom 0 (d.states.map (stateItem d))))
    (.mk "" false [] (Data.itemsFrom 0 ((postFixTransitions d).map (transitionItem d))))).toJSON

theorem restored_stateItem : ∀ v ∈ d.states.map (stateItem d), Data.Restored v ∧ Data.Uncounted v := by
  intro v hv
  obtain ⟨p, -, rfl⟩ := List.mem_map.mp hv
  constructor
  · refine Data.restored_compound false (List.cons_ne_nil _ _) ?_ (List.pairwise_singleton _ _) ?_
    · exact List.forall_mem_singleton.mpr (Data.clean_of_all "completion" (by decide +kernel))
    · exact List.forall_mem_singleton.mpr (Data.restored_text (toBase64_clean _))
  · exact Data.uncounted_compound (List.cons_ne_nil _ _) (List.forall_mem_singleton.mpr (Data.uncounted_text _))

theorem restored_transitionItem : ∀ v ∈ (postFixTransitions d).map (transitionItem d), Data.Restored v ∧ Data.Uncounted v := by
  intro v hv
  obtain ⟨t, -, rfl⟩ := List.mem_map.mp hv
  constructor
  · refine Data.restored_compound false (List.cons_ne_nil _ _) ?_ ?_ ?_
    · simp only [List.forall_mem_cons]
      exact ⟨Data.clean_of_all "conflicts" (by decide +kernel), Data.clean_of_all "exitset" (by decide +kernel),
        Data.clean_of_all "target" (by decide +kernel), List.forall_mem_nil _⟩
    · have hlt : "conflicts" < "exitset" ∧ "conflicts" < "target" ∧ "exitset" < "target" := by decide +kernel
      exact .cons (List.forall_mem_cons.mpr ⟨hlt.1, List.forall_mem_singleton.mpr hlt.2.1⟩) (List.pairwise_pair.mpr hlt.2.2)
    · simp only [List.forall_mem_cons]
      exact ⟨Data.restored_text (toBase64_clean _), Data.restored_text (toBase64_clean _),
        Data.restored_text (toBase64_clean _), List.forall_mem_nil _⟩
  · refine Data.uncounted_compound (List.cons_ne_nil _ _) ?_
    simp only [List.forall_mem_cons]
    exact ⟨Data.uncounted_text _, Data.uncounted_text _, Data.uncounted_text _, List.forall_mem_nil _⟩

variable {d}

theorem runCached_eq {file : Option (List Char)} {cache : Data} {l : CacheLoop StateRow} {l' : CacheLoop TransitionRow}
    (hopen : openCache key file = .ok cache)
    (hstates : cachedLoop (establishState d) (cachedArray "states" cache) d.states = l)
    (htransitions : cachedLoop (establishTransition d) (cachedArray "transitions" cache) (postFixTransitions d) = l')
    (hrows : l.rows = d.states.map (stateRow d)) (hrows' : l'.rows = (postFixTransitions d).map (transitionRow d)) :
    runCached key d file =
      .ok ((initRows d none).1, (setArray "transitions" l'.array (setArray "states" l.array cache)).toJSON) := by
  subst hstates
  subst htransitions
  rw [runCached, hopen, initRows_none, ← hrows, ← hrows']
  rfl

theorem runCached_none : runCached key d none = .ok ((initRows d none).1, firstFile key d) := by
  have hstates : cachedLoop (establishState d) [] d.states =
      { array := Data.itemsFrom 0 (d.states.map (stateItem d)), curr := [], index := d.states.length,
        rows := d.states.map (stateRow d) } :=
    cachedLoop_empty fun _ p _ => establishState_empty _ p
  have htransitions : cachedLoop (establishTransition d) [] (postFixTransitions d) =
      { array := Data.itemsFrom 0 ((postFixTransitions d).map (transitionItem d)), curr := [],
        index := (postFixTransitions d).length, rows := (postFixTransitions d).map (transitionRow d) } :=
    cachedLoop_empty fun _ _ ht => establishTransition_empty ht
  rw [runCached_eq key (openCache_none key) hstates htransitions rfl rfl]
  rfl

variable (hstates : d.states.length < 2 ^ 64) (htransitions : (postFixTransitions d).length < 2 ^ 64)

include hstates htransitions

/-- A run with the file of the first one. It writes the same file again. -/
theorem runCached_firstFile : runCached key d (some (firstFile key d)) = .ok ((initRows d none).1, firstFile key d) := by
  have hread : Data.fromJSON (firstFile key d) = _ := fromJSON_cacheOf key (restored_stateItem d) (restored_transitionItem d)
  have hloop := cachedLoop_full 0 fun i p (_ : d.states[i]? = some p) => establishState_full hstates ((d.states.take i).map (stateRow d)) p
  have hloop' := cachedLoop_full (d.states.map (stateItem d)).length fun i t (_ : (postFixTransitions d)[i]? = some t) =>
    establishTransition_full hstates htransitions (((postFixTransitions d).take i).map (transitionRow d)) t
  have harray : ∀ array array', cachedArray "states" (cacheOf key (arrayOf array) (arrayOf array')) = array ∧
      cachedArray "transitions" (cacheOf key (arrayOf array) (arrayOf array')) = array' := by
    intro array array'
    exact ⟨array_arrayOf array, array_arrayOf array'⟩
  rw [runCached_eq key (openCache_cacheOf key hread) (by rw [(harray _ _).1, hloop]) (by rw [(harray _ _).2, hloop']) rfl rfl,
    setArray_cacheOf key _ _ _ _ (array_arrayOf _) (array_arrayOf _)]
  refine congrArg (fun text => Except.ok ((initRows d none).1, text)) ?_
  exact toJSON_cacheOf key (fun n => toText_arrayOf n _ 0 _) fun n => toText_arrayOf n _ 0 _

/-- All interpreters of a document leave the same file. -/
theorem Written.eq {file : List Char} (h : Written key d file) : file = firstFile key d := by
  induction h with
  | first hrun =>
    rw [runCached_none] at hrun
    exact (Prod.mk.inj (Except.ok.inj hrun)).2.symm
  | again hfile hrun ih =>
    rw [ih, runCached_firstFile key hstates htransitions] at hrun
    exact (Prod.mk.inj (Except.ok.inj hrun)).2.symm

end Runs

/-- The tables from a file that interpreters of the document have written are those without a cache. With any other cache
whose bit sets are right when they are of the right size, they are so exactly when no item is used for two states, or two
transitions, with different rows. -/
theorem cached_tables (d : Document β) (hstates : d.states.length < 2 ^ 64)
    (htransitions : (postFixTransitions d).length < 2 ^ 64) :
    (∀ (key : CacheKey) (file : List Char), Written key d file →
      ∃ text, runCached key d (some file) = .ok ((initRows d none).1, text)) ∧
    ∀ cache : Data, SoundCache d cache → ((initRows d (some cache)).1 = (initRows d none).1 ↔
      ReusedAlike (stateRow d) (cachedArray "states" cache) d.states ∧
        ReusedAlike (transitionRow d) (cachedArray "transitions" cache) (postFixTransitions d)) := by
  constructor
  · intro key file hfile
    rw [hfile.eq key hstates htransitions]
    exact ⟨_, runCached_firstFile key hstates htransitions⟩
  · intro cache hsound
    exact initRows_iff hstates htransitions hsound

def fromFirst : Document Unit where
  tree :=
    { root := { tag := .scxml }
      kids :=
        .cons { tag := .state
                id := some "a"
                transitions := [{ target := some ["b"] }] } .nil
          (.cons { tag := .state
                   id := some "b" } .nil .nil) }

/-- A cache of another size: one state, and a completion of one bit. -/
def truncated : Data :=
  .mk "" false [("FastMicroStep", .mk "" false
    [("states", .mk "" false [] [(0, .mk "" false [("completion", .ofText (toBase64 [true]))] [])])] [])] []

theorem sound_truncated : SoundCache fromFirst truncated := by
  have hstates : cachedArray "states" truncated = [(0, .mk "" false [("completion", .ofText (toBase64 [true]))] [])] := rfl
  have htransitions : cachedArray "transitions" truncated = [] := rfl
  refine ⟨by simp [hstates], ?_, by simp [htransitions], by simp [htransitions]⟩
  intro i p entry _ hentry
  rw [hstates, List.getElem?_singleton] at hentry
  split at hentry
  · obtain rfl := Option.some.inj hentry
    intro text htext
    obtain rfl := Option.some.inj htext
    exact ⟨[true], rfl, by decide, fun h => absurd h (by decide +kernel)⟩
  · cases hentry

def fromFirstKey : CacheKey where
  baseURL := "file:///tmp/first.scxml"
  md5 := "9e107d9d372bb6826bd81d3542a419d6"
  clean := ⟨Data.clean_of_all _ (by decide +kernel), Data.clean_of_all _ (by decide +kernel)⟩

theorem cached_tables_fromFirst :
    (∃ text, runCached fromFirstKey fromFirst (some (firstFile fromFirstKey fromFirst)) =
      .ok ((initRows fromFirst none).1, text)) ∧
    ¬ (ReusedAlike (stateRow fromFirst) (cachedArray "states" truncated) fromFirst.states ∧
      ReusedAlike (transitionRow fromFirst) (cachedArray "transitions" truncated) (postFixTransitions fromFirst)) := by
  obtain ⟨hwritten, hsound⟩ := cached_tables fromFirst (by decide +kernel) (by decide +kernel)
  constructor
  · exact hwritten fromFirstKey _ (.first (runCached_none fromFirstKey))
  · intro halike
    exact absurd ((hsound truncated sound_truncated).mpr halike) (by decide +kernel)

/-- The second state takes the completion of the first one over. -/
theorem truncated_differs : SoundCache fromFirst truncated ∧ (initRows fromFirst (some truncated)).1 ≠ (initRows fromFirst none).1 :=
  ⟨sound_truncated, by decide +kernel⟩

end InterpreterImpl

end Uscxml
