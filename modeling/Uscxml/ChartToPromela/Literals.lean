import Uscxml.EventTrie
import Uscxml.Lib.FirstSeen
import Uscxml.Lib.Forest
import Uscxml.ChartToPromela.Ranges

/-!
# Numbers of literals

`PromelaCodeAnalyzer` numbers events and all other literals with one counter, machine by machine. The field for the name of
an event is declared for the number of events in the trie, which is another counter.
-/

namespace Uscxml

namespace ChartToPromela

abbrev Literal := List Char

/-- The members of `PromelaCodeAnalyzer` that literals change. -/
structure Analyzer where
  literals : List Literal := []
  strIndex : Literal → Option Nat := fun _ => none
  lastStrIndex : Nat := 1
  eventTrie : EventTrie := TrieNode.empty
  lastIndex : Nat := 0

/-- `enumerateLiteral` without a forced index. -/
def enumerateLiteral (literal : Literal) (a : Analyzer) : Analyzer :=
  if (a.strIndex literal).isSome then a
  else
    { a with
      strIndex := Function.update a.strIndex literal (some a.lastStrIndex)
      lastStrIndex := a.lastStrIndex + 1 }

/-- `addLiteral`, which throws for a literal with a quote in front. -/
def addLiteral (literal : Literal) (a : Analyzer) : Option Analyzer :=
  if ['\''] <+: literal then none
  else if literal ∈ a.literals then some a
  else some (enumerateLiteral literal { a with literals := a.literals ++ [literal] })

/-- `Trie::addWord` with its counter. -/
def addWord (word : Literal) (a : Analyzer) : Analyzer :=
  { a with
    eventTrie := a.eventTrie.addWord word
    lastIndex := if (a.eventTrie.get (wordTokens word)).isSome then a.lastIndex else a.lastIndex + 1 }

def addEvent (eventName : Literal) (a : Analyzer) : Option Analyzer := (addLiteral eventName a).map (addWord eventName)

/-- `indexForLiteral`, which throws for a literal it does not know. -/
def Analyzer.indexForLiteral (a : Analyzer) (literal : Literal) : Option Nat :=
  if ['\''] <+: literal then none else a.strIndex literal

/-! ### Documents -/

/-- What the analyzer is called for: an event, a literal, or the events in the trie as literals. -/
inductive AnalyzerCall where
  | event (eventName : Literal)
  | literal (literal : Literal)
  | trieLiterals

def AnalyzerCall.run (a : Analyzer) : AnalyzerCall → Option Analyzer
  | .event eventName => addEvent eventName a
  | .literal l => addLiteral l a
  | .trieLiterals => a.eventTrie.words.foldlM (fun a literal => addLiteral literal a) a

/-- A machine: its events and the other literals in the order in which `analyze` comes to them, the literals `prepare` finds
in its data and assignments, and the id it is invoked by. -/
structure MachineInfo where
  events : List Literal := []
  literals : List Literal := []
  values : List Literal := []
  invokerid : Literal := []

/-- `PromelaCodeAnalyzer::analyze`. -/
def analyzeCalls (m : MachineInfo) : List AnalyzerCall :=
  m.events.map .event ++ .trieLiterals :: m.literals.map .literal

/-- The loop of `ChartToPromela::prepare` over the nested machines, each with those nested in it. -/
def nestedCalls : Forest MachineInfo → List AnalyzerCall
  | .nil => []
  | .cons m kids next =>
    analyzeCalls m ++ (nestedCalls kids ++ m.values.map .literal ++
      .event ("done.invoke.".toList ++ m.invokerid) :: nestedCalls next)

/-- `ChartToPromela::writeTo` up to `prepare`. -/
def documentCalls (root : MachineInfo) (nested : Forest MachineInfo) : List AnalyzerCall :=
  analyzeCalls root ++ (nestedCalls nested ++ root.values.map .literal)

def runCalls (calls : List AnalyzerCall) : Option Analyzer := calls.foldlM AnalyzerCall.run {}

def eventsOf (calls : List AnalyzerCall) : List Literal :=
  calls.filterMap fun call => match call with
    | .event eventName => some eventName
    | _ => none

def literalsOf (calls : List AnalyzerCall) : List Literal :=
  calls.filterMap fun call => match call with
    | .event l | .literal l => some l
    | .trieLiterals => none

/-- The events have different numbers that are not 0, and both the `name` of an event and a plain event variable can hold
them. -/
def EventsFit (a : Analyzer) : Prop :=
  ∀ e ∈ a.eventTrie.words, ∃ index : Nat, a.indexForLiteral e = some index ∧ index ≠ 0 ∧
    (∀ literal ∈ a.literals, literal ≠ e → a.indexForLiteral literal ≠ some index) ∧
    (declForRange "name" 0 a.lastIndex true).type.Holds index ∧
    (PromelaType.unsigned (bitWidth (a.literals.length + 1))).Holds index

def largestNumber (events : Nat) : Nat :=
  if events ≤ 1 then 1 else if events ≤ 255 then 255 else if events ≤ 32767 then 32767 else 2 ^ 31 - 1

/-! ### The counters -/

/-- What the members are after some calls. -/
structure Counted (events literals : List Literal) (a : Analyzer) : Prop where
  literals_eq : a.literals = firstSeen literals
  strIndex_eq : ∀ literal, a.strIndex literal = (a.literals.findIdx? fun l => l = literal).map (· + 1)
  lastStrIndex_eq : a.lastStrIndex = a.literals.length + 1
  eventTrie_eq : a.eventTrie = eventTrie events
  lastIndex_eq : a.lastIndex = (events.map nameTokens).toFinset.card
  events_mem : ∀ e ∈ events, e ∈ literals
  unquoted : ∀ literal ∈ literals, ¬ ['\''] <+: literal

theorem counted_nil : Counted [] [] {} :=
  ⟨rfl, fun _ => rfl, rfl, rfl, rfl, List.forall_mem_nil _, List.forall_mem_nil _⟩

theorem addLiteral_counted {events literals : List Literal} {a a' : Analyzer} (h : Counted events literals a)
    {literal : Literal} (ha : addLiteral literal a = some a') : Counted events (literals ++ [literal]) a' := by
  rw [addLiteral] at ha
  split at ha
  · cases ha
  · rename_i hquote
    have hunquoted : ∀ l ∈ literals ++ [literal], ¬ ['\''] <+: l := by
      intro l hl
      rcases List.mem_append.mp hl with hl | hl
      · exact h.unquoted l hl
      · rw [List.mem_singleton.mp hl]
        exact hquote
    have hevents : ∀ e ∈ events, e ∈ literals ++ [literal] := fun e he => List.mem_append_left _ (h.events_mem e he)
    split at ha
    · rename_i hmem
      cases ha
      refine ⟨?_, h.strIndex_eq, h.lastStrIndex_eq, h.eventTrie_eq, h.lastIndex_eq, hevents, hunquoted⟩
      rw [firstSeen_concat, ← h.literals_eq, if_pos hmem]
    · rename_i hmem
      have hnone : a.literals.findIdx? (fun l => l = literal) = none := by
        rw [List.findIdx?_eq_none_iff]
        exact fun l hl => decide_eq_false fun heq => hmem (heq ▸ hl)
      have hnew : ¬ (a.strIndex literal).isSome = true := by
        rw [h.strIndex_eq, hnone]
        exact Bool.false_ne_true
      rw [enumerateLiteral, if_neg hnew] at ha
      cases ha
      refine ⟨?_, ?_, ?_, h.eventTrie_eq, h.lastIndex_eq, hevents, hunquoted⟩
      · show a.literals ++ [literal] = _
        rw [firstSeen_concat, ← h.literals_eq, if_neg hmem]
      · intro l
        show Function.update a.strIndex literal (some a.lastStrIndex) l =
          ((a.literals ++ [literal]).findIdx? fun l' => l' = l).map (· + 1)
        rw [List.findIdx?_append]
        by_cases hl : l = literal
        · subst hl
          rw [Function.update_self, hnone, h.lastStrIndex_eq, List.findIdx?_cons, if_pos (decide_eq_true rfl)]
          simp
        · rw [Function.update_of_ne hl, h.strIndex_eq, List.findIdx?_cons, if_neg (by simpa using Ne.symm hl),
            List.findIdx?_nil, Option.map_none, Option.map_none, Option.or_none]
      · show a.lastStrIndex + 1 = (a.literals ++ [literal]).length + 1
        rw [h.lastStrIndex_eq, List.length_append, List.length_singleton]

theorem addWord_counted {events literals : List Literal} {a : Analyzer} (h : Counted events literals a) {word : Literal}
    (hword : word ∈ literals) : Counted (events ++ [word]) literals (addWord word a) := by
  have hget : (a.eventTrie.get (wordTokens word)).isSome = true ↔ nameTokens word ∈ events.map nameTokens := by
    rw [h.eventTrie_eq, eventTrie]
    have hfind := TrieNode.get_foldl_insert wordTokens events TrieNode.empty (wordTokens word)
    rw [TrieNode.get_empty, Option.none_or] at hfind
    have hfold : events.foldl EventTrie.addWord TrieNode.empty =
        events.foldl (fun node w => node.insert (wordTokens w) w) TrieNode.empty := rfl
    rw [hfold, hfind, List.find?_isSome, List.mem_map]
    simp only [decide_eq_true_eq, wordTokens_eq]
  refine ⟨h.literals_eq, h.strIndex_eq, h.lastStrIndex_eq, ?_, ?_, ?_, h.unquoted⟩
  · show a.eventTrie.addWord word = _
    rw [h.eventTrie_eq, eventTrie, eventTrie, List.foldl_append]
    rfl
  · show (if (a.eventTrie.get (wordTokens word)).isSome then a.lastIndex else a.lastIndex + 1) = _
    have hset : ((events ++ [word]).map nameTokens).toFinset =
        insert (nameTokens word) (events.map nameTokens).toFinset := by
      ext ts
      simp [eq_comm]
    rw [hset, h.lastIndex_eq]
    by_cases hmem : nameTokens word ∈ events.map nameTokens
    · rw [if_pos (hget.mpr hmem), Finset.insert_eq_of_mem (List.mem_toFinset.mpr hmem)]
    · rw [if_neg fun hsome => hmem (hget.mp hsome), Finset.card_insert_of_notMem fun hin => hmem (List.mem_toFinset.mp hin)]
  · intro e he
    rcases List.mem_append.mp he with he | he
    · exact h.events_mem e he
    · rw [List.mem_singleton.mp he]
      exact hword

theorem words_subset {events literals : List Literal} {a : Analyzer} (h : Counted events literals a) :
    ∀ e ∈ a.eventTrie.words, e ∈ events := by
  intro e he
  rw [h.eventTrie_eq, TrieNode.mem_words (distinct_eventTrie events)] at he
  obtain ⟨ts, hts⟩ := he
  have hfind := TrieNode.get_foldl_insert wordTokens events TrieNode.empty ts
  rw [TrieNode.get_empty, Option.none_or] at hfind
  exact List.mem_of_find?_eq_some (hfind.symm.trans hts)

theorem trieLiterals_eq {events literals : List Literal} {a : Analyzer} (h : Counted events literals a) :
    AnalyzerCall.run a .trieLiterals = some a := by
  have hround : ∀ words : List Literal, (∀ e ∈ words, e ∈ literals) →
      words.foldlM (fun a literal => addLiteral literal a) a = some a := by
    intro words hwords
    induction words with
    | nil => rfl
    | cons e words ih =>
      have he : e ∈ literals := hwords e List.mem_cons_self
      have hmem : e ∈ a.literals := by rw [h.literals_eq]; exact mem_firstSeen.mpr he
      have hstep : addLiteral e a = some a := by rw [addLiteral, if_neg (h.unquoted e he), if_pos hmem]
      rw [List.foldlM_cons, hstep]
      exact ih fun e' he' => hwords e' (List.mem_cons_of_mem e he')
  exact hround _ fun e he => h.events_mem e (words_subset h e he)

theorem run_counted {events literals : List Literal} {a a' : Analyzer} (h : Counted events literals a)
    {call : AnalyzerCall} (ha : call.run a = some a') :
    Counted (events ++ eventsOf [call]) (literals ++ literalsOf [call]) a' := by
  cases call with
  | event eventName =>
    obtain ⟨a₁, ha₁, rfl⟩ := Option.map_eq_some_iff.mp ha
    exact addWord_counted (addLiteral_counted h ha₁) (List.mem_append_right _ List.mem_cons_self)
  | literal l =>
    have hnone : eventsOf [.literal l] = [] := rfl
    rw [hnone, List.append_nil]
    exact addLiteral_counted h ha
  | trieLiterals =>
    have hnone : eventsOf [.trieLiterals] = [] ∧ literalsOf [.trieLiterals] = [] := ⟨rfl, rfl⟩
    rw [trieLiterals_eq h] at ha
    cases ha
    rw [hnone.1, hnone.2, List.append_nil, List.append_nil]
    exact h

theorem runCalls_counted {calls : List AnalyzerCall} {a : Analyzer} (h : runCalls calls = some a) :
    Counted (eventsOf calls) (literalsOf calls) a := by
  have hruns : ∀ (calls : List AnalyzerCall) (events literals : List Literal) (a a' : Analyzer),
      Counted events literals a → calls.foldlM AnalyzerCall.run a = some a' →
      Counted (events ++ eventsOf calls) (literals ++ literalsOf calls) a' := by
    intro calls
    induction calls with
    | nil =>
      intro events literals a a' hcounted hrun
      cases hrun
      have hnone : eventsOf [] = [] ∧ literalsOf [] = [] := ⟨rfl, rfl⟩
      rw [hnone.1, hnone.2, List.append_nil, List.append_nil]
      exact hcounted
    | cons call calls ih =>
      intro events literals a a' hcounted hrun
      rw [List.foldlM_cons] at hrun
      obtain ⟨a₁, hcall, hrest⟩ := Option.bind_eq_some_iff.mp hrun
      have := ih _ _ a₁ a' (run_counted hcounted hcall) hrest
      have hevents : eventsOf (call :: calls) = eventsOf [call] ++ eventsOf calls := by
        rw [eventsOf, eventsOf, eventsOf, ← List.filterMap_append]
        rfl
      have hliterals : literalsOf (call :: calls) = literalsOf [call] ++ literalsOf calls := by
        rw [literalsOf, literalsOf, literalsOf, ← List.filterMap_append]
        rfl
      rw [hevents, hliterals, ← List.append_assoc, ← List.append_assoc]
      exact this
  exact hruns calls [] [] {} a counted_nil h

/-- The number of a literal counts the different literals before it. -/
theorem indexForLiteral_eq {events literals : List Literal} {a : Analyzer} (h : Counted events literals a)
    {literal : Literal} (hmem : literal ∈ literals) :
    a.indexForLiteral literal = some ((literals.takeWhile (· ≠ literal)).toFinset.card + 1) := by
  rw [Analyzer.indexForLiteral, if_neg (h.unquoted literal hmem), h.strIndex_eq, h.literals_eq, findIdx?_firstSeen hmem]
  rfl

theorem indexForLiteral_inj {events literals : List Literal} {a : Analyzer} (h : Counted events literals a)
    {l l' : Literal} {index : Nat} (hl : a.indexForLiteral l = some index) (hl' : a.indexForLiteral l' = some index) :
    l = l' := by
  have hfound : ∀ literal : Literal, a.indexForLiteral literal = some index →
      a.literals.findIdx? (fun l => l = literal) = some (index - 1) := by
    intro literal hindex
    rw [Analyzer.indexForLiteral] at hindex
    split at hindex
    · cases hindex
    · rw [h.strIndex_eq] at hindex
      obtain ⟨place, hplace, rfl⟩ := Option.map_eq_some_iff.mp hindex
      exact hplace
  obtain ⟨_, heq, -⟩ := List.findIdx?_eq_some_iff_getElem.mp (hfound l hl)
  obtain ⟨_, heq', -⟩ := List.findIdx?_eq_some_iff_getElem.mp (hfound l' hl')
  exact (of_decide_eq_true heq).symm.trans (of_decide_eq_true heq')

theorem card_before_lt {events literals : List Literal} {a : Analyzer} (h : Counted events literals a)
    {literal : Literal} (hmem : literal ∈ literals) :
    (literals.takeWhile (· ≠ literal)).toFinset.card < a.literals.length := by
  rw [h.literals_eq]
  exact (List.findIdx?_eq_some_iff_getElem.mp (findIdx?_firstSeen hmem)).1

theorem name_holds_iff {events index : Nat} (hevents : events ≠ 0) (hindex : index ≠ 0) :
    (declForRange "name" 0 events true).type.Holds index ↔ index ≤ largestNumber events := by
  rw [declForRange, if_neg (by omega), if_neg (by omega), if_pos rfl, largestNumber]
  split
  · rw [if_neg (by omega), if_neg (by omega), if_neg (by omega)]
    show (-2 ^ 31 ≤ (index : Int) ∧ (index : Int) < 2 ^ 31) ↔ _
    omega
  · split
    · rw [if_neg (by omega), if_neg (by omega), if_pos (by omega)]
      show (-32768 ≤ (index : Int) ∧ (index : Int) ≤ 32767) ↔ _
      omega
    · split
      · rw [if_neg (by omega), if_pos (by omega)]
        show (0 ≤ (index : Int) ∧ (index : Int) ≤ 255) ↔ _
        omega
      · rw [if_pos (by omega)]
        show (0 ≤ (index : Int) ∧ (index : Int) ≤ 1) ↔ _
        omega

theorem event_holds {literals index : Nat} (h : index ≤ literals) (hindex : index ≠ 0) :
    (PromelaType.unsigned (bitWidth (literals + 1))).Holds index := by
  have hwidth : literals + 1 ≤ 2 ^ bitWidth (literals + 1) := by
    rw [bitWidth, if_pos (by omega)]
    exact Nat.le_pow_clog (by decide) _
  refine ⟨Int.natCast_nonneg index, ?_⟩
  exact_mod_cast (show index < 2 ^ bitWidth (literals + 1) by omega)

theorem mem_eventsOf_of_word {events literals : List Literal} {a : Analyzer} (h : Counted events literals a)
    {e : Literal} (he : e ∈ a.eventTrie.words) : e ∈ literals ∧ a.lastIndex ≠ 0 := by
  have hmem : e ∈ events := words_subset h e he
  refine ⟨h.events_mem e hmem, ?_⟩
  rw [h.lastIndex_eq]
  exact Finset.card_ne_zero_of_mem (List.mem_toFinset.mpr (List.mem_map_of_mem hmem))

theorem eventsFit_iff {events literals : List Literal} {a : Analyzer} (h : Counted events literals a) :
    EventsFit a ↔ ∀ e ∈ (eventTrie events).words,
      (literals.takeWhile (· ≠ e)).toFinset.card < largestNumber (events.map nameTokens).toFinset.card := by
  rw [EventsFit, ← h.eventTrie_eq, ← h.lastIndex_eq]
  refine forall₂_congr fun e he => ?_
  obtain ⟨hmem, hlast⟩ := mem_eventsOf_of_word h he
  have hindex := indexForLiteral_eq h hmem
  constructor
  · rintro ⟨index, heq, hzero, -, hname, -⟩
    rw [hindex] at heq
    cases heq
    exact (name_holds_iff hlast hzero).mp hname
  · intro hlt
    refine ⟨_, hindex, Nat.succ_ne_zero _, ?_, (name_holds_iff hlast (Nat.succ_ne_zero _)).mpr hlt,
      event_holds (card_before_lt h hmem) (Nat.succ_ne_zero _)⟩
    rintro l - hne hl
    exact hne (indexForLiteral_inj h hl hindex)

/-- The numbers of the events fit if no event of the trie has too many literals before it, for the number of events. -/
theorem events_fit_iff (root : MachineInfo) (nested : Forest MachineInfo) {a : Analyzer}
    (h : runCalls (documentCalls root nested) = some a) :
    EventsFit a ↔ ∀ e ∈ (eventTrie (eventsOf (documentCalls root nested))).words,
      ((literalsOf (documentCalls root nested)).takeWhile (· ≠ e)).toFinset.card <
        largestNumber ((eventsOf (documentCalls root nested)).map nameTokens).toFinset.card :=
  eventsFit_iff (runCalls_counted h)

def singleEvent : MachineInfo where
  events := ["e".toList]
  literals := ["ROOT__sessionid".toList, "ROOT__name".toList]

theorem singleEvent_fits : ∃ a, runCalls (documentCalls singleEvent .nil) = some a ∧ EventsFit a := by
  have hruns : (runCalls (documentCalls singleEvent .nil)).isSome = true := by decide +kernel
  obtain ⟨a, ha⟩ := Option.isSome_iff_exists.mp hruns
  exact ⟨a, ha, (events_fit_iff singleEvent .nil ha).mpr (by decide +kernel)⟩

def invokingRoot : MachineInfo where
  literals := ["ROOT__sessionid".toList, "ROOT__name".toList]

def invokedMachine : MachineInfo where
  literals := ["UABCD__sessionid".toList, "UABCD__name".toList]
  invokerid := "INV_1".toList

/-- The only event has the number 5, and `name` is a `bool`. -/
theorem only_event_is_fifth :
    ∃ a, runCalls (documentCalls invokingRoot (.cons invokedMachine .nil .nil)) = some a ∧ ¬ EventsFit a := by
  have hruns : (runCalls (documentCalls invokingRoot (.cons invokedMachine .nil .nil))).isSome = true := by
    decide +kernel
  obtain ⟨a, ha⟩ := Option.isSome_iff_exists.mp hruns
  refine ⟨a, ha, fun hfit => ?_⟩
  rw [eventsFit_iff (runCalls_counted ha)] at hfit
  revert hfit
  decide +kernel

end ChartToPromela

end Uscxml
