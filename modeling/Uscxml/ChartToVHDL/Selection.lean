import Uscxml.ChartToVHDL.EventCodes
import Uscxml.ChartToC.Tables
import Uscxml.FastMicroStep.Preemption

/-!
# The selection of transitions in VHDL

`writeOptimalTransitionSetSelection` writes one assignment for each transition, which reads the signals of the transitions
before it and one signal that says whether an eventless transition is selected, itself assigned from the former. So the
assignments go in a circle, and their solutions are what the circuit can settle in.
-/

namespace Uscxml

variable {β ω : Type}

namespace ChartToVHDL

open ChartToC (machine resortStates)
open FastMicroStep (Before postFixTransitions selectTransitions Candidate)

/-- The signals that the selection reads and assigns. -/
inductive SelectionSignal where
  | spontaneousEn
  | spontaneousActive
  | stateActive (state : TreePath)
  | transitionConditionFulfilled (transition : TransId)
  | event (name : List Char)
  | inOptimalTransitionSet (transition : TransId)
  | optimalTransitionSetCombined
  deriving DecidableEq

structure SelectionAssign where
  signal : SelectionSignal
  value : (SelectionSignal → Bool) → Bool

section Write

variable (d : Document β) (M : ChartToC.Machine) (strHash : List Char → Nat) (trie : EventTrie)

/-- Does some signal of an event below a descriptor of the transition hold? -/
def nameMatchers (transition : TransId) (σ : SelectionSignal → Bool) : Bool :=
  match (M.transition transition).event with
  | some event => (vhdlEvents trie event.toList).any fun eventName => σ (.event (eventSignal strHash eventName))
  | none => true

/-- The transitions before a transition with which it conflicts. -/
def conflicters (transition : TransId) : List TransId :=
  (M.transitions.take (M.transitions.idxOf transition)).filter fun j => j ∈ (M.transition transition).conflicts

def optimalTransition (transition : TransId) : SelectionAssign where
  signal := .inOptimalTransitionSet transition
  value σ :=
    (if (M.transition transition).event.isSome then !σ .spontaneousActive else σ .spontaneousEn) &&
      (if ((d.trans? transition).bind (·.cond)).isSome then σ (.transitionConditionFulfilled transition) else true) &&
      σ (.stateActive (M.transition transition).source) &&
      nameMatchers M strHash trie transition σ &&
      !(conflicters M transition).any fun j => σ (.inOptimalTransitionSet j)

def writeOptimalTransitionSetSelection : List SelectionAssign :=
  (M.transitions.map (optimalTransition d M strHash trie)) ++
    [{ signal := .optimalTransitionSetCombined, value := fun σ => M.transitions.any fun t => σ (.inOptimalTransitionSet t) },
      { signal := .spontaneousActive
        value := fun σ =>
          (M.transitions.filter fun t => (M.transition t).event.isNone).any fun t => σ (.inOptimalTransitionSet t) }]

end Write

def Settled (σ : SelectionSignal → Bool) (l : List SelectionAssign) : Prop := ∀ a ∈ l, σ a.signal = a.value σ

def optimalTransitionSet (M : ChartToC.Machine) (σ : SelectionSignal → Bool) : Finset TransId :=
  (M.transitions.filter fun t => σ (.inOptimalTransitionSet t)).toFinset

/-- The signals that come from elsewhere: the active states, the conditions that the condition solver answers, and the
signals of the events as the event handler leaves them. -/
structure SelectionInputs (d : Document β) (ask : Answers) (strHash : List Char → Nat) (eventNames : List (List Char))
    (C : Finset TreePath) (dequeued : Option Event) (σ : SelectionSignal → Bool) : Prop where
  active : ∀ p, σ (.stateActive p) = true ↔ p ∈ C
  condition : ∀ t cond, (d.trans? t).bind (·.cond) = some cond →
    σ (.transitionConditionFulfilled t) = (decide (cond = "") || ask.truth cond)
  noEvent : dequeued = none → ∀ w ∈ eventNames, σ (.event (eventSignal strHash w)) = false
  event : ∀ e, dequeued = some e → ∀ a ∈ eventBranch strHash eventNames e.name.toList, σ (.event a.1) = a.2

/-- The charts and events for which the circuit asks about transitions what the interpreter asks: `event` attributes are not
empty, and the tests for an attribute let the event pass that it matches. -/
structure SameTests (d : Document β) (ask : Answers) (trie : EventTrie) (dequeued : Option Event) : Prop where
  named : ∀ t ∈ postFixTransitions d, (d.trans? t).bind (·.event) ≠ some ""
  known : ∀ e, dequeued = some e → e.toBool = true ∧ e.name.toList ∈ trie.words
  passes : ∀ e, dequeued = some e → ∀ t ∈ postFixTransitions d, ∀ event, (d.trans? t).bind (·.event) = some event →
    (VhdlPasses trie event.toList e.name.toList ↔ ask.matched e event = true)

section Settled

variable {d : Document β} {ask : Answers} {strHash : List Char → Nat} {words : List (List Char)} {C : Finset TreePath}
  {dequeued : Option Event} {σ : SelectionSignal → Bool}

theorem mem_words_of_mem_getWordsWithPrefix {w word : List Char} (h : w ∈ (eventTrie words).getWordsWithPrefix word) :
    w ∈ (eventTrie words).words := by
  obtain ⟨us, hus⟩ := (TrieNode.mem_words_find (distinct_eventTrie words)).mp h
  exact (TrieNode.mem_words (distinct_eventTrie words)).mpr ⟨_, hus⟩

theorem mem_words_of_mem_vhdlEvents {w event : List Char} (h : w ∈ vhdlEvents (eventTrie words) event) :
    w ∈ (eventTrie words).words := by
  obtain ⟨desc, -, hw⟩ := List.mem_flatMap.mp h
  exact mem_words_of_mem_getWordsWithPrefix hw

theorem event_signal_iff (hproper : ProperSignals strHash (eventTrie words).words)
    (hin : SelectionInputs d ask strHash (eventTrie words).words C dequeued σ) {w : List Char}
    (hw : w ∈ (eventTrie words).words) (hknown : ∀ e, dequeued = some e → e.name.toList ∈ (eventTrie words).words) :
    σ (.event (eventSignal strHash w)) = true ↔ ∃ e, dequeued = some e ∧ e.name.toList = w := by
  cases hdeq : dequeued with
  | none =>
    rw [hin.noEvent hdeq w hw]
    simp
  | some e =>
    have hmem : (eventSignal strHash w, decide (escapeMacro strHash e.name.toList = escapeMacro strHash w)) ∈
        eventBranch strHash (eventTrie words).words e.name.toList := List.mem_map.mpr ⟨w, hw, rfl⟩
    have hvalue := hin.event e hdeq _ hmem
    rw [hvalue, decide_eq_true_iff]
    constructor
    · intro hsame
      refine ⟨e, rfl, ?_⟩
      rw [hsame, decide_eq_true rfl] at hmem
      exact (hproper.alone e.name.toList (hknown e hdeq) w hw hmem).symm
    · intro hyp
      obtain ⟨e', he', hname⟩ := hyp
      obtain rfl := Option.some.inj he'
      rw [hname]

/-- The transitions that may be selected next to those before them. -/
def Ready (d : Document β) (ask : Answers) (C : Finset TreePath) (dequeued : Option Event) (en spontaneous : Bool)
    (t : TransId) : Prop :=
  (en = true ∧ Candidate d C ask {} t) ∨ (spontaneous = false ∧ ∃ e, dequeued = some e ∧ Candidate d C ask e t)

theorem eventless_of_candidate {t : TransId} (hsame : SameTests d ask (eventTrie words) dequeued)
    (h : Candidate d C ask {} t) : (d.trans? t).bind (·.event) = none := by
  have hen := h.2.2
  cases hev : (d.trans? t).bind (·.event) with
  | none => rfl
  | some event =>
    rw [Recommendation.isEnabled, hev] at hen
    have hempty : event = "" := by
      simp [Event.toBool] at hen
      exact hen.1
    exact absurd (hempty ▸ hev) (hsame.named t h.1)

theorem eventful_of_candidate {t : TransId} {e : Event} (hknown : e.toBool = true) (h : Candidate d C ask e t) :
    ∃ event, (d.trans? t).bind (·.event) = some event := by
  have hen := h.2.2
  cases hev : (d.trans? t).bind (·.event) with
  | none =>
    rw [Recommendation.isEnabled, hev] at hen
    simp [hknown] at hen
  | some event => exact ⟨event, rfl⟩

theorem optimalTransition_value_iff (hproper : ProperSignals strHash (eventTrie words).words)
    (hin : SelectionInputs d ask strHash (eventTrie words).words C dequeued σ)
    (hsame : SameTests d ask (eventTrie words) dequeued) {t : TransId} (ht : t ∈ postFixTransitions d) :
    (optimalTransition d (machine d) strHash (eventTrie words) t).value σ = true ↔
      Ready d ask C dequeued (σ .spontaneousEn) (σ .spontaneousActive) t ∧
        ∀ j ∈ conflicters (machine d) t, ¬ σ (.inOptimalTransitionSet j) = true := by
  have hcond : (if ((d.trans? t).bind (·.cond)).isSome then σ (.transitionConditionFulfilled t) else true) =
      (decide ((((d.trans? t).bind (·.cond)).getD "") = "") || ask.truth (((d.trans? t).bind (·.cond)).getD "")) := by
    cases hc : (d.trans? t).bind (·.cond) with
    | none => rfl
    | some cond => exact hin.condition t cond hc
  have hevent : ((machine d).transition t).event = (d.trans? t).bind (·.event) := rfl
  have hsource : ((machine d).transition t).source = t.1 := rfl
  simp only [optimalTransition, hcond, hsource, hevent, Bool.and_eq_true, Bool.not_eq_true', List.any_eq_false, hin.active]
  rw [and_congr_left_iff]
  intro _
  cases hev : (d.trans? t).bind (·.event) with
  | none =>
    have hfree : ∀ e, dequeued = some e → ¬ Candidate d C ask e t := by
      intro e he h
      obtain ⟨event, h'⟩ := eventful_of_candidate (hsame.known e he).1 h
      rw [hev] at h'
      cases h'
    have hmatch : nameMatchers (machine d) strHash (eventTrie words) t σ = true := by
      rw [nameMatchers, hevent, hev]
    have hcand : Candidate d C ask {} t ↔ t.1 ∈ C ∧
        (decide ((((d.trans? t).bind (·.cond)).getD "") = "") || ask.truth (((d.trans? t).bind (·.cond)).getD "")) = true := by
      simp [Candidate, Recommendation.isEnabled, ht, hev, Event.toBool]
    rw [Ready, hcand]
    constructor
    · intro hyp
      obtain ⟨⟨⟨hen, hc⟩, hactive⟩, _⟩ := hyp
      exact Or.inl ⟨hen, hactive, hc⟩
    · intro h
      rcases h with ⟨hen, hactive, hc⟩ | ⟨-, e, he, h⟩
      · exact ⟨⟨⟨hen, hc⟩, hactive⟩, hmatch⟩
      · exact absurd h (hfree e he)
  | some event =>
    have hfree : ¬ Candidate d C ask {} t := by
      intro h
      rw [eventless_of_candidate hsame h] at hev
      cases hev
    have hmatch : nameMatchers (machine d) strHash (eventTrie words) t σ = true ↔
        ∃ e, dequeued = some e ∧ ask.matched e event = true := by
      rw [nameMatchers, hevent, hev]
      simp only [List.any_eq_true]
      constructor
      · intro hyp
        obtain ⟨w, hw, hsignal⟩ := hyp
        obtain ⟨e, he, rfl⟩ := (event_signal_iff hproper hin (mem_words_of_mem_vhdlEvents hw)
          fun e he => (hsame.known e he).2).mp hsignal
        exact ⟨e, he, (hsame.passes e he t ht event hev).mp hw⟩
      · intro hyp
        obtain ⟨e, he, hm⟩ := hyp
        refine ⟨e.name.toList, (hsame.passes e he t ht event hev).mpr hm, ?_⟩
        exact (event_signal_iff hproper hin (hsame.known e he).2 fun e he => (hsame.known e he).2).mpr ⟨e, he, rfl⟩
    have hne : event ≠ "" := by
      intro h
      exact hsame.named t ht (h ▸ hev)
    have hcand : ∀ e, dequeued = some e → (Candidate d C ask e t ↔ t.1 ∈ C ∧ ask.matched e event = true ∧
        (decide ((((d.trans? t).bind (·.cond)).getD "") = "") || ask.truth (((d.trans? t).bind (·.cond)).getD "")) = true) := by
      intro e he
      simp [Candidate, Recommendation.isEnabled, ht, hev, (hsame.known e he).1, hne]
    rw [Ready, hmatch]
    constructor
    · intro hyp
      obtain ⟨⟨⟨hspont, hc⟩, hactive⟩, e, he, hm⟩ := hyp
      exact Or.inr ⟨by simpa using hspont, e, he, (hcand e he).mpr ⟨hactive, hm, hc⟩⟩
    · intro h
      rcases h with ⟨-, h⟩ | ⟨hspont, e, he, h⟩
      · exact absurd h hfree
      · obtain ⟨hactive, hm, hc⟩ := (hcand e he).mp h
        exact ⟨⟨⟨by simpa using hspont, hc⟩, hactive⟩, e, he, hm⟩

theorem mem_optimalTransitionSet {t : TransId} :
    t ∈ optimalTransitionSet (machine d) σ ↔ t ∈ postFixTransitions d ∧ σ (.inOptimalTransitionSet t) = true := by
  simp [optimalTransitionSet, machine]

theorem mem_conflicters {j t : TransId} (ht : t ∈ postFixTransitions d) :
    j ∈ conflicters (machine d) t ↔ j ∈ postFixTransitions d ∧ Before j t ∧ d.conflicts j t = true := by
  have hbefore := Kernel.mem_take_idxOf_iff (s := j) (fun _ _ h => Before.asymm h) FastMicroStep.postFixTransitions_pairwise ht
  have hconflicts : j ∈ ((machine d).transition t).conflicts ↔ j ∈ postFixTransitions d ∧ d.conflicts t j = true := by
    simp [machine, ChartToC.transition]
  rw [conflicters, List.mem_filter, decide_eq_true_iff, hconflicts, Document.conflicts_comm]
  constructor
  · intro hyp
    obtain ⟨hfront, hj, hc⟩ := hyp
    exact ⟨hj, (hbefore.mp hfront).2, hc⟩
  · intro hyp
    obtain ⟨hj, hlt, hc⟩ := hyp
    exact ⟨hbefore.mpr ⟨hj, hlt⟩, hj, hc⟩

/-- The assignments hold exactly when the selected transitions are a kernel of those that are ready. -/
theorem settled_iff_isKernel (hproper : ProperSignals strHash (eventTrie words).words)
    (hin : SelectionInputs d ask strHash (eventTrie words).words C dequeued σ)
    (hsame : SameTests d ask (eventTrie words) dequeued) :
    Settled σ (writeOptimalTransitionSetSelection d (machine d) strHash (eventTrie words)) ↔
      Kernel.IsKernel (Ready d ask C dequeued (σ .spontaneousEn) (σ .spontaneousActive))
          (fun t u => d.conflicts t u = true) Before (postFixTransitions d) (optimalTransitionSet (machine d) σ) ∧
        (σ .optimalTransitionSetCombined = true ↔ (optimalTransitionSet (machine d) σ).Nonempty) ∧
        (σ .spontaneousActive = true ↔
          ∃ t ∈ optimalTransitionSet (machine d) σ, (d.trans? t).bind (·.event) = none) := by
  have hone : ∀ t ∈ postFixTransitions d,
      (σ (.inOptimalTransitionSet t) = (optimalTransition d (machine d) strHash (eventTrie words) t).value σ ↔
        (t ∈ optimalTransitionSet (machine d) σ ↔ t ∈ postFixTransitions d ∧
          Ready d ask C dequeued (σ .spontaneousEn) (σ .spontaneousActive) t ∧
            ∀ s ∈ optimalTransitionSet (machine d) σ, Before s t → ¬ d.conflicts s t = true)) := by
    intro t ht
    rw [Bool.eq_iff_iff, optimalTransition_value_iff hproper hin hsame ht, mem_optimalTransitionSet]
    simp only [ht, true_and, mem_conflicters ht, mem_optimalTransitionSet]
    refine Iff.of_eq (congrArg _ (propext (and_congr_right fun _ => ?_)))
    constructor
    · intro h s hyp hlt hc
      obtain ⟨hs, hsel⟩ := hyp
      exact h s ⟨hs, hlt, hc⟩ hsel
    · intro h j hyp hsel
      obtain ⟨hj, hlt, hc⟩ := hyp
      exact h j ⟨hj, hsel⟩ hlt hc
  have hcombined : (machine d).transitions.any (fun t => σ (.inOptimalTransitionSet t)) = true ↔
      (optimalTransitionSet (machine d) σ).Nonempty := by
    rw [List.any_eq_true]
    exact exists_congr fun t => mem_optimalTransitionSet.symm
  have hspontaneous : ((machine d).transitions.filter fun t => ((machine d).transition t).event.isNone).any
      (fun t => σ (.inOptimalTransitionSet t)) = true ↔
      ∃ t ∈ optimalTransitionSet (machine d) σ, (d.trans? t).bind (·.event) = none := by
    rw [List.any_eq_true]
    refine exists_congr fun t => ?_
    rw [List.mem_filter, Option.isNone_iff_eq_none, mem_optimalTransitionSet, and_assoc, and_assoc]
    exact and_congr_right fun _ => and_comm
  rw [Settled, writeOptimalTransitionSetSelection, List.forall_mem_append, List.forall_mem_map]
  refine and_congr ?_ ?_
  · constructor
    · intro h t
      by_cases ht : t ∈ postFixTransitions d
      · exact (hone t ht).mp (h t ht)
      · exact iff_of_false (fun hmem => ht (mem_optimalTransitionSet.mp hmem).1) fun hmem => ht hmem.1
    · intro h t ht
      exact (hone t ht).mpr (h t)
  · rw [List.forall_mem_cons, List.forall_mem_singleton]
    refine and_congr ?_ ?_
    · rw [← hcombined, Bool.eq_iff_iff]
    · rw [← hspontaneous, Bool.eq_iff_iff]

end Settled

section Selected

variable {D : Document β} {C : Finset TreePath} {ask : Answers} {cb : Callbacks ω}

/-- What the interpreter selects for a dequeued event, and nothing when there is none. -/
def eventSelection (D : Document β) (cb : Callbacks ω) (C : Finset TreePath) (w : ω) (dequeued : Option Event) : Finset TransId :=
  dequeued.elim ∅ fun e => (selectTransitions (FastMicroStep.init D) cb C e w).transSet

def spontaneousSelection (D : Document β) (cb : Callbacks ω) (C : Finset TreePath) (w : ω) : Finset TransId :=
  (selectTransitions (FastMicroStep.init D) cb C {} w).transSet

def settledSignals (d : Document β) (ask : Answers) (strHash : List Char → Nat) (C : Finset TreePath)
    (dequeued : Option Event) (en spontaneous : Bool) (S : Finset TransId) : SelectionSignal → Bool
  | .spontaneousEn => en
  | .spontaneousActive => spontaneous
  | .stateActive state => state ∈ C
  | .transitionConditionFulfilled t =>
    let cond := ((d.trans? t).bind (·.cond)).getD ""
    cond = "" || ask.truth cond
  | .event name => dequeued.any fun e => name = eventSignal strHash e.name.toList
  | .inOptimalTransitionSet t => t ∈ S
  | .optimalTransitionSetCombined => S.Nonempty

theorem settledSignals_inputs (d : Document β) {strHash : List Char → Nat} {eventNames : List (List Char)}
    {dequeued : Option Event} (en spontaneous : Bool) (S : Finset TransId) :
    SelectionInputs d ask strHash eventNames C dequeued (settledSignals d ask strHash C dequeued en spontaneous S) where
  active p := by simp [settledSignals]
  condition t cond h := by simp [settledSignals, h]
  noEvent h w _ := by simp [settledSignals, h]
  event e h a ha := by
    obtain ⟨w, hw, rfl⟩ := List.mem_map.mp ha
    have hiff : eventSignal strHash w = eventSignal strHash e.name.toList ↔
        escapeMacro strHash e.name.toList = escapeMacro strHash w := eventSignal_inj.trans eq_comm
    simp [settledSignals, h, hiff]

theorem optimalTransitionSet_settledSignals {d : Document β} {strHash : List Char → Nat} {dequeued : Option Event}
    (en spontaneous : Bool) {S : Finset TransId} (hS : ∀ t ∈ S, t ∈ postFixTransitions d) :
    optimalTransitionSet (machine d) (settledSignals d ask strHash C dequeued en spontaneous S) = S := by
  ext t
  rw [mem_optimalTransitionSet]
  simpa [settledSignals] using hS t

theorem spontaneousSelection_isKernel (hn : (resortStates D).Nesting) (hC : (resortStates D).Legal C) (hask : ask.Given cb C)
    (w : ω) {S : Finset TransId} :
    S = spontaneousSelection D cb C w ↔
      Kernel.IsKernel (Candidate (resortStates D) C ask {}) (fun t u => (resortStates D).conflicts t u = true) Before
        (postFixTransitions (resortStates D)) S := by
  rw [spontaneousSelection, FastMicroStep.init, FastMicroStep.selectTransitions_transSet hn hC hask, eq_comm,
    Kernel.greedy_eq_iff (fun _ _ h => Before.asymm h) FastMicroStep.postFixTransitions_pairwise]

theorem eventSelection_isKernel (hn : (resortStates D).Nesting) (hC : (resortStates D).Legal C) (hask : ask.Given cb C)
    (w : ω) (dequeued : Option Event) {S : Finset TransId} :
    S = eventSelection D cb C w dequeued ↔
      Kernel.IsKernel (fun t => ∃ e, dequeued = some e ∧ Candidate (resortStates D) C ask e t)
        (fun t u => (resortStates D).conflicts t u = true) Before (postFixTransitions (resortStates D)) S := by
  cases dequeued with
  | none =>
    rw [eventSelection, Option.elim_none]
    constructor
    · rintro rfl t
      simp
    · intro hS
      refine Finset.eq_empty_of_forall_notMem fun t ht => ?_
      obtain ⟨-, ⟨e, he, -⟩, -⟩ := (hS t).mp ht
      cases he
  | some e =>
    have hcand : (fun t => ∃ e', some e = some e' ∧ Candidate (resortStates D) C ask e' t) =
        Candidate (resortStates D) C ask e := by
      funext t
      simp
    rw [eventSelection, Option.elim_some, FastMicroStep.init, FastMicroStep.selectTransitions_transSet hn hC hask, eq_comm, hcand,
      Kernel.greedy_eq_iff (fun _ _ h => Before.asymm h) FastMicroStep.postFixTransitions_pairwise]

section Exact

variable (hn : (resortStates D).Nesting) (hC : (resortStates D).Legal C) (hask : ask.Given cb C) (w : ω)
  {strHash : List Char → Nat} {words : List (List Char)} (hproper : ProperSignals strHash (eventTrie words).words)
  {dequeued : Option Event} (hsame : SameTests (resortStates D) ask (eventTrie words) dequeued)

include hn hC hask hproper hsame

/-- A solution holds the transitions that the interpreter selects, those without an event or those for the dequeued one. -/
theorem selection_of_settled {σ : SelectionSignal → Bool}
    (hin : SelectionInputs (resortStates D) ask strHash (eventTrie words).words C dequeued σ)
    (hσ : Settled σ (writeOptimalTransitionSetSelection (resortStates D) (ChartToC.prepare D) strHash (eventTrie words))) :
    (σ .spontaneousEn = true ∧ (optimalTransitionSet (ChartToC.prepare D) σ).Nonempty ∧
        optimalTransitionSet (ChartToC.prepare D) σ = spontaneousSelection D cb C w) ∨
      (optimalTransitionSet (ChartToC.prepare D) σ = eventSelection D cb C w dequeued ∧
        (σ .spontaneousEn = true → ∀ t, Candidate (resortStates D) C ask {} t →
          ∃ s ∈ optimalTransitionSet (ChartToC.prepare D) σ, Before s t ∧ (resortStates D).conflicts s t = true)) := by
  rw [spontaneousSelection_isKernel hn hC hask, eventSelection_isKernel hn hC hask]
  rw [ChartToC.prepare, ChartToC.resortStates_eq] at hσ ⊢
  generalize resortStates D = d at *
  obtain ⟨hkernel, -, hspont⟩ := (settled_iff_isKernel hproper hin hsame).mp hσ
  generalize optimalTransitionSet (machine d) σ = S at *
  generalize hen : σ .spontaneousEn = en at *
  cases hactive : σ .spontaneousActive with
  | true =>
    obtain ⟨t, ht, hev⟩ := hspont.mp hactive
    rw [hactive] at hkernel
    have hready : ∀ t, Ready d ask C dequeued en true t ↔ en = true ∧ Candidate d C ask {} t := by
      intro t
      simp [Ready]
    obtain ⟨htrue, -⟩ := (hready t).mp ((hkernel t).mp ht).2.1
    refine Or.inl ⟨htrue, ⟨t, ht⟩, fun u => ?_⟩
    rw [hkernel u, hready u, and_iff_right htrue]
  | false =>
    rw [hactive] at hkernel hspont
    have hnone : ∀ t ∈ S, ∃ e, dequeued = some e ∧ Candidate d C ask e t := by
      intro t ht
      rcases ((hkernel t).mp ht).2.1 with ⟨-, hcand⟩ | ⟨-, h⟩
      · exact absurd (hspont.mpr ⟨t, ht, eventless_of_candidate hsame hcand⟩) Bool.false_ne_true
      · exact h
    obtain ⟨hnarrow, hothers⟩ := (Kernel.isKernel_narrower_iff fun t h => Or.inr ⟨rfl, h⟩).mp ⟨hkernel, hnone⟩
    refine Or.inr ⟨hnarrow, fun htrue t hcand => ?_⟩
    refine hothers t hcand.1 (Or.inl ⟨htrue, hcand⟩) ?_
    intro hyp
    obtain ⟨e, he, h⟩ := hyp
    obtain ⟨event, hev⟩ := eventful_of_candidate (hsame.known e he).1 h
    rw [eventless_of_candidate hsame hcand] at hev
    cases hev

/-- There is a solution for what the interpreter selects without an event. -/
theorem settled_of_spontaneous {en : Bool} {S : Finset TransId} (hen : en = true) (hne : S.Nonempty)
    (hS : S = spontaneousSelection D cb C w) :
    Settled (settledSignals (resortStates D) ask strHash C dequeued en true S)
        (writeOptimalTransitionSetSelection (resortStates D) (ChartToC.prepare D) strHash (eventTrie words)) ∧
      optimalTransitionSet (ChartToC.prepare D) (settledSignals (resortStates D) ask strHash C dequeued en true S) = S := by
  rw [spontaneousSelection_isKernel hn hC hask] at hS
  rw [ChartToC.prepare, ChartToC.resortStates_eq]
  generalize resortStates D = d at *
  have hin : SelectionInputs d ask strHash (eventTrie words).words C dequeued
      (settledSignals d ask strHash C dequeued en true S) := settledSignals_inputs d en true S
  have hset : optimalTransitionSet (machine d) (settledSignals d ask strHash C dequeued en true S) = S :=
    optimalTransitionSet_settledSignals en true fun t ht => ((hS t).mp ht).1
  refine ⟨(settled_iff_isKernel hproper hin hsame).mpr ?_, hset⟩
  rw [hset]
  refine ⟨fun t => ?_, decide_eq_true_iff, iff_of_true rfl ?_⟩
  · rw [hS t]
    simp [Ready, settledSignals, hen]
  · obtain ⟨t, ht⟩ := hne
    exact ⟨t, ht, eventless_of_candidate hsame ((hS t).mp ht).2.1⟩

/-- There is one for what it selects for the event when this excludes whatever is ready without an event. -/
theorem settled_of_event {en : Bool} {S : Finset TransId} (hS : S = eventSelection D cb C w dequeued)
    (hothers : en = true → ∀ t, Candidate (resortStates D) C ask {} t →
      ∃ s ∈ S, Before s t ∧ (resortStates D).conflicts s t = true) :
    Settled (settledSignals (resortStates D) ask strHash C dequeued en false S)
        (writeOptimalTransitionSetSelection (resortStates D) (ChartToC.prepare D) strHash (eventTrie words)) ∧
      optimalTransitionSet (ChartToC.prepare D) (settledSignals (resortStates D) ask strHash C dequeued en false S) = S := by
  rw [eventSelection_isKernel hn hC hask] at hS
  rw [ChartToC.prepare, ChartToC.resortStates_eq]
  generalize resortStates D = d at *
  have hin : SelectionInputs d ask strHash (eventTrie words).words C dequeued
      (settledSignals d ask strHash C dequeued en false S) := settledSignals_inputs d en false S
  have hset : optimalTransitionSet (machine d) (settledSignals d ask strHash C dequeued en false S) = S :=
    optimalTransitionSet_settledSignals en false fun t ht => ((hS t).mp ht).1
  refine ⟨(settled_iff_isKernel hproper hin hsame).mpr ?_, hset⟩
  rw [hset]
  refine ⟨?_, decide_eq_true_iff, iff_of_false Bool.false_ne_true ?_⟩
  · refine ((Kernel.isKernel_narrower_iff fun t h => Or.inr ⟨rfl, h⟩).mpr ⟨hS, ?_⟩).1
    intro t _ hready hnot
    rcases hready with ⟨htrue, hcand⟩ | ⟨-, h⟩
    · exact hothers htrue t hcand
    · exact absurd h hnot
  · intro hyp
    obtain ⟨t, ht, hev⟩ := hyp
    obtain ⟨e, he, h⟩ := ((hS t).mp ht).2.1
    obtain ⟨event, hev'⟩ := eventful_of_candidate (hsame.known e he).1 h
    rw [hev] at hev'
    cases hev'

/-- The circuit settles in the eventless transitions that the interpreter selects, when there are some and eventless
transitions are enabled, and in those it selects for the dequeued event, unless one without an event is ready and none of
these excludes it. Where both are possible, it depends on the delays in the circuit which of the two it is. -/
theorem selection_exact_iff (en : Bool) (S : Finset TransId) :
    (∃ σ, SelectionInputs (resortStates D) ask strHash (eventTrie words).words C dequeued σ ∧ σ .spontaneousEn = en ∧
        Settled σ (writeOptimalTransitionSetSelection (resortStates D) (ChartToC.prepare D) strHash (eventTrie words)) ∧
        optimalTransitionSet (ChartToC.prepare D) σ = S) ↔
      (en = true ∧ S.Nonempty ∧ S = spontaneousSelection D cb C w) ∨
        (S = eventSelection D cb C w dequeued ∧
          (en = true → ∀ t, Candidate (resortStates D) C ask {} t →
            ∃ s ∈ S, Before s t ∧ (resortStates D).conflicts s t = true)) := by
  constructor
  · rintro ⟨σ, hin, rfl, hσ, rfl⟩
    exact selection_of_settled hn hC hask w hproper hsame hin hσ
  · intro h
    rcases h with ⟨hen, hne, hS⟩ | ⟨hS, hothers⟩
    · obtain ⟨hσ, hset⟩ := settled_of_spontaneous hn hC hask w hproper hsame hen hne hS
      exact ⟨_, settledSignals_inputs _ en true S, rfl, hσ, hset⟩
    · obtain ⟨hσ, hset⟩ := settled_of_event hn hC hask w hproper hsame hS hothers
      exact ⟨_, settledSignals_inputs _ en false S, rfl, hσ, hset⟩

end Exact

end Selected

/-- The state `a` has a transition for the event `e` and an eventless one behind it. -/
def eventFirst : Document Unit where
  tree :=
    { root := { tag := .scxml }
      kids :=
        .cons { tag := .state, id := some "a", transitions := [{ target := some ["b"], event := some "e" }, { target := some ["c"] }] }
          .nil
          (.cons { tag := .state, id := some "b" } .nil (.cons { tag := .state, id := some "c" } .nil .nil)) }

theorem eventFirst_sameTests :
    SameTests (resortStates eventFirst) FastMicroStep.byName (eventTrie [['e']]) (some { name := "e" }) where
  named := by decide +kernel
  known := by
    rintro _ ⟨⟩
    decide +kernel
  passes := by
    have h : ∀ t ∈ postFixTransitions (resortStates eventFirst), ∀ event ∈ ((resortStates eventFirst).trans? t).bind (·.event),
        event = "e" := by decide +kernel
    rintro _ ⟨⟩ t ht event hev
    obtain rfl := h t ht event hev
    unfold VhdlPasses
    decide +kernel

/-- The chart's circuit settles in the set while spontaneous transitions are enabled and the event is there. -/
def EventFirstSettles (S : Finset TransId) : Prop :=
  ∃ σ, SelectionInputs (resortStates eventFirst) FastMicroStep.byName (fun _ => 0) (eventTrie [['e']]).words {[], [0]}
      (some { name := "e" }) σ ∧ σ .spontaneousEn = true ∧
    Settled σ (writeOptimalTransitionSetSelection (resortStates eventFirst) (ChartToC.prepare eventFirst) (fun _ => 0)
      (eventTrie [['e']])) ∧
    optimalTransitionSet (ChartToC.prepare eventFirst) σ = S

/-- While the event is there, the circuit can settle in either transition. -/
theorem selection_exact_eventFirst : EventFirstSettles {([0], 0)} ∧ EventFirstSettles {([0], 1)} := by
  have hn : (resortStates eventFirst).Nesting := ⟨by decide +kernel, by decide +kernel, by decide +kernel⟩
  have hproper : ProperSignals (fun _ => 0) (eventTrie [['e']]).words := by
    rw [properSignals_iff]
    decide +kernel
  have hexact := fun S => selection_exact_iff hn (C := {[], [0]}) (by decide +kernel) (FastMicroStep.byName_given _) [] hproper
    eventFirst_sameTests true S
  unfold EventFirstSettles
  rw [hexact, hexact]
  constructor
  · refine Or.inr ⟨by decide +kernel, fun _ u hu => ?_⟩
    have hall : ∀ u ∈ postFixTransitions (resortStates eventFirst),
        Candidate (resortStates eventFirst) {[], [0]} FastMicroStep.byName {} u → u = ([0], 1) := by decide +kernel
    obtain rfl := hall u hu.1 hu
    exact ⟨([0], 0), Finset.mem_singleton_self _, Or.inr ⟨rfl, by decide⟩, by decide +kernel⟩
  · exact Or.inl ⟨rfl, Finset.singleton_nonempty _, by decide +kernel⟩

end ChartToVHDL

end Uscxml
