import Uscxml.ChartToVHDL.Selection
import Uscxml.ChartToVHDL.NextState

/-!
# Clock cycles of the micro stepper

Between two rising edges the signals settle: the selection first, from the active states, the conditions and the event that
the event handler has set, and then the next states. At the edge `state_proc` takes the next states over unless the stepper
is stalled. A reset clears all states and sets one signal, which is cleared by the first edge behind it and lets the circuit
enter the document. From there on every edge is a microstep of the interpreter, on charts whose targets can be reached from
their domains as the circuit reaches them.
-/

namespace Uscxml

variable {β ω : Type}

namespace ChartToVHDL

open Document

open FastMicroStep (postFixTransitions selectTransitions Inactive)

/-- The registers of `state_proc`. -/
structure Registers where
  stateActive : Finset TreePath
  inCompleteEntrySet0 : Bool

def Registers.reset : Registers := ⟨∅, true⟩

/-- What the signals settle in between two edges, with the input `en` and the event that is there. -/
structure CycleSignals where
  en : Bool
  dequeued : Option Event
  selection : SelectionSignal → Bool
  next : Signal → Bool

/-- The assignment of `stall` in `writeSystemSignalMapping`. -/
def CycleSignals.stall (c : CycleSignals) : Bool := !c.en || c.next .completed

/-- `writeStateHandler`: a rising edge. -/
def writeStateHandler (M : ChartToC.Machine) (r : Registers) (c : CycleSignals) : Registers :=
  if c.stall = true then r
  else { stateActive := (M.states.filter fun p => c.next (.stateNext p)).toFinset, inCompleteEntrySet0 := false }

/-- A chart with what the circuit and the interpreter are given to run it: the answers to conditions and event tests, the
words of the trie, the function `std::hash`, and what stands behind the end of an empty string. -/
structure Setting (β ω : Type) where
  chart : Document β
  ask : Finset TreePath → Answers
  callbacks : Callbacks ω
  words : List (List Char)
  strHash : List Char → Nat
  stray : TransId → TreePath → Bool

namespace Setting

variable (s : Setting β ω)

def Known (e : Event) : Prop := e.toBool = true ∧ e.name.toList ∈ (eventTrie s.words).words

/-- The signals of a cycle satisfy all assignments for the registers before the edge. -/
structure Settles (r : Registers) (c : CycleSignals) : Prop where
  known : ∀ e, c.dequeued = some e → s.Known e
  inputs : SelectionInputs (resortStates s.chart) (s.ask r.stateActive) s.strHash (eventTrie s.words).words r.stateActive c.dequeued
    c.selection
  selection : Settled c.selection
    (writeOptimalTransitionSetSelection (resortStates s.chart) (ChartToC.prepare s.chart) s.strHash (eventTrie s.words))
  active : ∀ p, c.next (.stateActive p) = true ↔ p ∈ r.stateActive
  optimal : ∀ t, c.next (.inOptimalTransitionSet t) = true ↔ t ∈ optimalTransitionSet (ChartToC.prepare s.chart) c.selection
  root : c.next (.inCompleteEntrySet []) = r.inCompleteEntrySet0
  next : Satisfies c.next (emitted s.chart s.stray)

def SettledRun : Registers → List CycleSignals → Prop
  | _, [] => True
  | r, c :: l => s.Settles r c ∧ SettledRun (writeStateHandler (ChartToC.prepare s.chart) r c) l

def run (r : Registers) (l : List CycleSignals) : Registers := l.foldl (writeStateHandler (ChartToC.prepare s.chart)) r

/-- What the interpreter makes of a configuration when it selects transitions for an event. -/
def microstepFor (w : ω) (C : Finset TreePath) (e : Event) : Finset TreePath :=
  ((selectTransitions (FastMicroStep.init s.chart) s.callbacks C e w).microstep (FastMicroStep.init s.chart)
    { configuration := C }).next (FastMicroStep.init s.chart)

/-- The microstep with which the interpreter enters the document. -/
def startMicrostep : FastMicroStep.Microstep where
  configuration := ∅
  history := ∅
  targetSet := ((FastMicroStep.init s.chart).state []).completion
  exitSet := ∅
  transSet := ∅

/-- What the interpreter does meanwhile, from where it has not started: it waits while the stepper is stalled, enters the
document, waits when nothing is selected, and else takes a microstep for the same transitions. -/
inductive Follows (w : ω) : List CycleSignals → Option (Finset TreePath) → Prop where
  | reset : Follows w [] none
  | stalled {l : List CycleSignals} {c : CycleSignals} {C : Option (Finset TreePath)} : Follows w l C → c.stall = true →
      Follows w (l ++ [c]) C
  | start {l : List CycleSignals} {c : CycleSignals} : Follows w l none → c.stall = false →
      Follows w (l ++ [c]) (some (s.startMicrostep.next (FastMicroStep.init s.chart)))
  | waits {l : List CycleSignals} {c : CycleSignals} {C : Finset TreePath} : Follows w l (some C) → c.stall = false →
      optimalTransitionSet (ChartToC.prepare s.chart) c.selection = ∅ → Follows w (l ++ [c]) (some C)
  | takes {l : List CycleSignals} {c : CycleSignals} {C : Finset TreePath} {e : Event} : Follows w l (some C) → c.stall = false →
      e = {} ∨ c.dequeued = some e →
      (selectTransitions (FastMicroStep.init s.chart) s.callbacks C e w).transSet.Nonempty →
      optimalTransitionSet (ChartToC.prepare s.chart) c.selection =
        (selectTransitions (FastMicroStep.init s.chart) s.callbacks C e w).transSet →
      Follows w (l ++ [c]) (some (s.microstepFor w C e))

def registersFor : Option (Finset TreePath) → Registers
  | none => .reset
  | some C => ⟨C, false⟩

/-- What circuit and interpreter have in common. -/
structure Common : Prop where
  answers : ∀ C, (s.ask C).Given s.callbacks C
  signals : ProperSignals s.strHash (eventTrie s.words).words
  tests : ∀ C dequeued, (∀ e, dequeued = some e → s.Known e) →
    SameTests (resortStates s.chart) (s.ask C) (eventTrie s.words) dequeued

/-- The charts whose transitions have targets, and what is to be entered between these and the domain comes by itself. -/
structure CircuitChart : Prop where
  plain : (resortStates s.chart).PlainChart
  legal : (resortStates s.chart).LegalChart
  targets : ∀ t ∈ postFixTransitions (resortStates s.chart), (((resortStates s.chart).trans? t).bind (·.target)).isSome
  ways : ∀ t ∈ postFixTransitions (resortStates s.chart), ∀ D, (resortStates s.chart).getTransitionDomain t = some D →
    (resortStates s.chart).ComesByItself (· ∈ (resortStates s.chart).getTargetStates t) (·.Below D)

end Setting

/-! ### The ways to the targets -/

section Ways

variable {d : Document β} {C : Finset TreePath} {sel : FastMicroStep.Selection ω} (hd : d.PlainChart) (hl : d.LegalChart)
  (hC : d.Legal C) (hsel : FastMicroStep.Selected (FastMicroStep.tables d) C sel)

include hl hC hsel

/-- The domain of a selected transition stays, and so does what is above it. -/
theorem domain_stays {t : TransId} {D c : TreePath} (ht : t ∈ sel.transSet) (hD : d.getTransitionDomain t = some D)
    (hc : c <+: D) : ¬ Inactive C (sel.exitSet ∩ C) c := by
  have hregion := FastMicroStep.region_of_selected hl hsel hC
  obtain ⟨D₁, hD₁, -, hsource, -⟩ := hl.domain_spec (FastMicroStep.source_tag hl hsel ht) (targets_ne_nil_of_domain hD)
  obtain rfl : D₁ = D := Option.some.inj (hD₁.symm.trans hD)
  have hcC : c ∈ C := hC.above (hsel.active t ht).2 (hc.trans hsource)
  rw [Inactive, not_or, not_not]
  refine ⟨hcC, fun hX => ?_⟩
  obtain ⟨-, u, hu, E, hE, hcE⟩ := (hregion.exit c).mp hX
  obtain rfl : t = u := FastMicroStep.domain_unique hl hsel ht hu hD hE (List.prefix_refl D₁) (hcE.1.trans hc)
  rw [hD] at hE
  obtain rfl := Option.some.inj hE
  exact TreePath.not_below_self D₁ (TreePath.Below.prefix_trans hc hcE)

theorem inactive_below_domain {t : TransId} {D c : TreePath} (ht : t ∈ sel.transSet) (hD : d.getTransitionDomain t = some D)
    (hc : c.Below D) : Inactive C (sel.exitSet ∩ C) c := by
  by_cases hcC : c ∈ C
  · exact Or.inr (((FastMicroStep.region_of_selected hl hsel hC).exit c).mpr ⟨hcC, t, ht, D, hD, hc⟩)
  · exact Or.inl hcC

include hd in
theorem comesByItself_selected
    (hways : ∀ t ∈ sel.transSet, ∀ D, d.getTransitionDomain t = some D → d.ComesByItself (· ∈ d.getTargetStates t) (·.Below D)) :
    d.ComesByItself (fun x => ∃ t ∈ sel.transSet, x ∈ d.getTargetStates t) (Inactive C (sel.exitSet ∩ C)) := by
  -- On the way to a target the inactive states are those below the domain.
  have hbelow : ∀ {t : TransId} {D x c : TreePath}, t ∈ sel.transSet → d.getTransitionDomain t = some D → x ∈ d.getTargetStates t →
      c <+: x → Inactive C (sel.exitSet ∩ C) c → c.Below D := by
    intro t D x c ht hD hx hc hina
    rcases TreePath.comparable hc ((FastMicroStep.domain_spec hd.defaultChart hD).2 x hx).1 with rfl | h | h
    · exact absurd hina (domain_stays hl hC hsel ht hD (List.prefix_refl c))
    · exact h
    · exact absurd hina (domain_stays hl hC hsel ht hD h.1)
  constructor
  · intro x hyp c hc hina
    obtain ⟨t, ht, hx⟩ := hyp
    obtain ⟨D, hD⟩ := exists_domain hd hx
    rcases (hways t ht D hD).way x hx c hc (hbelow ht hD hx hc hina) with h | ⟨hparent, hwhy⟩
    · exact Or.inl ⟨t, ht, h⟩
    · exact Or.inr ⟨inactive_below_domain hl hC hsel ht hD hparent, hwhy⟩
  · intro x hyp p hxp hina hcomp n hn
    obtain ⟨t, ht, hx⟩ := hyp
    obtain ⟨D, hD⟩ := exists_domain hd hx
    obtain ⟨x', hx', hnx'⟩ := (hways t ht D hD).default x hx p hxp (hbelow ht hD hx hxp.1 hina) hcomp n hn
    exact ⟨x', ⟨t, ht, hx'⟩, hnx'⟩

end Ways

/-! ### A cycle -/

section Step

variable {s : Setting β ω} (w : ω) (hs : s.Common) (hc : s.CircuitChart) {C : Finset TreePath} {c : CycleSignals}
  (h : s.Settles ⟨C, false⟩ c)

theorem prepare_states (d : Document β) : (ChartToC.prepare d).states = (resortStates d).states := by
  rw [ChartToC.prepare, ChartToC.resortStates_eq]
  rfl

include h in
theorem Setting.Settles.signals : Inputs C (optimalTransitionSet (ChartToC.prepare s.chart) c.selection) c.next :=
  ⟨h.active, h.optimal, h.root⟩

include hs h in
theorem Setting.Settles.selected (hn : (resortStates s.chart).Nesting) (hC : (resortStates s.chart).Legal C) :
    optimalTransitionSet (ChartToC.prepare s.chart) c.selection = ∅ ∨
      ∃ e, (e = {} ∨ c.dequeued = some e) ∧ optimalTransitionSet (ChartToC.prepare s.chart) c.selection =
        (selectTransitions (FastMicroStep.init s.chart) s.callbacks C e w).transSet := by
  rcases selection_of_settled hn hC (hs.answers C) w hs.signals (hs.tests C c.dequeued h.known) h.inputs h.selection with ⟨-, -, heq⟩ | ⟨heq, -⟩
  · exact Or.inr ⟨{}, Or.inl rfl, heq⟩
  · cases hdeq : c.dequeued with
    | none =>
      rw [hdeq] at heq
      exact Or.inl heq
    | some e =>
      rw [hdeq] at heq
      exact Or.inr ⟨e, Or.inr rfl, heq⟩

include h in
/-- No top-level final state is active when the stepper is not stalled. -/
theorem Setting.Settles.running (hrun : ¬ c.stall = true) :
    ∀ f ∈ C, f ≠ [] → f.parent = [] → (resortStates s.chart).tag? f ≠ some .final := by
  intro f hf hne hpar htag
  have hσ : Satisfies c.next (assignments (resortStates s.chart) s.stray) := ChartToC.resortStates_eq s.chart ▸ h.next
  have hcompleted := (completed_signal h.signals hσ).mpr ⟨f, hf, hne, hpar, htag⟩
  exact hrun (by rw [CycleSignals.stall, hcompleted, Bool.or_true])

theorem not_completed_of_no_target {d : Document β} {Fresh : TreePath → Prop} {p : TreePath} :
    ¬ d.Completed (fun _ => False) Fresh p := by
  intro h
  induction h with
  | target h => exact h
  | child _ _ _ _ ih => exact ih
  | region _ _ _ ih => exact ih

include hc h in
theorem Setting.Settles.keeps (hC : (resortStates s.chart).Legal C) (hrun : ¬ c.stall = true)
    (hnone : optimalTransitionSet (ChartToC.prepare s.chart) c.selection = ∅) {p : TreePath}
    (hp : p ∈ (resortStates s.chart).states) : c.next (.stateNext p) = true ↔ p ∈ C := by
  have hσ : Satisfies c.next (assignments (resortStates s.chart) s.stray) := ChartToC.resortStates_eq s.chart ▸ h.next
  have hin := h.signals
  rw [hnone] at hin
  have hX : ∀ p, p ∈ (∅ : Finset TreePath) ↔
      p ∈ C ∧ ∃ t ∈ (∅ : Finset TransId), p ∈ (resortStates s.chart).getExitSet t := by simp
  have hS : ∀ t ∈ (∅ : Finset TransId), t ∈ postFixTransitions (resortStates s.chart) := by simp
  have hstays : ∀ {q}, Inactive C ∅ q ↔ q ∉ C := by simp [Inactive]
  by_cases hne : p = []
  · subst hne
    refine iff_of_true ((stateNext_root hin hσ).mpr ?_) hC.root
    intro hyp
    obtain ⟨f, hf, hne, hpar, htag⟩ := hyp
    exact h.running hrun f hf hne hpar htag
  · have hnot : ¬ c.next (.inCompleteEntrySet p) = true := by
      rw [inCompleteEntrySet_signal hin hσ hS hX hc.plain (by simp) ?_ (by simp) (by rw [hstays]; simpa using hC.root) hp]
      · simpa using not_completed_of_no_target
      · intro q x hq hx
        rw [hstays] at hq ⊢
        exact fun h' => hq (hC.ancestor x h' q hx)
    rw [stateNext_signal hin hσ hS hX hp hne, hstays, not_not, or_iff_right hnot]

include hc h in
/-- The next states for selected transitions are those behind the microstep. -/
theorem Setting.Settles.next_of_selected (hC : (resortStates s.chart).Legal C) (hrun : ¬ c.stall = true)
    {sel : FastMicroStep.Selection ω} (hsel : FastMicroStep.Selected (FastMicroStep.tables (resortStates s.chart)) C sel)
    (heq : optimalTransitionSet (ChartToC.prepare s.chart) c.selection = sel.transSet) {p : TreePath}
    (hp : p ∈ (resortStates s.chart).states) :
    c.next (.stateNext p) = true ↔
      p ∈ (sel.microstep (FastMicroStep.init s.chart) { configuration := C }).next (FastMicroStep.init s.chart) := by
  have hσ : Satisfies c.next (assignments (resortStates s.chart) s.stray) := ChartToC.resortStates_eq s.chart ▸ h.next
  have hin := h.signals
  rw [heq] at hin
  have hd := hc.plain
  have hactive : ∀ t ∈ sel.transSet, t ∈ postFixTransitions (resortStates s.chart) := fun t ht => (hsel.active t ht).1
  have hX := fun q => mem_exitSet_inter hsel (p := q)
  have hroot := root_active hC hsel
  have hfresh := (FastMicroStep.situation_of_selected hd.defaultChart (filled_of_legal hC) hsel).inactive_below
  have hexplicit := fun x => target_inactive hd hsel (s := x)
  obtain ⟨E, hE, hmem, hstates, hnext⟩ := exists_entrySet
    (H := FastMicroStep.rememberHistory (FastMicroStep.tables (resortStates s.chart)) C (sel.exitSet ∩ C) ∅) hd hC hsel
  refine Iff.trans ?_ (hnext p).symm
  by_cases hne : p = []
  · subst hne
    refine iff_of_true ((stateNext_root hin hσ).mpr ?_) (Or.inl hroot)
    intro hyp
    obtain ⟨f, hf, hne, hpar, htag⟩ := hyp
    exact h.running hrun f hf hne hpar htag
  rw [stateNext_signal hin hσ hactive hX hp hne, inCompleteEntrySet_signal hin hσ hactive hX hd
    (fun t ht => hc.targets t (hactive t ht)) hfresh hexplicit hroot hp, or_comm]
  -- What stays is next on both sides, and what does not is entered.
  by_cases hf : Inactive C (sel.exitSet ∩ C) p
  · rw [or_iff_right (not_not_intro hf), or_iff_right (not_not_intro hf)]
    exact (completed_iff_mem (fun q hq => hd.defaultTargets_child hq) hfresh hexplicit hE hmem hroot
      (fun q x hq hx => region_inactive hd hC hsel hq hx) hd.toGrammar.toNesting fun e he => hd.proper (hstates e he)).mpr
      (comesByItself_selected hd hc.legal hC hsel fun t ht => hc.ways t (hactive t ht)) p hf
  · exact iff_of_true (Or.inl hf) (Or.inl hf)

include hs hc h in
/-- An edge of the running stepper changes nothing when nothing is selected, and else it is a microstep. -/
theorem Setting.Settles.step (hC : (resortStates s.chart).Legal C) (hrun : ¬ c.stall = true) :
    (optimalTransitionSet (ChartToC.prepare s.chart) c.selection = ∅ ∧
        writeStateHandler (ChartToC.prepare s.chart) ⟨C, false⟩ c = ⟨C, false⟩) ∨
      ∃ e, (e = {} ∨ c.dequeued = some e) ∧
        (selectTransitions (FastMicroStep.init s.chart) s.callbacks C e w).transSet.Nonempty ∧
        optimalTransitionSet (ChartToC.prepare s.chart) c.selection =
          (selectTransitions (FastMicroStep.init s.chart) s.callbacks C e w).transSet ∧
        (resortStates s.chart).Legal (s.microstepFor w C e) ∧
        writeStateHandler (ChartToC.prepare s.chart) ⟨C, false⟩ c = ⟨s.microstepFor w C e, false⟩ := by
  have hnext : ∀ {C' : Finset TreePath}, (resortStates s.chart).Legal C' →
      (∀ p ∈ (resortStates s.chart).states, (c.next (.stateNext p) = true ↔ p ∈ C')) →
      ((ChartToC.prepare s.chart).states.filter fun p => c.next (.stateNext p)).toFinset = C' := by
    intro C' hC' hall
    ext p
    rw [List.mem_toFinset, List.mem_filter, prepare_states]
    constructor
    · exact fun hyp => (hall p hyp.1).mp hyp.2
    · exact fun hp => ⟨hC'.mem_states hp, (hall p (hC'.mem_states hp)).mpr hp⟩
  rw [writeStateHandler, if_neg hrun]
  by_cases hnone : optimalTransitionSet (ChartToC.prepare s.chart) c.selection = ∅
  · refine Or.inl ⟨hnone, ?_⟩
    rw [hnext hC fun p hp => h.keeps hc hC hrun hnone hp]
  · obtain ⟨e, he, heq⟩ := (h.selected w hs hc.plain.toNesting hC).resolve_left hnone
    rw [heq] at hnone
    have hselected := FastMicroStep.selectTransitions_selected (FastMicroStep.init s.chart) s.callbacks C e w
    have hlegal : (resortStates s.chart).Legal (s.microstepFor w C e) :=
      FastMicroStep.nextConfiguration_legal hc.legal (initialsFirst_resortStates s.chart)
        (FastMicroStep.region_of_selected hc.legal hselected hC) _
    refine Or.inr ⟨e, he, Finset.nonempty_iff_ne_empty.mpr hnone, heq, hlegal, ?_⟩
    rw [hnext hlegal fun p hp => h.next_of_selected hc hC hrun hselected heq hp]

end Step

/-! ### Behind a reset -/

section Reset

/-- The states completed from the root are those the interpreter enters first. -/
theorem completed_root_iff {d : Document β} {E : Finset TreePath} {Fresh : TreePath → Prop}
    (hchild : ∀ p, d.isCompound p = true → ∀ n ∈ d.defaultTargets p, d.ProperChild p n) (hfresh : ∀ p, Fresh p)
    (hE : d.EntersByDefault (fun _ => False) Fresh E) (hroot : [] ∈ E) {p : TreePath} :
    d.Completed (· = []) Fresh p ↔ p ∈ E := by
  constructor
  · intro h
    induction h with
    | target h => exact h ▸ hroot
    | @child p n _ _ hcomp hn ih =>
      refine hE.defaults p ih ?_ n hn
      rw [InForce]
      refine ⟨hcomp, hfresh p, fun _ h => h.elim, ?_⟩
      intro q hpq hq n' hn' hb
      have hle := (TreePath.prefix_parent_of_below hb).length_le
      rw [(hchild q hq.compound n' hn').2.1] at hle
      exact absurd hpq.length_lt (Nat.not_lt.mpr hle)
    | region _ hq hc ih => exact hE.regions _ ih hq _ hc
  · intro he
    induction hn : p.length using Nat.strong_induction_on generalizing p with
    | _ n ih =>
      by_cases hne : p = []
      · exact .target hne
      rcases hE.origin p he hne with ⟨t, ht, -⟩ | ⟨q, hqE, hq, hc⟩ | ⟨q, hqE, hq, hpq, m, hm, hpm⟩
      · exact ht.elim
      · exact .region (ih _ (hn ▸ hc.below.length_lt) hqE rfl) hq hc
      · have hchild' := hchild q hq.compound m hm
        have heq : m = p := by
          rcases TreePath.below_or_eq_of_prefix hpm with h | hb
          · exact h
          · have hle := (TreePath.prefix_parent_of_below hb).length_le
            rw [hchild'.2.1] at hle
            exact absurd hpq.length_lt (Nat.not_lt.mpr hle)
        exact .child (ih _ (hn ▸ hpq.length_lt) hqE rfl) (hfresh q) hq.compound (heq ▸ hm)

variable {s : Setting β ω} {c : CycleSignals} (h : s.Settles Registers.reset c)

include h

theorem Setting.Settles.optimal_reset : optimalTransitionSet (ChartToC.prepare s.chart) c.selection = ∅ := by
  refine Finset.eq_empty_of_forall_notMem fun t ht => ?_
  obtain ⟨hmem, hsel⟩ := List.mem_filter.mp (List.mem_toFinset.mp ht)
  have hvalue := h.selection (optimalTransition (resortStates s.chart) (ChartToC.prepare s.chart) s.strHash (eventTrie s.words) t)
    (List.mem_append_left _ (List.mem_map_of_mem hmem))
  have hactive := h.inputs.active ((ChartToC.prepare s.chart).transition t).source
  simp only [optimalTransition, hsel] at hvalue
  have hnone : c.selection (.stateActive ((ChartToC.prepare s.chart).transition t).source) = false := by
    rw [← Bool.not_eq_true, hactive]
    exact Finset.notMem_empty _
  rw [hnone, Bool.and_false, Bool.false_and, Bool.false_and] at hvalue
  cases hvalue

theorem Setting.Settles.inactive_reset (p : TreePath) : c.next (.stateActive p) = false := by
  rw [← Bool.not_eq_true, h.active]
  exact Finset.notMem_empty _

theorem Setting.Settles.unselected_reset (t : TransId) : c.next (.inOptimalTransitionSet t) = false := by
  rw [← Bool.not_eq_true, h.optimal, h.optimal_reset]
  exact Finset.notMem_empty _

theorem Setting.Settles.satisfied : Satisfies c.next (assignments (resortStates s.chart) s.stray) :=
  ChartToC.resortStates_eq s.chart ▸ h.next

theorem Setting.Settles.inEntrySet_reset {p : TreePath} (hp : p ∈ (resortStates s.chart).states) :
    c.next (.inEntrySet p) = c.next (.inCompleteEntrySet p) := by
  have heq := h.satisfied _ (by
    simp only [assignments, List.mem_append, writeEntrySet]
    exact Or.inl (Or.inl (Or.inl (Or.inl (Or.inr (List.mem_map_of_mem (a := p) hp))))))
  rw [heq, Bool.eq_iff_iff, eval_vand_iff]
  simp [h.inactive_reset]

theorem Setting.Settles.inCompleteEntrySetUp_reset {p : TreePath} (hp : p ∈ (resortStates s.chart).states) (hne : p ≠ []) :
    c.next (.inCompleteEntrySetUp p) = false := by
  have heq := h.satisfied _ (by
    simp only [assignments, List.mem_append, writeCompleteEntrySetUp]
    exact Or.inl (Or.inl (Or.inl (Or.inr (List.mem_map_of_mem (a := p)
      (List.mem_filter.mpr ⟨hp, decide_eq_true hne⟩))))))
  have hself : p ∉ ((ChartToC.machine (resortStates s.chart)).state p).children := by
    intro hmem
    have := (ChartToC.mem_stateInfo_children.mp hmem).2
    exact TreePath.not_below_self p (TreePath.below_of_parent_eq this.1 this.2)
  simp only at heq
  rw [heq, ← Bool.not_eq_true, eval_vor_iff]
  simp only [List.mem_cons, List.not_mem_nil, or_false, exists_eq_or_imp, exists_eq_left, hself, decide_false,
    List.filter_false, List.map_nil, ite_self, eval_vor_iff, false_and, exists_false]
  intro hyp
  obtain ⟨n, hn, hvalue⟩ := hyp
  obtain ⟨t, -, rfl⟩ := List.mem_map.mp hn
  rw [eval_line, h.unselected_reset] at hvalue
  cases hvalue

theorem Setting.Settles.descendantCompletion_reset (hd : (resortStates s.chart).PlainChart) {p : TreePath}
    (hp : p ∈ (resortStates s.chart).states) (hne : p ≠ []) :
    (∀ n ∈ descendantCompletion (resortStates s.chart) (ChartToC.machine (resortStates s.chart)) p, n.eval c.next = true) ↔
      c.next (.inCompleteEntrySet p.parent) = true ∧ ((resortStates s.chart).isParallel p.parent = true ∨
        (resortStates s.chart).isCompound p.parent = true ∧ p ∈ (resortStates s.chart).defaultTargets p.parent) := by
  have hchild : (resortStates s.chart).ProperChild p.parent p := ⟨hne, rfl, hd.proper hp hne⟩
  have hparent : p.parent ∈ (resortStates s.chart).states := mem_states_of_above hchild.below.1 hp
  by_cases hpar : (resortStates s.chart).isParallel p.parent = true
  · have hcomp : (resortStates s.chart).isCompound p.parent = false := by simp [isCompound, hpar]
    simp [descendantCompletion, hcomp, hpar]
  have hcomp : (resortStates s.chart).isCompound p.parent = true :=
    hd.toGrammar.isCompound_of_child hchild (mt isParallel_iff.mpr hpar)
  rw [descendantCompletion, if_pos hcomp]
  by_cases hdef : isDefault (resortStates s.chart) (ChartToC.machine (resortStates s.chart)) p = true
  · rw [if_pos hdef]
    simp only [List.mem_cons, forall_eq_or_imp, eval_line, h.inEntrySet_reset hparent, (isDefault_iff hd hcomp hchild).mp hdef,
      hpar, hcomp, and_true, Bool.false_eq_true, false_or]
    refine and_iff_left fun n hn => ?_
    obtain ⟨q, -, rfl⟩ := List.mem_map.mp hn
    rw [eval_vnot, Bool.not_eq_true', ← Bool.not_eq_true, eval_vand_iff]
    simp [h.inactive_reset]
  · rw [if_neg hdef]
    simp [hpar, mt (isDefault_iff hd hcomp hchild).mpr hdef]

/-- The first edge enters what is completed from the root. The induction is on the depth of the state. -/
theorem Setting.Settles.inCompleteEntrySet_reset (hd : (resortStates s.chart).PlainChart) {p : TreePath}
    (hp : p ∈ (resortStates s.chart).states) :
    c.next (.inCompleteEntrySet p) = true ↔ (resortStates s.chart).Completed (· = []) (Inactive ∅ ∅) p := by
  have hchildren := fun q hq => hd.defaultTargets_child (p := q) hq
  have hfresh : ∀ q, Inactive ∅ ∅ q := fun q => Or.inl (Finset.notMem_empty q)
  induction hn : p.length using Nat.strong_induction_on generalizing p with
  | _ n ih =>
    by_cases hne : p = []
    · subst hne
      exact iff_of_true h.root (.target rfl)
    have hparent := mem_states_of_above (TreePath.below_parent hne).1 hp
    have hq : c.next (.inCompleteEntrySet p.parent) = true ↔
        (resortStates s.chart).Completed (· = []) (Inactive ∅ ∅) p.parent :=
      ih p.parent.length (hn ▸ (TreePath.below_parent hne).length_lt) hparent rfl
    rw [inCompleteEntrySet_eq h.satisfied hp hne, h.inCompleteEntrySetUp_reset hp hne, h.descendantCompletion_reset hd hp hne, hq]
    constructor
    · intro hwhy
      obtain ⟨hcompl, hpar | ⟨hcomp, hmem⟩⟩ := hwhy.resolve_left Bool.false_ne_true
      · exact .region hcompl hpar ⟨hne, rfl, hd.proper hp hne⟩
      · exact .child hcompl (hfresh _) hcomp hmem
    · intro hcompl
      cases hcompl with
      | target heq => exact absurd heq hne
      | child hcompl _ hcomp hmem =>
        have hpar := (hchildren _ hcomp _ hmem).2.1
        subst hpar
        exact Or.inr ⟨hcompl, Or.inr ⟨hcomp, hmem⟩⟩
      | region hcompl hpar hc =>
        have heq := hc.2.1
        subst heq
        exact Or.inr ⟨hcompl, Or.inl hpar⟩

theorem Setting.Settles.stateNext_reset {p : TreePath} (hp : p ∈ (resortStates s.chart).states) (hne : p ≠ []) :
    c.next (.stateNext p) = c.next (.inCompleteEntrySet p) := by
  have heq := h.satisfied _ (by
    simp only [assignments, List.mem_append, writeActiveStateNplusOne]
    exact Or.inl (Or.inr (List.mem_map_of_mem (a := p) hp)))
  simp only [if_neg hne] at heq
  rw [heq, Bool.eq_iff_iff, eval_vor_iff]
  simp [h.inactive_reset]

theorem Setting.Settles.stateNext_root_reset : c.next (.stateNext []) = true := by
  have heq := h.satisfied _ (by
    simp only [assignments, List.mem_append, writeActiveStateNplusOne]
    exact Or.inl (Or.inr (List.mem_map_of_mem (a := ([] : TreePath)) (resortStates s.chart).root_mem_states)))
  have hcompleted := h.satisfied ⟨.completed, _⟩ (by
    simp only [assignments, List.mem_append]
    exact Or.inr (List.mem_singleton.mpr rfl))
  simp only [if_true] at heq
  simp only at hcompleted
  rw [heq, eval_vnot, eval_line, hcompleted, Bool.not_eq_true', ← Bool.not_eq_true, eval_vor_iff]
  intro hyp
  obtain ⟨n, hn, hvalue⟩ := hyp
  obtain ⟨f, -, rfl⟩ := List.mem_map.mp hn
  rw [eval_line, h.inactive_reset] at hvalue
  cases hvalue

omit h in
theorem Setting.CircuitChart.start_legal (hc : s.CircuitChart) :
    (resortStates s.chart).Legal (s.startMicrostep.next (FastMicroStep.init s.chart)) :=
  FastMicroStep.nextConfiguration_legal hc.legal (initialsFirst_resortStates s.chart)
    (FastMicroStep.region_start hc.legal (initialsFirst_resortStates s.chart)) ∅

omit h in
theorem Setting.CircuitChart.mem_start_iff (hc : s.CircuitChart) {p : TreePath} :
    p ∈ s.startMicrostep.next (FastMicroStep.init s.chart) ↔
      (resortStates s.chart).Completed (· = []) (Inactive ∅ ∅) p := by
  have hd := hc.plain
  have hexplicit : s.startMicrostep.Explicit (resortStates s.chart) = fun _ => False := by
    funext t
    simp [FastMicroStep.Microstep.Explicit, Setting.startMicrostep]
  have hW : FastMicroStep.Walk (resortStates s.chart) (fun _ => False) (Inactive ∅ ∅)
      (s.startMicrostep.entry (FastMicroStep.tables (resortStates s.chart))).entrySet [] :=
    FastMicroStep.establishEntrySet_start hd.defaultChart hd.namesSpelledOut (initialsFirst_resortStates s.chart)
  have hsituation : FastMicroStep.Situation (resortStates s.chart) ∅ ∅ (fun _ => False) :=
    ⟨⟨by simp, by simp, by simp⟩, Finset.Subset.refl _, by simp, by simp⟩
  have hmem : ∀ q, q ∈ s.startMicrostep.next (FastMicroStep.init s.chart) ↔
      q ∈ (s.startMicrostep.entry (FastMicroStep.tables (resortStates s.chart))).entrySet := by
    intro q
    refine (FastMicroStep.mem_next_iff hd.defaultChart (m := s.startMicrostep) (hexplicit ▸ hsituation)
      (hexplicit ▸ hW)).trans (or_iff_right ?_)
    exact not_not_intro (Or.inl (Finset.notMem_empty q))
  rw [hmem p]
  exact (completed_root_iff (fun q hq => hd.defaultTargets_child hq) (fun q => Or.inl (Finset.notMem_empty q)) hW.enters
    ((hmem []).mp hc.start_legal.root)).symm

/-- The first edge behind a reset enters the document. -/
theorem Setting.Settles.start (hc : s.CircuitChart) (hrun : ¬ c.stall = true) :
    writeStateHandler (ChartToC.prepare s.chart) Registers.reset c =
      ⟨s.startMicrostep.next (FastMicroStep.init s.chart), false⟩ := by
  rw [writeStateHandler, if_neg hrun]
  suffices hall : ((ChartToC.prepare s.chart).states.filter fun p => c.next (.stateNext p)).toFinset =
      s.startMicrostep.next (FastMicroStep.init s.chart) by rw [hall]
  ext p
  have hnext : ∀ p ∈ (resortStates s.chart).states,
      (c.next (.stateNext p) = true ↔ p ∈ s.startMicrostep.next (FastMicroStep.init s.chart)) := by
    intro p hp
    rw [hc.mem_start_iff]
    by_cases hne : p = []
    · subst hne
      exact iff_of_true h.stateNext_root_reset (.target rfl)
    · rw [h.stateNext_reset hp hne, h.inCompleteEntrySet_reset hc.plain hp]
  rw [List.mem_toFinset, List.mem_filter, prepare_states]
  constructor
  · exact fun hyp => (hnext p hyp.1).mp hyp.2
  · exact fun hp => ⟨hc.start_legal.mem_states hp, (hnext p (hc.start_legal.mem_states hp)).mpr hp⟩

end Reset

/-! ### Runs -/

theorem run_append (s : Setting β ω) (r : Registers) (l : List CycleSignals) (c : CycleSignals) :
    s.run r (l ++ [c]) = writeStateHandler (ChartToC.prepare s.chart) (s.run r l) c := List.foldl_append

theorem settledRun_append {s : Setting β ω} {r : Registers} {l : List CycleSignals} {c : CycleSignals} :
    s.SettledRun r (l ++ [c]) ↔ s.SettledRun r l ∧ s.Settles (s.run r l) c := by
  induction l generalizing r with
  | nil => simp [Setting.SettledRun, Setting.run]
  | cons c' l ih => simp only [List.cons_append, Setting.SettledRun, ih, Setting.run, List.foldl_cons, and_assoc]

/-- From a reset on, whatever the inputs are and in whichever of several solutions the circuit settles, every edge does what
the interpreter does for the same transitions, and the active states are a legal configuration from the first edge on that is
not stalled. -/
theorem run_follows (s : Setting β ω) (w : ω) (hs : s.Common) (hc : s.CircuitChart) (l : List CycleSignals)
    (hl : s.SettledRun Registers.reset l) :
    ∃ reached, s.Follows w l reached ∧ s.run Registers.reset l = Setting.registersFor reached ∧
      ∀ C, reached = some C → (resortStates s.chart).Legal C := by
  induction l using List.reverseRecOn with
  | nil => exact ⟨none, .reset, rfl, fun _ h => nomatch h⟩
  | append_singleton l c ih =>
    obtain ⟨hl, hsettles⟩ := settledRun_append.mp hl
    obtain ⟨reached, hfollows, hrun, hlegal⟩ := ih hl
    rw [run_append, hrun]
    rw [hrun] at hsettles
    by_cases hstall : c.stall = true
    · refine ⟨reached, .stalled hfollows hstall, ?_, hlegal⟩
      rw [writeStateHandler, if_pos hstall]
    have hgoes : c.stall = false := Bool.not_eq_true _ ▸ hstall
    cases reached with
    | none =>
      refine ⟨_, .start hfollows hgoes, hsettles.start hc hstall, ?_⟩
      intro C hC
      obtain rfl := Option.some.inj hC
      exact hc.start_legal
    | some C =>
      rcases hsettles.step w hs hc (hlegal C rfl) hstall with ⟨hnone, heq⟩ | ⟨e, he, hne, hsel, hnext, heq⟩
      · exact ⟨some C, .waits hfollows hgoes hnone, heq, hlegal⟩
      · refine ⟨_, .takes hfollows hgoes he hne hsel, heq, ?_⟩
        intro C' hC'
        obtain rfl := Option.some.inj hC'
        exact hnext

def parallelSetting : Setting Unit (List Event) where
  chart := toParallel
  ask _ := FastMicroStep.byName
  callbacks := FastMicroStep.externalEvents
  words := [['e']]
  strHash _ := 0
  stray _ _ := false

theorem parallelSetting_common : parallelSetting.Common where
  answers C := FastMicroStep.byName_given C
  signals := by
    rw [properSignals_iff]
    decide +kernel
  tests C dequeued hknown := by
    have hname : ∀ e, dequeued = some e → e.name = "e" := by
      intro e he
      have hmem : e.name.toList ∈ (eventTrie [['e']]).words := (hknown e he).2
      have hwords : (eventTrie [['e']]).words = ["e".toList] := by decide +kernel
      rw [hwords, List.mem_singleton] at hmem
      exact String.toList_inj.mp hmem
    have hevent : ∀ t ∈ postFixTransitions (resortStates toParallel),
        ∀ event ∈ ((resortStates toParallel).trans? t).bind (·.event), event = "e" := by decide +kernel
    refine ⟨?_, hknown, ?_⟩
    · intro t ht h
      exact absurd (hevent t ht "" h) (by decide)
    · intro e he t ht event hev
      obtain rfl := hevent t ht event hev
      have hpasses : "e".toList ∈ vhdlEvents (eventTrie [['e']]) "e".toList := by decide +kernel
      refine iff_of_true ?_ ?_
      · rw [hname e he]
        exact hpasses
      · exact decide_eq_true (hname e he)

theorem toParallel_legalChart : (resortStates toParallel).LegalChart where
  toGrammar := toParallel_plainChart.toGrammar
  histories := toParallel_plainChart.histories
  uniqueIds := toParallel_plainChart.uniqueIds
  transitionSources := by decide +kernel
  transitionTargets := by
    have h : ∀ p ∈ (resortStates toParallel).states, ∀ t ∈ (resortStates toParallel).transIds p,
        (∀ x ∈ (resortStates toParallel).getTargetStates t, (resortStates toParallel).ProperState x) ∧
          ∀ x ∈ (resortStates toParallel).getTargetStates t,
            x ∈ ({[], [1], [1, 0], [1, 0, 1], [1, 1], [1, 1, 0]} : Finset TreePath) := by decide +kernel
    intro p hp t ht
    exact ⟨(h p hp t ht).1, _, by decide +kernel, (h p hp t ht).2⟩
  initialTargets := by decide +kernel
  initialAttr := by
    intro p hp hne ids hids
    have h : ∀ p ∈ (resortStates toParallel).states, p ≠ [] →
        ((resortStates toParallel).elem? p).bind (·.initial) = none ∨ p = [1, 0] := by decide +kernel
    rcases h p hp hne with h | rfl
    · rw [h] at hids
      cases hids
    · have hy : ((resortStates toParallel).elem? [1, 0]).bind (·.initial) = some ["y"] := by decide +kernel
      rw [hy] at hids
      cases hids
      exact ⟨"y", [1, 0, 1], rfl, by decide +kernel, by decide +kernel⟩
  rootAttr := nofun

theorem parallelSetting_circuitChart : parallelSetting.CircuitChart where
  plain := toParallel_plainChart
  legal := toParallel_legalChart
  targets := by decide +kernel
  ways := by
    have h : ∀ t ∈ postFixTransitions (resortStates toParallel), (resortStates toParallel).getTransitionDomain t = some [] ∧
        (resortStates toParallel).getTargetStates t = [[1]] := by decide +kernel
    intro t ht D hD
    obtain ⟨hroot, htargets⟩ := h t ht
    obtain rfl := Option.some.inj (hroot.symm.trans hD)
    -- Between the root and the target there is nothing.
    have hbetween : ∀ c : TreePath, c <+: [1] → c.Below [] → c = [1] := by
      intro c hc hb
      rcases TreePath.below_or_eq_of_prefix hc with h | h
      · exact h.symm
      · exact absurd (List.prefix_nil.mp (TreePath.prefix_parent_of_below h)) (TreePath.below_nil.mp hb)
    change (resortStates toParallel).ComesByItself (· ∈ (resortStates toParallel).getTargetStates t) (·.Below [])
    rw [htargets]
    constructor
    · intro x hx c hc hb
      obtain rfl := List.mem_singleton.mp hx
      exact Or.inl (List.mem_singleton.mpr (hbetween c hc hb))
    · intro x hx p hxp hb
      obtain rfl := List.mem_singleton.mp hx
      obtain rfl := hbetween p hxp.1 hb
      exact absurd hxp (TreePath.not_below_self _)

def enterSignals : Signal → Bool
  | .inCompleteEntrySet p | .inEntrySet p | .stateNext p => p ∈ ([[], [0]] : List TreePath)
  | _ => false

/-- The document is entered, and in the next cycle the event is there. -/
def parallelRun : List CycleSignals :=
  [{ en := true
     dequeued := none
     selection := settledSignals (resortStates toParallel) FastMicroStep.byName (fun _ => 0) ∅ none true false ∅
     next := enterSignals },
    { en := true
      dequeued := some { name := "e" }
      selection := settledSignals (resortStates toParallel) FastMicroStep.byName (fun _ => 0) {[], [0]} (some { name := "e" })
        false false {([0], 0)}
      next := toParallelSignals }]

theorem parallelRun_settled : parallelSetting.SettledRun Registers.reset parallelRun := by
  have hfirst : optimalTransitionSet (ChartToC.prepare toParallel) (settledSignals (resortStates toParallel) FastMicroStep.byName
      (fun _ => 0) ∅ none true false ∅) = ∅ := by decide +kernel
  have hsecond : optimalTransitionSet (ChartToC.prepare toParallel) (settledSignals (resortStates toParallel) FastMicroStep.byName
      (fun _ => 0) {[], [0]} (some { name := "e" }) false false {([0], 0)}) = {([0], 0)} := by decide +kernel
  have hedge : writeStateHandler (ChartToC.prepare toParallel) Registers.reset (parallelRun.head (by simp [parallelRun])) =
      ⟨{[], [0]}, false⟩ := by
    have hstates : ((ChartToC.prepare toParallel).states.filter fun p => enterSignals (.stateNext p)).toFinset = {[], [0]} := by
      decide +kernel
    rw [writeStateHandler, if_neg (by simp [parallelRun, CycleSignals.stall, enterSignals])]
    exact congrArg (Registers.mk · false) hstates
  refine ⟨?_, ?_, trivial⟩
  · exact
      { known := nofun
        inputs := settledSignals_inputs _ true false ∅
        selection := by
          unfold Settled
          decide +kernel
        active := by simp [enterSignals, Registers.reset]
        optimal := by
          intro t
          change enterSignals (.inOptimalTransitionSet t) = true ↔ t ∈ optimalTransitionSet (ChartToC.prepare toParallel) _
          rw [hfirst]
          simp [enterSignals]
        root := rfl
        next := by
          unfold Satisfies
          decide +kernel }
  · change parallelSetting.Settles (writeStateHandler (ChartToC.prepare toParallel) Registers.reset
      (parallelRun.head (by simp [parallelRun]))) _
    rw [hedge]
    exact
      { known := by
          rintro _ ⟨⟩
          exact ⟨by decide, by decide +kernel⟩
        inputs := settledSignals_inputs _ false false {([0], 0)}
        selection := by
          unfold Settled
          decide +kernel
        active := by simp [toParallelSignals]
        optimal := by
          intro t
          change toParallelSignals (.inOptimalTransitionSet t) = true ↔ t ∈ optimalTransitionSet (ChartToC.prepare toParallel) _
          rw [hsecond]
          simp [toParallelSignals]
        root := rfl
        next := by
          unfold Satisfies
          decide +kernel }

/-- Two edges behind a reset the parallel is active. -/
theorem run_follows_parallel :
    (∃ reached, parallelSetting.Follows [] parallelRun reached ∧
        parallelSetting.run Registers.reset parallelRun = Setting.registersFor reached ∧
        ∀ C, reached = some C → (resortStates toParallel).Legal C) ∧
      (parallelSetting.run Registers.reset parallelRun).stateActive = {[], [1], [1, 0], [1, 0, 1], [1, 1], [1, 1, 0]} :=
  ⟨run_follows parallelSetting [] parallelSetting_common parallelSetting_circuitChart parallelRun parallelRun_settled,
    by decide +kernel⟩

end ChartToVHDL

end Uscxml
