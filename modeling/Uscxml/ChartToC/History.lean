import Uscxml.ChartToC.Effects
import Uscxml.ChartToC.HistoryCompletion
import Uscxml.FastMicroStep.History

/-!
# What histories restore in the generated code

The generated code keeps the records of all histories in one bit set as the interpreter does, but the completions that
`setHistoryCompletion` writes share no states, so that no record is lost to another history. The price is paid by the
histories below the parent of a deep one: they stand for nothing, hence never record anything, and take their default
transition whatever was active when their parent was left.
-/

namespace Uscxml

namespace ChartToC

open Document
open FastMicroStep (Entry Microstep ExitLog HistoryTables recorded)

variable {β ω : Type}

/-! ### Runs with a log of exits -/

def logAfter (M : Machine) (f : Functions ω) (log : ExitLog) (c : Ctx ω) : ExitLog :=
  match microstepOf M f c with
  | some m => log.record m
  | none => log

/-- The runs all of whose passes meet a condition, with the log of their exits. -/
inductive LoggedRun (M : Machine) (f : Functions ω) (Ok : Ctx ω → ExitLog → Prop) : Ctx ω → ExitLog → Prop where
  | init (w : ω) : LoggedRun M f Ok { env := w } fun _ => none
  | pass {c : Ctx ω} {log : ExitLog} : LoggedRun M f Ok c log → Ok c log →
      LoggedRun M f Ok (onePass M f c) (logAfter M f log c)
  | environment {c : Ctx ω} {log : ExitLog} (w : ω) : LoggedRun M f Ok c log → LoggedRun M f Ok { c with env := w } log

def loggedPasses (M : Machine) (f : Functions ω) (n : Nat) (x : Ctx ω × ExitLog) : Ctx ω × ExitLog :=
  (fun x => (onePass M f x.1, logAfter M f x.2 x.1))^[n] x

theorem LoggedRun.passes {M : Machine} {f : Functions ω} {Ok : Ctx ω → ExitLog → Prop} {x : Ctx ω × ExitLog}
    (h : LoggedRun M f Ok x.1 x.2) (n : Nat)
    (hok : ∀ k < n, Ok (loggedPasses M f k x).1 (loggedPasses M f k x).2) :
    LoggedRun M f Ok (loggedPasses M f n x).1 (loggedPasses M f n x).2 := by
  induction n with
  | zero => exact h
  | succ n ih =>
    simp only [loggedPasses, Function.iterate_succ_apply']
    exact .pass (ih fun k hk => hok k (Nat.lt_succ_of_lt hk)) (hok n n.lt_succ_self)

/-- `E'` holds, beyond `E`, exactly the states to enter because of `h`: what was active at the last exit of its parent
(nested histories may have been added as well, which are no states to enter), and else the targets of its default
transition, some of them with their ancestors. -/
def EnteredBecauseOf (d : Document β) (h : TreePath) (log : ExitLog) (E E' : Finset TreePath) : Prop :=
  match log h.parent with
  | some C => E'.filter (d.isHistory · = false) = (E ∪ recorded d h C).filter (d.isHistory · = false)
  | none => E ∪ (transition d (h, 0)).target ⊆ E' ∧
      ∀ x ∈ E', x ∈ E ∨ ∃ t ∈ (transition d (h, 0)).target, x <+: t

instance (d : Document β) (h : TreePath) (log : ExitLog) (E E' : Finset TreePath) :
    Decidable (EnteredBecauseOf d h log E E') :=
  match hlog : log h.parent with
  | some C =>
    decidable_of_iff (E'.filter (d.isHistory · = false) = (E ∪ recorded d h C).filter (d.isHistory · = false))
      (by rw [EnteredBecauseOf, hlog])
  | none =>
    decidable_of_iff (E ∪ (transition d (h, 0)).target ⊆ E' ∧
      ∀ x ∈ E', x ∈ E ∨ ∃ t ∈ (transition d (h, 0)).target, x <+: t) (by rw [EnteredBecauseOf, hlog])

/-- Every history in the entry set of the microstep restores what it should. -/
def RestoresHistories (d : Document β) (m : Microstep) (log : ExitLog) : Prop :=
  ∀ h ∈ (m.entry (machine d).tables).entrySet, d.isHistory h = true →
    h ∈ (m.before (machine d).tables h).entrySet ∧
      EnteredBecauseOf d h log (m.before (machine d).tables h).entrySet (m.behind (machine d).tables h).entrySet

instance (d : Document β) (m : Microstep) (log : ExitLog) : Decidable (RestoresHistories d m log) :=
  inferInstanceAs (Decidable (∀ h ∈ _, _ → _ ∧ _))

/-! ### The condition -/

/-- Every history has a default transition and holds no state, as no `<initial>` does. A history that an `initial`
attribute, an `<initial>` or the default transition of a history leads to stands behind the element that leads to it. -/
structure HistoryChart (d : Document β) : Prop where
  root : d.tag? [] ≠ some .history
  default : ∀ h ∈ d.states, d.isHistory h = true → d.transitionsAt h ≠ []
  leaf : ∀ p ∈ d.states, p ≠ [] → d.tag? p.parent ≠ some .history ∧ d.tag? p.parent ≠ some .initial
  finalAttr : ∀ h ∈ d.states, d.isHistory h = true → (d.elem? h).any (·.finalAttr) = false
  completion : ∀ j ∈ d.states, ∀ x ∈ (stateInfo d j).completion, d.isHistory x = true → j < x
  target : ∀ j ∈ d.states, d.isHistory j = true ∨ d.tag? j = some .initial → ∀ t ∈ d.transIds j,
    ∀ x ∈ (transition d t).target, d.isHistory x = true → j < x

/-- A history below the parent of a deep one is entered only if its parent was never exited. -/
def CoveredAreFresh (d : Document β) (m : Microstep) (log : ExitLog) : Prop :=
  ∀ h ∈ d.states, d.isHistory h = true → h ∈ (m.entry (machine d).tables).entrySet → Covered d h → log h.parent = none

/-- The exited parents of the other histories have active states to record. -/
def RecordsSomething (d : Document β) (m : Microstep) : Prop :=
  ∀ h ∈ d.states, d.isHistory h = true → ¬ Covered d h → h.parent ∈ m.exitSet → ∃ x ∈ m.configuration, StandsFor d h x

/-- A history whose parent was never exited is entered while its parent is not active. -/
def EntersFromOutside (d : Document β) (m : Microstep) (log : ExitLog) : Prop :=
  ∀ h ∈ d.states, d.isHistory h = true → h ∈ (m.entry (machine d).tables).entrySet → log h.parent = none →
    h.parent ∉ m.configuration

instance (d : Document β) (m : Microstep) (log : ExitLog) : Decidable (CoveredAreFresh d m log) :=
  inferInstanceAs (Decidable (∀ h ∈ _, _ → _ → _ → _ = _))

instance (d : Document β) (m : Microstep) : Decidable (RecordsSomething d m) :=
  inferInstanceAs (Decidable (∀ h ∈ _, _ → _ → _ → ∃ x ∈ _, _))

instance (d : Document β) (m : Microstep) (log : ExitLog) : Decidable (EntersFromOutside d m log) :=
  inferInstanceAs (Decidable (∀ h ∈ _, _ → _ → _ → _ ∉ _))

def KeepsRecords (d : Document β) (f : Functions ω) (c : Ctx ω) (log : ExitLog) : Prop :=
  ∀ m ∈ microstepOf (machine d) f c,
    CoveredAreFresh d m (log.record m) ∧ RecordsSomething d m ∧ EntersFromOutside d m (log.record m)

instance (d : Document β) (f : Functions ω) (c : Ctx ω) (log : ExitLog) : Decidable (KeepsRecords d f c log) :=
  inferInstanceAs (Decidable (∀ m ∈ _, _ ∧ _ ∧ _))

/-! ### The tables -/

section Bits

variable {d : Document β}

theorem HistoryChart.pseudoFirst {d : Document β} (hd : HistoryChart (resortStates d)) : PseudoFirst (resortStates d) :=
  pseudoFirst_resortStates d hd.root hd.leaf

theorem isHistoryType_stateType (hd : HistoryChart d) {h : TreePath} (hh : h ∈ d.states) :
    FastMicroStep.isHistoryType (stateType d h) = d.isHistory h := by
  cases hist : d.isHistory h with
  | true =>
    have htag := isHistory_iff.mp hist
    have hfinal : d.isFinal h = false := (isFinal_of_isHistory hist).trans (hd.finalAttr h hh hist)
    rw [stateType, if_neg (by simp [htag]), hfinal, hist]
    simp only [Bool.false_eq_true, if_false, if_true]
    split <;> rfl
  | false =>
    rw [stateType, hist]
    split
    · rfl
    split
    · rfl
    simp only [Bool.false_eq_true, if_false]
    split
    · rfl
    split <;> rfl

theorem tag_of_stateType_initial {p : TreePath} (h : stateType d p = .initial) : d.tag? p = some .initial := by
  rw [stateType] at h
  split at h
  · rename_i htag
    exact htag.2
  split at h
  · cases h
  split at h
  · split at h <;> cases h
  split at h
  · cases h
  split at h <;> cases h

theorem HistoryChart.tables (hd : HistoryChart d) : HistoryTables d (machine d).tables where
  states := rfl
  parent _ := rfl
  ancestors _ _ hx := (mem_stateInfo_ancestors.mp hx).2
  type _ hh := isHistoryType_stateType hd hh
  leaf p hp hne := by
    have := (hd.leaf p hp hne).1
    rwa [← Bool.not_eq_true, isHistory_iff]
  completion := hd.completion
  target j hj hkind t ht hsource := by
    have hmem : t ∈ d.transIds j := by
      have := FastMicroStep.mem_postFixTransitions.mp ht
      rw [show t.1 = j from hsource] at this
      exact List.mem_map.mpr ⟨t.2, List.mem_range.mpr this, by rw [← hsource]; rfl⟩
    refine hd.target j hj ?_ t hmem
    rcases hkind with hkind | hkind
    · exact Or.inl ((isHistoryType_stateType hd hj).symm.trans hkind)
    · exact Or.inr (tag_of_stateType_initial hkind)

theorem mem_completion_iff (hp : PseudoFirst d) {h x : TreePath} (hist : d.isHistory h = true) :
    x ∈ (stateInfo d h).completion ↔ Completes d h x := by
  have hlist : completion d h = (historyCompletion d h).map some := by rw [completion, if_pos hist]
  simp only [stateInfo, hlist, List.mem_toFinset, List.mem_filter, List.mem_map, Option.some.injEq, exists_eq_right,
    decide_eq_true_iff, mem_historyCompletion hp hist]
  exact ⟨fun hx => hx.2, fun hx => ⟨hx.2.1, hx⟩⟩

/-- The bits hold of every history what the log says, except of those that stand for nothing. -/
structure Records (d : Document β) (history : Finset TreePath) (log : ExitLog) : Prop where
  fresh : ∀ h, d.isHistory h = true → log h.parent = none → ∀ x ∈ (stateInfo d h).completion, x ∉ history
  kept : ∀ h, d.isHistory h = true → ¬ Covered d h → ∀ C, log h.parent = some C →
    (∀ x ∈ (stateInfo d h).completion, (x ∈ history ↔ x ∈ C)) ∧ ∃ x ∈ C, StandsFor d h x
  proper : ∀ p C, log p = some C → ∀ x ∈ C, x ∈ d.states ∧ d.isHistory x = false

/-- Another record is not disturbed by an exit, because histories of different parents share no states. -/
theorem mem_rememberHistory_of_stays (hd : HistoryChart d) (hp : PseudoFirst d) {C X H : Finset TreePath} {h x : TreePath}
    (hist : d.isHistory h = true) (hout : h.parent ∉ X) (hx : x ∈ (stateInfo d h).completion) :
    x ∈ FastMicroStep.rememberHistory (machine d).tables C X H ↔ x ∈ H := by
  refine FastMicroStep.mem_rememberHistory_of_kept hd.tables ?_
  intro h' hist' hin hx'
  obtain ⟨hcov, hstands⟩ := (mem_completion_iff hp hist).mp hx
  obtain ⟨hcov', hstands'⟩ := (mem_completion_iff hp hist').mp hx'
  have hne : h.parent ≠ h'.parent := fun heq => hout (heq ▸ hin)
  exact absurd hstands' fun hstands' => StandsFor.disjoint hist hist' hcov hcov' hne hstands hstands'

theorem Records.remember (hd : HistoryChart d) (hp : PseudoFirst d) {m : Microstep} {H : Finset TreePath} {log : ExitLog}
    (h : Records d H log)
    (hm : m.history = FastMicroStep.rememberHistory (machine d).tables m.configuration m.exitSet H)
    (hC : ∀ x ∈ m.configuration, x ∈ d.states ∧ d.isHistory x = false) (hactive : RecordsSomething d m) :
    Records d m.history (log.record m) := by
  refine ⟨?_, ?_, ?_⟩
  · intro h' hist hlog x hx
    rw [ExitLog.record] at hlog
    split at hlog
    · cases hlog
    · rename_i hout
      rw [hm, mem_rememberHistory_of_stays hd hp hist hout hx]
      exact h.fresh h' hist hlog x hx
  · intro h' hist hcov C hlog
    rw [ExitLog.record] at hlog
    split at hlog
    · rename_i hin
      cases hlog
      refine ⟨fun x hx => ?_, hactive h' (mem_states_of_isHistory hist) hist hcov hin⟩
      rw [hm]
      exact FastMicroStep.mem_rememberHistory_of_exited hd.tables hist hin hx
    · rename_i hout
      obtain ⟨hbits, hsome⟩ := h.kept h' hist hcov C hlog
      refine ⟨fun x hx => ?_, hsome⟩
      rw [hm, mem_rememberHistory_of_stays hd hp hist hout hx]
      exact hbits x hx
  · intro p C hlog
    rw [ExitLog.record] at hlog
    split at hlog
    · cases hlog
      exact hC
    · exact h.proper p C hlog

end Bits

/-! ### The walk over the entry set -/

section Restores

variable {d : Document β} (hd : HistoryChart d)

include hd

theorem find_default {h : TreePath} (hh : h ∈ d.states) (hist : d.isHistory h = true) :
    ((machine d).tables.transitions.find? fun t => ((machine d).tables.trans t).source = h) = some (h, 0) :=
  FastMicroStep.find_transitionsAt (hd.default h hh hist)

theorem mem_addNestedHistories {j x : TreePath} (hx : d.isHistory x = false) (E : Finset TreePath) :
    x ∈ FastMicroStep.addNestedHistories (machine d).tables j E ↔ x ∈ E := by
  rw [FastMicroStep.addNestedHistories]
  refine List.foldl_invariant (fun E' : Finset TreePath => x ∈ E' ↔ x ∈ E) ?_ Iff.rfl
  intro E' i hi hE'
  split
  · refine List.foldl_invariant (fun E'' : Finset TreePath => x ∈ E'' ↔ x ∈ E) ?_ hE'
    intro E'' k hk hE''
    split
    · rename_i htype
      have hne : x ≠ k := by
        rintro rfl
        rw [hd.tables.type x (FastMicroStep.mem_behind.mp hk).1, hx] at htype
        cases htype
      rw [Finset.mem_insert, hE'']
      exact or_iff_right hne
    · exact hE''
  · exact hE'

/-- A history whose bits agree with the log enters what it should. -/
theorem descend_history (hp : PseudoFirst d) {m : Microstep} {log : ExitLog} {h : TreePath} (hist : d.isHistory h = true)
    (hr : Records d m.history log) (hcovered : Covered d h → log h.parent = none)
    (hout : log h.parent = none → h.parent ∉ m.configuration) {e : Entry} (hmem : h ∈ e.entrySet) :
    EnteredBecauseOf d h log e.entrySet
      (FastMicroStep.descend (machine d).tables m.configuration m.exitSet m.history e h).entrySet := by
  have hdisjoint : Disjoint ((machine d).tables.state h).completion m.history ↔
      ∀ x ∈ (stateInfo d h).completion, x ∉ m.history := Finset.disjoint_left
  rw [FastMicroStep.descend_eq_enterHistory hd.tables hist hmem, EnteredBecauseOf]
  cases hlog : log h.parent with
  | some C =>
    have hcov : ¬ Covered d h := by
      intro hcov
      rw [hcovered hcov] at hlog
      cases hlog
    obtain ⟨hbits, y, hyC, hy⟩ := hr.kept h hist hcov C hlog
    have hcond : ¬ (Disjoint ((machine d).tables.state h).completion m.history ∧
        ((machine d).tables.state h).parent ∉ m.configuration) := by
      rintro ⟨hdis, -⟩
      have hmem := (mem_completion_iff hp hist).mpr ⟨hcov, hy⟩
      exact hdisjoint.mp hdis y hmem ((hbits y hmem).mpr hyC)
    rw [FastMicroStep.enterHistory, if_neg hcond]
    simp only
    ext x
    rw [Finset.mem_filter, Finset.mem_filter]
    refine and_congr_left ?_
    intro hx
    have hrestored : x ∈ e.entrySet ∪ (((machine d).tables.state h).completion ∩ m.history) ↔
        x ∈ e.entrySet ∪ recorded d h C := by
      rw [Finset.mem_union, Finset.mem_union, Finset.mem_inter, recorded, Finset.mem_filter]
      refine or_congr_right ?_
      constructor
      · rintro ⟨hc, hbit⟩
        exact ⟨(hbits x hc).mp hbit, ((mem_completion_iff hp hist).mp hc).2.2.2⟩
      · rintro ⟨hC, hrel⟩
        have hc : x ∈ (stateInfo d h).completion :=
          (mem_completion_iff hp hist).mpr ⟨hcov, (hr.proper h.parent C hlog x hC).1, hx, hrel⟩
        exact ⟨hc, (hbits x hc).mpr hC⟩
    split
    · exact (mem_addNestedHistories hd hx _).trans hrestored
    · exact hrestored
  | none =>
    have hcond : Disjoint ((machine d).tables.state h).completion m.history ∧
        ((machine d).tables.state h).parent ∉ m.configuration := ⟨hdisjoint.mpr (hr.fresh h hist hlog), hout hlog⟩
    rw [FastMicroStep.enterHistory, if_pos hcond]
    exact FastMicroStep.enterDefault_exact hd.tables (find_default hd (mem_states_of_isHistory hist) hist) e

theorem restoresHistories_of_records (hp : PseudoFirst d) {m : Microstep} {log : ExitLog} (hr : Records d m.history log)
    (hcovered : CoveredAreFresh d m log) (hout : EntersFromOutside d m log) : RestoresHistories d m log := by
  intro h hmem hist
  have hh := mem_states_of_isHistory hist
  have hbefore := FastMicroStep.mem_before hd.tables hist hmem
  exact ⟨hbefore, descend_history hd hp hist hr (hcovered h hh hist hmem) (hout h hh hist hmem) hbefore⟩

end Restores

/-! ### Runs -/

section Passes

variable (M : Machine) (f : Functions ω)

theorem quiet_invokeAll (l : List Ref) (uninvoke : Bool) (c : Ctx ω) : Quiet c (invokeAll f l uninvoke c) :=
  Quiet.foldl (fun c r => by
    have h := Quiet.act (a := .invoke r uninvoke) rfl c
    exact ⟨h.flags, h.config, h.history, h.initializedData, h.done⟩) l c

theorem quiet_manageInvocation (c : Ctx ω) (i : TreePath) : Quiet c (manageInvocation M f c i) := by
  have hround : ∀ (c : Ctx ω) (uninvoke : Bool) (S : Finset TreePath),
      Quiet c { invokeAll f (M.state i).invoke uninvoke c with invocations := S } := by
    intro c uninvoke S
    have h := quiet_invokeAll f (M.state i).invoke uninvoke c
    exact ⟨h.flags, h.config, h.history, h.initializedData, h.done⟩
  have hfirst : Quiet c (if i ∉ c.config ∧ i ∈ c.invocations then
      { invokeAll f (M.state i).invoke true c with invocations := c.invocations.erase i } else c) := by
    split
    · exact hround c true _
    · exact .refl c
  have hsecond : ∀ c' : Ctx ω, Quiet c c' → Quiet c (if i ∈ c'.config ∧ i ∉ c'.invocations then
      { invokeAll f (M.state i).invoke false c' with invocations := insert i c'.invocations } else c') := by
    intro c' h
    split
    · exact h.trans (hround c' false _)
    · exact h
  exact hsecond _ hfirst

theorem quiet_completeState (c : Ctx ω) (i : TreePath) : Quiet c (completeState M f c i) := by
  have hfirst : Quiet c (if i ∈ c.config then execAll f (M.state i).onExit c else c) := by
    split
    · exact quiet_execAll f _ c
    · exact .refl c
  have hsecond : ∀ c' : Ctx ω, Quiet c c' → Quiet c (if i ∈ c'.invocations then
      { invokeAll f (M.state i).invoke true c' with invocations := c'.invocations.erase i } else c') := by
    intro c' h
    split
    · have h' := h.trans (quiet_invokeAll f (M.state i).invoke true c')
      exact ⟨h'.flags, h'.config, h'.history, h'.initializedData, h'.done⟩
    · exact h
  exact hsecond _ hfirst

def Jump.ctx : Jump ω → Ctx ω
  | .leave _ c => c
  | .establish c => c
  | .select c => c

theorem dequeueEvent_keeps (c : Ctx ω) :
    (dequeueEvent M f c).ctx.config = c.config ∧ (dequeueEvent M f c).ctx.history = c.history := by
  have hmanage : ∀ c : Ctx ω, Quiet c (M.states.foldl (manageInvocation M f) c) :=
    fun c => Quiet.foldl (quiet_manageInvocation M f) M.states c
  rcases dequeueEvent_cases M f c with ⟨event, w, h⟩ | ⟨event, w, h⟩
  · rw [h]
    exact ⟨rfl, rfl⟩
  · have hquiet := hmanage { c with event := event, env := w }
    rcases dequeueOutside_cases M f { c with event := event, env := w } with ⟨_, _, hout⟩ | ⟨_, _, _, hout⟩
    · rw [h, hout]
      exact ⟨hquiet.config, hquiet.history⟩
    · rw [h, hout]
      exact ⟨hquiet.config, hquiet.history⟩

/-- Before it establishes an entry set, the code changes neither the configuration nor the history. -/
theorem enterStep_keeps (c : Ctx ω) :
    (enterStep M f c).ctx.config = c.config ∧ (enterStep M f c).ctx.history = c.history := by
  rw [enterStep]
  simp only
  split
  · exact ⟨rfl, rfl⟩
  split
  · have h := Quiet.foldl (quiet_completeState M f) M.states.reverse { c with err := false }
    exact ⟨h.config, h.history⟩
  split
  · have h := quiet_execAll f M.script { c with err := false }
    exact ⟨h.config, h.history⟩
  · exact dequeueEvent_keeps M f { c with err := false }

/-- The history stays, and what comes into the configuration is no pseudo-state. -/
structure Moves (c c' : Ctx ω) : Prop where
  history : c'.history = c.history
  config : ∀ x ∈ c'.config, x ∈ c.config ∨ x ∈ M.states ∧ (M.state x).type.pseudo = false

theorem Quiet.moves {c c' : Ctx ω} (h : Quiet c c') : Moves M c c' := ⟨h.history, fun _ hx => Or.inl (h.config ▸ hx)⟩

theorem Moves.trans {c c' c'' : Ctx ω} (h : Moves M c c') (h' : Moves M c' c'') : Moves M c c'' where
  history := h'.history.trans h.history
  config x hx := by
    rcases h'.config x hx with hx | hx
    · exact h.config x hx
    · exact Or.inr hx

theorem enterState_moves {e : Entry} {i : TreePath} (hi : i ∈ M.states) (c : Ctx ω) : Moves M c (enterState M f e c i) := by
  by_cases h : c.err = true ∨ ¬ FastMicroStep.enters M.tables e.entrySet c.config i
  · rw [enterState_of_not M f h]
    exact (Quiet.refl c).moves M
  · rw [not_or, not_not, Bool.not_eq_true] at h
    obtain ⟨c', hc', heq⟩ := enterState_of_enters M f h.1 h.2
    have hentered : Moves M c c' := by
      refine ⟨hc'.history, fun x hx => ?_⟩
      rw [hc'.config] at hx
      rcases Finset.mem_insert.mp hx with rfl | hx
      · exact Or.inr ⟨hi, h.2.2.2⟩
      · exact Or.inl hx
    rw [heq]
    split
    · have hfinal := handleFinal_spec M f i c'
      refine hentered.trans M ⟨hfinal.history, fun x hx => Or.inl ?_⟩
      rwa [hfinal.config] at hx
    · exact hentered

theorem microstep_moves (targetSet exitSet : Finset TreePath) (transSet : Finset TransId) (c : Ctx ω) :
    Moves M c (microstep M f targetSet exitSet transSet c).2 := by
  have hexit : Moves M c (exitStates M f exitSet c) := by
    have h := exitStates_spec M f exitSet c
    refine ⟨h.history, fun x hx => Or.inl ?_⟩
    rw [h.config] at hx
    exact (Finset.mem_sdiff.mp hx).1
  have henter : ∀ (e : Entry) (c : Ctx ω), Moves M c (enterStates M f e c) := by
    intro e c
    refine List.foldl_invariant (fun c' => Moves M c c') ?_ ((Quiet.refl c).moves M)
    intro c' i hi hc'
    exact hc'.trans M (enterState_moves M f hi c')
  have hall : ∀ e : Entry, Moves M c (enterStates M f e (takeTransitions M f e.transSet (exitStates M f exitSet c))) :=
    fun e => (hexit.trans M ((takeTransitions_spec M f e.transSet _).moves M)).trans M (henter e _)
  rw [microstep]
  split
  · exact hall _
  · exact ⟨(hall _).history, (hall _).config⟩

end Passes

section Runs

variable {d : Document β} {f : Functions ω}

structure Recording (d : Document β) (c : Ctx ω) (log : ExitLog) : Prop where
  proper : ∀ x ∈ c.config, x ∈ d.states ∧ d.isHistory x = false
  records : Records d c.history log

theorem onePass_of_none {M : Machine} {c : Ctx ω} (h : microstepOf M f c = none) :
    (onePass M f c).config = c.config ∧ (onePass M f c).history = c.history := by
  have hkeeps := enterStep_keeps M f c
  rw [microstepOf] at h
  rw [onePass]
  cases hj : enterStep M f c with
  | leave ret c' =>
    rw [hj] at hkeeps
    exact hkeeps
  | establish c' =>
    rw [hj] at h
    cases h
  | select c' =>
    rw [hj] at h hkeeps
    simp only at h
    split at h
    · cases h
    · rename_i hfound
      simp only [Jump.follow, hfound]
      exact hkeeps

/-- A pass with a microstep writes the history first, from the configuration it finds. -/
theorem onePass_of_some (hd : HistoryChart d) {c : Ctx ω} {m : Microstep} (h : microstepOf (machine d) f c = some m) :
    m.configuration = c.config ∧
      m.history = FastMicroStep.rememberHistory (machine d).tables m.configuration m.exitSet c.history ∧
      (onePass (machine d) f c).history = m.history ∧
      ∀ x ∈ (onePass (machine d) f c).config, x ∈ c.config ∨ x ∈ d.states ∧ ((machine d).state x).type.pseudo = false := by
  obtain ⟨hconf, hhist⟩ := enterStep_keeps (machine d) f c
  rw [microstepOf] at h
  rw [onePass]
  cases hj : enterStep (machine d) f c with
  | leave ret c' =>
    rw [hj] at h
    cases h
  | establish c' =>
    rw [hj] at h hconf hhist
    cases h
    have hmoves := microstep_moves (machine d) f ((machine d).state []).completion ∅ ∅ c'
    refine ⟨hconf, ?_, hmoves.history, fun x hx => ?_⟩
    · ext x
      rw [FastMicroStep.mem_rememberHistory hd.tables, if_neg (by simp)]
      exact hhist ▸ Iff.rfl
    · rcases hmoves.config x hx with hx | hx
      · exact Or.inl (hconf ▸ hx)
      · exact Or.inr hx
  | select c' =>
    rw [hj] at h hconf hhist
    simp only at h
    split at h
    · rename_i hfound
      cases h
      simp only [Jump.follow, hfound]
      have hmoves := microstep_moves (machine d) f
        (selectTransitions (machine d) f c'.config c'.event c'.env).targetSet
        ((selectTransitions (machine d) f c'.config c'.event c'.env).exitSet ∩ c'.config)
        (selectTransitions (machine d) f c'.config c'.event c'.env).transSet
      refine ⟨hconf, ?_, (hmoves _).history, fun x hx => ?_⟩
      · exact hhist ▸ rfl
      · rcases (hmoves _).config x hx with hx | hx
        · exact Or.inl (hconf ▸ hx)
        · exact Or.inr hx
    · cases h

theorem Recording.remember (hd : HistoryChart d) (hp : PseudoFirst d) {c : Ctx ω} {log : ExitLog} (h : Recording d c log)
    (hok : KeepsRecords d f c log) {m : Microstep} (hm : microstepOf (machine d) f c = some m) :
    Records d m.history (log.record m) := by
  obtain ⟨hconf, hhist, -, -⟩ := onePass_of_some hd hm
  obtain ⟨-, hsomething, -⟩ := hok m hm
  exact h.records.remember hd hp hhist (hconf ▸ h.proper) hsomething

theorem recording_pass (hd : HistoryChart d) (hp : PseudoFirst d) {c : Ctx ω} {log : ExitLog} (h : Recording d c log)
    (hok : KeepsRecords d f c log) : Recording d (onePass (machine d) f c) (logAfter (machine d) f log c) := by
  rw [logAfter]
  cases hm : microstepOf (machine d) f c with
  | none =>
    obtain ⟨hconf, hhist⟩ := onePass_of_none hm
    exact ⟨hconf ▸ h.proper, hhist ▸ h.records⟩
  | some m =>
    obtain ⟨-, -, hhist, hconf⟩ := onePass_of_some hd hm
    refine ⟨fun x hx => ?_, hhist ▸ h.remember hd hp hok hm⟩
    rcases hconf x hx with hx | ⟨hx, hpseudo⟩
    · exact h.proper x hx
    · exact ⟨hx, FastMicroStep.not_history_of_entered hd.tables hx hpseudo⟩

theorem recording_of_run (hd : HistoryChart d) (hp : PseudoFirst d) {c : Ctx ω} {log : ExitLog}
    (h : LoggedRun (machine d) f (KeepsRecords d f) c log) : Recording d c log := by
  induction h with
  | init w => exact ⟨by simp, ⟨by simp, by simp, by simp⟩⟩
  | pass _ hok ih => exact recording_pass hd hp ih hok
  | environment w _ ih => exact ⟨ih.proper, ih.records⟩

/-- In a run whose passes keep the records, every microstep restores with each history in its entry set what was active
at the last exit of its parent, and enters the default targets when there was none. -/
theorem generated_histories_restored {d : Document β} (hd : HistoryChart (resortStates d)) {ω : Type} {f : Functions ω}
    {c : Ctx ω} {log : ExitLog} (hrun : LoggedRun (prepare d) f (KeepsRecords (resortStates d) f) c log)
    (hok : KeepsRecords (resortStates d) f c log) :
    ∀ m ∈ microstepOf (prepare d) f c, RestoresHistories (resortStates d) m (log.record m) := by
  intro m hm
  have hp := hd.pseudoFirst
  have hrec := recording_of_run hd hp hrun
  obtain ⟨hcovered, -, hout⟩ := hok m hm
  exact restoresHistories_of_records hd hp (hrec.remember hd hp hok hm) hcovered hout

end Runs

/-- `n` passes over the tables of a deep history with a history nested below its parent, with external events. -/
def nestedPasses (names : List String) (n : Nat) : Ctx (List Event) × ExitLog :=
  loggedPasses (prepare FastMicroStep.nestedHistories) externalEvents n
    ({ env := names.map fun name => { name := name } }, fun _ => none)

/-- The run that moves on to `q2`, leaves the outer parent and comes back by the outer history: this one restores `q2`
and adds the inner history, which stands for nothing and adds its default target `q1`. -/
theorem nested_history_enters_default :
    ¬ ∀ (c : Ctx (List Event)) (log : ExitLog),
      LoggedRun (prepare FastMicroStep.nestedHistories) externalEvents (fun _ _ => True) c log →
        ∀ m ∈ microstepOf (prepare FastMicroStep.nestedHistories) externalEvents c,
          RestoresHistories (resortStates FastMicroStep.nestedHistories) m (log.record m) := by
  intro h
  have hrun : LoggedRun (prepare FastMicroStep.nestedHistories) externalEvents (fun _ _ => True)
      (nestedPasses ["next", "leave", "outer"] 6).1 (nestedPasses ["next", "leave", "outer"] 6).2 :=
    LoggedRun.passes (.init _) 6 fun _ _ => trivial
  exact absurd (h _ _ hrun) (by decide +kernel)

theorem nestedHistories_chart : HistoryChart (resortStates FastMicroStep.nestedHistories) where
  root := by decide +kernel
  default := by decide +kernel
  leaf := by decide +kernel
  finalAttr := by decide +kernel
  completion := by decide +kernel
  target := by decide +kernel

/-- Coming back by the outer history when the inner parent was not active at the last exit. -/
theorem generated_histories_restored_aside :
    (∀ m ∈ microstepOf (prepare FastMicroStep.nestedHistories) externalEvents (nestedPasses ["aside", "leave", "outer"] 6).1,
      RestoresHistories (resortStates FastMicroStep.nestedHistories) m
        ((nestedPasses ["aside", "leave", "outer"] 6).2.record m)) ∧
    (nestedPasses ["aside", "leave", "outer"] 7).1.config = {[], [0], [0, 2]} :=
  ⟨generated_histories_restored nestedHistories_chart (LoggedRun.passes (.init _) 6 (by decide +kernel))
      (by decide +kernel),
    by decide +kernel⟩

end ChartToC

end Uscxml
