import Uscxml.ChartToC.Effects
import Uscxml.FastMicroStep.Calls

/-!
# Data and global scripts

Both implementations initialise the data of the root when they enter it. The interpreter keeps the global scripts as
content of the root and runs them behind its data; the generated code runs them in the branch for the first call,
before it enters any state.
-/

namespace Uscxml

/-- Is it a `<data>` or a global `<script>`? -/
def Ref.starts : Ref → Bool
  | .data _ _ | .script _ => true
  | _ => false

namespace FastMicroStep

def startedBy : Call → Option Ref
  | .process r | .initData r => some r
  | _ => none

/-- The data initialised and the scripts run by calls, in their order. -/
def startCalls (calls : List Call) : List Ref := (calls.filterMap startedBy).filter Ref.starts

theorem startCalls_append (l l' : List Call) : startCalls (l ++ l') = startCalls l ++ startCalls l' := by
  rw [startCalls, List.filterMap_append, List.filter_append]
  rfl

theorem startCalls_map {mk : Ref → Call} (hmk : ∀ r, startedBy (mk r) = some r) (l : List Ref) :
    startCalls (l.map mk) = l.filter Ref.starts := by
  have hfun : startedBy ∘ mk = some := funext hmk
  rw [startCalls, List.filterMap_map, hfun, List.filterMap_some]

theorem startCalls_flatMap {γ : Type} (g : γ → List Call) (l : List γ) :
    startCalls (l.flatMap g) = l.flatMap fun a => startCalls (g a) := by
  rw [startCalls, List.filterMap_flatMap, List.filter_flatMap]
  rfl

theorem startCalls_flatMap_eq_nil {γ : Type} {g : γ → List Call} {l : List γ} (h : ∀ a ∈ l, startCalls (g a) = []) :
    startCalls (l.flatMap g) = [] := by
  rw [startCalls_flatMap, List.flatMap_eq_nil_iff]
  exact h

theorem filter_refs_eq_nil {mk : Nat → Ref} (h : ∀ k, (mk k).starts = false) (n : Nat) :
    (refs mk n).filter Ref.starts = [] := by
  rw [List.filter_eq_nil_iff]
  intro r hr
  obtain ⟨k, -, rfl⟩ := List.mem_map.mp hr
  simp [h k]

theorem filter_refs {mk : Nat → Ref} (h : ∀ k, (mk k).starts = true) (n : Nat) :
    (refs mk n).filter Ref.starts = refs mk n := by
  rw [List.filter_eq_self]
  intro r hr
  obtain ⟨k, -, rfl⟩ := List.mem_map.mp hr
  exact h k

variable {β : Type} {d : Document β}

theorem startCalls_exitCalls (i : TreePath) : startCalls (exitCalls (tables d) i) = [] := by
  have hblocks : startCalls (((tables d).state i).onExit.map .process) = [] := by
    rw [startCalls_map fun _ => rfl]
    exact filter_refs_eq_nil (fun _ => rfl) _
  have hsplit : startCalls (exitCalls (tables d) i) = startCalls [.beforeExitingState i] ++
      (startCalls (((tables d).state i).onExit.map .process) ++ startCalls [.afterExitingState i]) := by
    rw [← startCalls_append, ← startCalls_append]
    rfl
  rw [hsplit, hblocks]
  rfl

theorem startCalls_transitionCalls (t : TransId) : startCalls (transitionCalls (tables d) t) = [] := by
  simp only [transitionCalls, tables, transitionInfo]
  split
  · rfl
  · rfl

/-- Of the states that are entered only the root has data or scripts. -/
theorem startCalls_enterCalls (hearly : d.binding = .early) (transSet : Finset TransId) (C : Finset TreePath)
    (i : TreePath) :
    startCalls (enterCalls (tables d) transSet true C i) =
      if i = [] then d.states.flatMap (dataRefs d) ++ refs .script ((d.elem? []).elim 0 (·.script.length)) else [] := by
  have hdata : startCalls (((tables d).state i).data.map .initData) =
      if i = [] then d.states.flatMap (dataRefs d) else [] := by
    have heq : ((tables d).state i).data = if i = [] then d.states.flatMap (dataRefs d) else [] := by
      simp only [tables, stateInfo, hearly]
    rw [startCalls_map fun _ => rfl, heq]
    split
    · rw [List.filter_flatMap]
      exact List.flatMap_congr fun p _ => filter_refs (fun _ => rfl) _
    · rfl
  have hblocks : startCalls (((tables d).state i).onEntry.map .process) =
      if i = [] then refs .script ((d.elem? []).elim 0 (·.script.length)) else [] := by
    rw [startCalls_map fun _ => rfl]
    simp only [tables, stateInfo]
    split
    · rename_i hroot
      rw [hroot]
      exact filter_refs (fun _ => rfl) _
    · exact filter_refs_eq_nil (fun _ => rfl) _
  have hpseudo : startCalls ((pseudoTransitions (tables d) transSet i).flatMap (transitionCalls (tables d))) = [] :=
    startCalls_flatMap_eq_nil fun t _ => startCalls_transitionCalls t
  have hdone : ∀ l : List TreePath, startCalls (l.map .raiseDoneEvent) = [] := by
    intro l
    have hfun : startedBy ∘ Call.raiseDoneEvent = fun _ => none := rfl
    rw [startCalls, List.filterMap_map, hfun]
    simp
  have hfinal : startCalls (if ((tables d).state i).type = .final then
      (doneStates (tables d) C i).map .raiseDoneEvent else []) = [] := by
    split
    · exact hdone _
    · rfl
  have hsplit : startCalls (enterCalls (tables d) transSet true C i) = startCalls [.beforeEnteringState i] ++
      (startCalls (((tables d).state i).data.map .initData) ++
      (startCalls (((tables d).state i).onEntry.map .process) ++ (startCalls [.afterEnteringState i] ++
      (startCalls ((pseudoTransitions (tables d) transSet i).flatMap (transitionCalls (tables d))) ++
      startCalls (if ((tables d).state i).type = .final then
        (doneStates (tables d) C i).map .raiseDoneEvent else []))))) := by
    simp only [← startCalls_append]
    rfl
  have hnone : startCalls [.beforeEnteringState i] = [] ∧ startCalls [.afterEnteringState i] = [] := ⟨rfl, rfl⟩
  rw [hsplit, hdata, hblocks, hpseudo, hfinal, hnone.1, hnone.2]
  split
  · simp
  · rfl

theorem flatMap_root {γ : Type} {g : TreePath → List γ} {l : List TreePath} (hl : l.Nodup) (h : ∀ i, i ≠ [] → g i = []) :
    l.flatMap g = if [] ∈ l then g [] else [] := by
  induction l with
  | nil => rfl
  | cons i l ih =>
    rw [List.nodup_cons] at hl
    rw [List.flatMap_cons, ih hl.2]
    by_cases hi : i = []
    · subst hi
      rw [if_neg hl.1, if_pos List.mem_cons_self, List.append_nil]
    · simp [h i hi, Ne.symm hi]

/-- The interpreter initialises the data of the root and then runs the global scripts. -/
theorem startCalls_first {ω : Type} (hearly : d.binding = .early) (cb : Callbacks ω) (w : ω) :
    startCalls (step (init d) cb { env := w }).2.calls = [] ∨
      startCalls (step (init d) cb { env := w }).2.calls =
        ((init d).state []).data ++ ((init d).state []).onEntry := by
  have hearly' : (resortStates d).binding = .early := by
    rw [resortStates]
    exact hearly
  rw [init]
  generalize resortStates d = d' at hearly'
  have hpair : (tables d').states.Pairwise (· < ·) := d'.tree.preorder_pairwise
  generalize hm : (⟨∅, ∅, ((tables d').state []).completion, ∅, ∅⟩ : Microstep) = m
  have hcalls : (step (tables d') cb { env := w }).2.calls = .beforeMicroStep :: m.calls (tables d') ∅ := by
    have h := microstep_calls (tables d') cb hpair ((tables d').state []).completion ∅ ∅
      (emit .beforeMicroStep { env := w, flags := { spontaneous := true, initialized := true } })
    rw [if_neg] at h
    · simp only [emit_toMicro, hm, List.append_nil] at h
      exact h
    · exact Finset.notMem_empty _
  -- Only the entries initialise data or run scripts, and of these only the entry of the root.
  have hexits : startCalls ((exitedStates (tables d') m.exitSet m.configuration).flatMap (exitCalls (tables d'))) = [] :=
    startCalls_flatMap_eq_nil fun i _ => startCalls_exitCalls i
  have htaken : startCalls ((takenTransitions (tables d') (m.entry (tables d')).transSet).flatMap
      (transitionCalls (tables d'))) = [] := startCalls_flatMap_eq_nil fun t _ => startCalls_transitionCalls t
  have hentries : startCalls ((m.newStates (tables d')).flatMap fun i => enterCalls (tables d')
      (m.entry (tables d')).transSet (decide (i ∉ (∅ : Finset TreePath))) (m.configurationAt (tables d') i) i) =
      if [] ∈ m.newStates (tables d') then ((tables d').state []).data ++ ((tables d').state []).onEntry else [] := by
    have hnodup : (m.newStates (tables d')).Nodup :=
      List.Nodup.filter _ (hpair.imp fun h => ne_of_lt h : (tables d').states.Nodup)
    have hfresh : ∀ i : TreePath, decide (i ∉ (∅ : Finset TreePath)) = true := by simp
    have hroot : ((tables d').state []).data ++ ((tables d').state []).onEntry =
        d'.states.flatMap (dataRefs d') ++ refs .script ((d'.elem? []).elim 0 (·.script.length)) := by
      simp only [tables, stateInfo, hearly']
      rfl
    simp only [hfresh]
    rw [startCalls_flatMap, flatMap_root hnodup, startCalls_enterCalls hearly', if_pos rfl, hroot]
    intro i hi
    rw [startCalls_enterCalls hearly', if_neg hi]
  have hall : startCalls (.beforeMicroStep :: m.calls (tables d') ∅) =
      if [] ∈ m.newStates (tables d') then ((tables d').state []).data ++ ((tables d').state []).onEntry else [] := by
    have hopen : startCalls (.beforeMicroStep :: m.calls (tables d') ∅) = startCalls (m.calls (tables d') ∅) := rfl
    have hclose : startCalls [.afterMicroStep (m.next (tables d'))] = [] := rfl
    rw [hopen, Microstep.calls, startCalls_append, startCalls_append, startCalls_append, hexits, htaken, hentries, hclose]
    simp
  rw [hcalls, hall]
  split
  · exact Or.inr rfl
  · exact Or.inl rfl

end FastMicroStep

namespace ChartToC

variable {ω : Type} (M : Machine) (f : Functions ω)

/-- The data initialised and the scripts run by acts, in their order. -/
def startActs (acts : List Act) : List Ref :=
  (acts.flatMap fun
    | .exec r => [r]
    | .initData block => block
    | _ => []).filter Ref.starts

def DataFirst (acts : List Act) : Prop :=
  ∀ before r after, acts = before ++ .exec r :: after → .initData (M.state []).data ∈ before

/-! ### The list of acts grows -/

theorem act_extends (a : Act) (c : Ctx ω) : c.acts <+: (act a c).acts := List.prefix_append _ _

theorem foldl_extends {γ : Type} {g : Ctx ω → γ → Ctx ω} (h : ∀ c a, c.acts <+: (g c a).acts) (l : List γ) (c : Ctx ω) :
    c.acts <+: (l.foldl g c).acts :=
  List.foldl_invariant (fun c' => c.acts <+: c'.acts) (fun c' a _ hc => hc.trans (h c' a)) (List.prefix_refl _)

theorem exec_extends (r : Ref) (c : Ctx ω) : c.acts <+: (exec f r c).2.acts := act_extends (.exec r) c

theorem execAll_extends (l : List Ref) (c : Ctx ω) : c.acts <+: (execAll f l c).acts :=
  foldl_extends (fun c r => exec_extends f r c) l c

theorem exitState_extends (X : Finset TreePath) (c : Ctx ω) (i : TreePath) : c.acts <+: (exitState M f X c i).acts := by
  rw [exitState]
  split
  · exact (act_extends (.exit i) c).trans (execAll_extends f _ _)
  · exact List.prefix_refl _

theorem takeTransition_extends (c : Ctx ω) (i : TransId) : c.acts <+: (takeTransition M f c i).acts := by
  rw [takeTransition]
  split
  · exact List.prefix_refl _
  · simp only
    split
    · exact act_extends _ c
    · exact (act_extends (.take i) c).trans (exec_extends f _ _)

theorem initializeData_extends (i : TreePath) (c : Ctx ω) : c.acts <+: (initializeData M f i c).acts := by
  rw [initializeData]
  split
  · simp only
    split
    · split
      · exact act_extends _ c
      · exact List.prefix_refl _
    · exact List.prefix_refl _
  · exact List.prefix_refl _

theorem handleFinal_extends (i : TreePath) (c : Ctx ω) : c.acts <+: (handleFinal M f i c).acts := by
  have hround : ∀ (c : Ctx ω) j, c.acts <+: (raiseParallel M f i c j).acts := by
    intro c j
    rw [raiseParallel]
    split
    · split
      · exact act_extends _ c
      · exact List.prefix_refl _
    · exact List.prefix_refl _
  rw [handleFinal]
  refine List.IsPrefix.trans ?_ (foldl_extends hround M.states _)
  split
  · exact List.prefix_refl _
  · exact act_extends _ c

theorem enterState_extends (e : FastMicroStep.Entry) (c : Ctx ω) (i : TreePath) :
    c.acts <+: (enterState M f e c i).acts := by
  rw [enterState]
  split
  · exact List.prefix_refl _
  split
  · have hentered := act_extends (.enter i) { c with config := insert i c.config }
    have hdata := initializeData_extends M f i (act (.enter i) { c with config := insert i c.config })
    have hblocks := execAll_extends f (M.state i).onEntry
      (initializeData M f i (act (.enter i) { c with config := insert i c.config }))
    have htaken := foldl_extends (takeTransition_extends M f) (pseudoTransitions M e.transSet i)
      (execAll f (M.state i).onEntry (initializeData M f i (act (.enter i) { c with config := insert i c.config })))
    have hall := hentered.trans (hdata.trans (hblocks.trans htaken))
    simp only
    split
    · exact hall.trans (handleFinal_extends M f i _)
    · exact hall
  · exact List.prefix_refl _

theorem microstep_extends (targetSet X : Finset TreePath) (transSet : Finset TransId) (c : Ctx ω) :
    c.acts <+: (microstep M f targetSet X transSet c).2.acts := by
  have hexits := foldl_extends (exitState_extends M f X) M.states.reverse c
  rw [microstep]
  generalize FastMicroStep.establishEntrySet M.tables c.config X c.history targetSet transSet = e
  have htaken := foldl_extends (takeTransition_extends M f) (M.transitions.filter fun i =>
    i ∈ e.transSet && !((M.transition i).history || (M.transition i).initial)) (exitStates M f X c)
  have hentries := foldl_extends (enterState_extends M f e) M.states (takeTransitions M f e.transSet (exitStates M f X c))
  have hall := hexits.trans (htaken.trans hentries)
  split
  · exact hall
  · exact hall.trans (act_extends _ _)

theorem scripts_extends (w : ω) : M.script.map .exec <+: (onePass M f { env := w }).acts := by
  have hscripts : ∀ (l : List Ref) (c : Ctx ω), (execAll f l c).acts = c.acts ++ l.map .exec := by
    intro l
    induction l with
    | nil => simp [execAll]
    | cons r l ih =>
      intro c
      have hcons : execAll f (r :: l) c = execAll f l (exec f r c).2 := rfl
      have hone : (exec f r c).2.acts = c.acts ++ [.exec r] := rfl
      rw [hcons, ih, hone]
      simp
  have hfirst : onePass M f { env := w } = (microstep M f (M.state []).completion ∅ ∅
      { execAll f M.script { env := w } with
        flags := { (execAll f M.script { env := w }).flags with spontaneous := true, initialized := true } }).2 := rfl
  rw [hfirst]
  have hprefix := microstep_extends M f (M.state []).completion ∅ ∅
      { execAll f M.script { env := w } with
        flags := { (execAll f M.script { env := w }).flags with spontaneous := true, initialized := true } }
  rw [hscripts] at hprefix
  exact hprefix

theorem data_of_early {β : Type} {d : Document β} (hearly : d.binding = .early) {r : Ref}
    (hr : r ∈ ((prepare d).state []).data) : ∃ p k, r = .data p k := by
  have hearly' : (resortStates d).binding = .early := (binding_resortStates d).trans hearly
  simp only [prepare, machine, stateInfo, hearly', if_true] at hr
  obtain ⟨p, -, hr⟩ := List.mem_flatMap.mp hr
  obtain ⟨k, -, rfl⟩ := List.mem_map.mp hr
  exact ⟨p, k, rfl⟩

/-- Whenever a chart has early-bound data and global scripts, the generated code runs a script before it initialises
any data, and so in another order than the interpreter. -/
theorem scripts_before_data {β : Type} (d : Document β) (hearly : d.binding = .early)
    (hdata : ((prepare d).state []).data ≠ []) (hscript : d.tree.root.script ≠ []) (f : Functions ω) (w : ω)
    {ω' : Type} (cb : Callbacks ω') (w' : ω') :
    ¬ DataFirst (prepare d) (onePass (prepare d) f { env := w }).acts ∧
      startActs (onePass (prepare d) f { env := w }).acts ≠
        FastMicroStep.startCalls (FastMicroStep.step (FastMicroStep.init d) cb { env := w' }).2.calls := by
  obtain ⟨n, hn⟩ : ∃ n, d.tree.root.script.length = n + 1 :=
    Nat.exists_eq_succ_of_ne_zero fun h => hscript (List.length_eq_zero_iff.mp h)
  have hfirst : ∃ rest, (prepare d).script.map Act.exec = Act.exec (.script 0) :: rest := by
    have hscripts : (prepare d).script = FastMicroStep.refs .script d.tree.root.script.length := rfl
    rw [hscripts, hn, FastMicroStep.refs, List.range_succ_eq_map, List.map_cons, List.map_cons]
    exact ⟨_, rfl⟩
  obtain ⟨rest, hfirst⟩ := hfirst
  obtain ⟨more, hmore⟩ := scripts_extends (prepare d) f w
  rw [hfirst, List.cons_append] at hmore
  rw [← hmore]
  refine ⟨?_, ?_⟩
  · intro h
    have hnone := h [] (.script 0) (rest ++ more) rfl
    simp at hnone
  · rw [startActs, List.flatMap_cons, List.singleton_append, List.filter_cons_of_pos rfl]
    have hsame : ((FastMicroStep.init d).state []).data = ((prepare d).state []).data := by
      have hearly' : (Uscxml.resortStates d).binding = .early := by
        rw [← resortStates_eq, binding_resortStates, hearly]
      simp only [FastMicroStep.init, FastMicroStep.tables, FastMicroStep.stateInfo, prepare, machine, stateInfo,
        resortStates_eq, hearly']
    rcases FastMicroStep.startCalls_first hearly cb w' with h | h
    · rw [h]
      exact List.cons_ne_nil _ _
    · rw [h, hsame]
      cases hd : ((prepare d).state []).data with
      | nil => exact absurd hd hdata
      | cons r data =>
        obtain ⟨p, k, rfl⟩ := data_of_early hearly (hd ▸ List.mem_cons_self)
        simp

def dataAndScript : Document Unit where
  tree := ⟨{ tag := .scxml, data := [{}], script := [()] }, .cons { tag := .state } .nil .nil⟩

theorem scripts_before_data_dataAndScript :
    ¬ DataFirst (prepare dataAndScript) (onePass (prepare dataAndScript) externalEvents { env := [] }).acts ∧
      startActs (onePass (prepare dataAndScript) externalEvents { env := [] }).acts ≠
        FastMicroStep.startCalls (FastMicroStep.step (FastMicroStep.init dataAndScript) FastMicroStep.externalEvents
          { env := [] }).2.calls :=
  scripts_before_data dataAndScript rfl (by decide) (by decide) externalEvents [] FastMicroStep.externalEvents []

/-- The generated code runs the script and then initialises the data; the interpreter does it the other way round. -/
theorem dataAndScript_order :
    startActs (onePass (prepare dataAndScript) externalEvents { env := [] }).acts = [.script 0, .data [] 0] ∧
      FastMicroStep.startCalls (FastMicroStep.step (FastMicroStep.init dataAndScript) FastMicroStep.externalEvents
        { env := [] }).2.calls = [.data [] 0, .script 0] := by
  decide +kernel

end ChartToC

end Uscxml
