import Uscxml.FastMicroStep.Calls
import Mathlib.Data.List.Chain

/-!
# Invocations

`<invoke>` elements are started and cancelled where a macrostep ends, by a comparison of the configuration with the
states that are marked as invoked. The comparison does not see that a state was left and entered again since
the last one, and its old invocation then goes on.
-/

namespace Uscxml

namespace FastMicroStep

/-! ### The past of an `<invoke>` -/

inductive Turn where
  | exited | invoked | uninvoked
  deriving DecidableEq, Repr

/-- The turn a call is for the `<invoke>` element `r` of the state `i`. -/
def turnOf (i : TreePath) (r : Ref) : Call → Option Turn
  | .beforeExitingState j => if j = i then some .exited else none
  | .invoke r' => if r' = r then some .invoked else none
  | .uninvoke r' => if r' = r then some .uninvoked else none
  | _ => none

def past (i : TreePath) (r : Ref) (calls : List Call) : List Turn := calls.filterMap (turnOf i r)

/-- Its invocations and cancellations. -/
def switches (l : List Turn) : List Turn := l.filter (· ≠ .exited)

def running (l : List Turn) : Bool := (switches l).getLast? = some .invoked

/-- Invocations and cancellations alternate, and an invocation comes first. -/
def Alternates (l : List Turn) : Prop := (.uninvoked :: switches l).IsChain (· ≠ ·)

/-- Whenever the state is left with the element invoked, the element is cancelled later on. -/
def Renewed (l : List Turn) : Prop := ∀ l₁ l₂, l = l₁ ++ .exited :: l₂ → running l₁ = true → .uninvoked ∈ l₂

theorem past_append (i : TreePath) (r : Ref) (l l' : List Call) : past i r (l ++ l') = past i r l ++ past i r l' :=
  List.filterMap_append

theorem switches_append (l l' : List Turn) : switches (l ++ l') = switches l ++ switches l' := List.filter_append ..

theorem switches_exits {l : List Turn} (h : ∀ t ∈ l, t = .exited) : switches l = [] := by
  rw [switches, List.filter_eq_nil_iff]
  intro t ht
  simp [h t ht]

theorem running_append_exits (l : List Turn) {l' : List Turn} (h : ∀ t ∈ l', t = .exited) :
    running (l ++ l') = running l := by rw [running, switches_append, switches_exits h, List.append_nil, running]

theorem running_append_switch (l : List Turn) {t : Turn} (ht : t ≠ .exited) : running (l ++ [t]) = (t = .invoked : Bool) := by
  have hs : switches [t] = [t] := by simp [switches, ht]
  rw [running, switches_append, hs, List.getLast?_concat]
  simp

theorem alternates_append_exits {l l' : List Turn} (hl : Alternates l) (h : ∀ t ∈ l', t = .exited) :
    Alternates (l ++ l') := by rwa [Alternates, switches_append, switches_exits h, List.append_nil]

theorem alternates_append_switch {l : List Turn} (hl : Alternates l) {t : Turn} (ht : t ≠ .exited)
    (hdue : running l = true ↔ t = .uninvoked) : Alternates (l ++ [t]) := by
  have hs : switches [t] = [t] := by simp [switches, ht]
  have hmem : ∀ x ∈ switches l, x ≠ .exited := by simp [switches]
  rw [Alternates] at hl ⊢
  rw [switches_append, hs, ← List.cons_append, List.isChain_append]
  refine ⟨hl, List.isChain_singleton t, ?_⟩
  intro x hx y hy
  obtain rfl : t = y := by simpa using hy
  rw [List.getLast?_cons, Option.mem_some_iff] at hx
  rw [running, decide_eq_true_eq] at hdue
  cases hlast : (switches l).getLast? with
  | none =>
    rw [hlast, Option.getD_none] at hx
    subst hx
    rintro rfl
    simp [hlast] at hdue
  | some x' =>
    rw [hlast, Option.getD_some] at hx
    subst hx
    have hne := hmem x' (List.mem_of_getLast? hlast)
    rw [hlast, Option.some.injEq] at hdue
    rintro rfl
    cases x' with
    | exited => exact hne rfl
    | invoked => simp at hdue
    | uninvoked => simp at hdue

/-- An element that is invoked at some time and is not any more has been cancelled. -/
theorem uninvoked_mem {l₁ l₂ : List Turn} (h₁ : running l₁ = true) (h : running (l₁ ++ l₂) = false) : .uninvoked ∈ l₂ := by
  by_contra hnot
  have hall : ∀ t ∈ switches l₂, t = .invoked := by
    intro t ht
    rw [switches, List.mem_filter] at ht
    cases t with
    | exited => simp at ht
    | invoked => rfl
    | uninvoked => exact absurd ht.1 hnot
  rw [running, decide_eq_true_eq] at h₁
  rw [running, decide_eq_false_iff_not, switches_append, List.getLast?_append] at h
  cases hlast : (switches l₂).getLast? with
  | none => exact h (by rw [hlast, Option.none_or, h₁])
  | some t =>
    obtain rfl := hall t (List.mem_of_getLast? hlast)
    exact h (by rw [hlast, Option.some_or])

theorem renewed_of_not_running {l : List Turn} (h : running l = false) : Renewed l := by
  rintro l₁ l₂ rfl h₁
  have hmem := uninvoked_mem h₁ h
  simpa using hmem

theorem Renewed.append {l l' : List Turn} (h : Renewed l) (h' : .exited ∉ l') : Renewed (l ++ l') := by
  intro l₁ l₂ heq h₁
  rw [List.append_eq_append_iff] at heq
  rcases heq with ⟨a, rfl, ha⟩ | ⟨a, rfl, ha⟩
  · exact absurd (by simp [ha]) h'
  · cases a with
    | nil =>
      rw [List.nil_append] at ha
      exact absurd (by simp [← ha]) h'
    | cons t a =>
      obtain ⟨rfl, rfl⟩ := List.cons.inj ha
      exact List.mem_append_left _ (h l₁ a rfl h₁)

/-! ### The calls of the blocks -/

variable {ω : Type} (T : Tables) (cb : Callbacks ω)

/-- Every `<invoke>` belongs to one state and is listed there once. -/
structure OwnInvokes : Prop where
  nodup : ∀ i, (T.state i).invoke.Nodup
  owner : ∀ i j, ∀ r ∈ (T.state i).invoke, r ∈ (T.state j).invoke → i = j

theorem ownInvokes_tables {β : Type} (d : Document β) : OwnInvokes (tables d) where
  nodup i := List.Nodup.map (fun _ _ h => (Ref.invoke.inj h).2) List.nodup_range
  owner i j r hi hj := by
    obtain ⟨k, -, rfl⟩ := List.mem_map.mp hi
    obtain ⟨l, -, h⟩ := List.mem_map.mp hj
    exact (Ref.invoke.inj h).1.symm

variable {T}

theorem past_map {i : TreePath} {r : Ref} {c : Ref → Call} {t : Turn}
    (hc : ∀ r', turnOf i r (c r') = if r' = r then some t else none) {l : List Ref} (hl : l.Nodup) :
    past i r (l.map c) = if r ∈ l then [t] else [] := by
  induction l with
  | nil => rfl
  | cons r' l ih =>
    rw [List.nodup_cons] at hl
    have hcons : past i r ((r' :: l).map c) = past i r [c r'] ++ past i r (l.map c) := past_append i r [c r'] _
    rw [hcons, ih hl.2]
    by_cases h : r' = r
    · subst h
      simp [past, hc, hl.1]
    · simp [past, hc, h, Ne.symm h]

theorem past_map_invoke (i : TreePath) (r : Ref) {l : List Ref} (hl : l.Nodup) :
    past i r (l.map .invoke) = if r ∈ l then [.invoked] else [] := past_map (fun _ => rfl) hl

theorem past_map_uninvoke (i : TreePath) (r : Ref) {l : List Ref} (hl : l.Nodup) :
    past i r (l.map .uninvoke) = if r ∈ l then [.uninvoked] else [] := past_map (fun _ => rfl) hl

theorem past_map_process (i : TreePath) (r : Ref) (l : List Ref) : past i r (l.map .process) = [] := by
  rw [past, List.filterMap_eq_nil_iff]
  simp [turnOf]

/-- Of the calls for a list of states only those for its own concern an `<invoke>`. -/
theorem past_flatMap {i : TreePath} {r : Ref} {f : TreePath → List Call} {l : List TreePath} (hl : l.Nodup) (hi : i ∈ l)
    (h : ∀ j, j ≠ i → past i r (f j) = []) : past i r (l.flatMap f) = past i r (f i) := by
  induction l with
  | nil => simp at hi
  | cons j l ih =>
    rw [List.nodup_cons] at hl
    rw [List.flatMap_cons, past_append]
    rcases List.mem_cons.mp hi with rfl | hi
    · have hrest : past i r (l.flatMap f) = [] := by
        rw [past, List.filterMap_eq_nil_iff]
        intro c hc
        obtain ⟨j, hj, hc⟩ := List.mem_flatMap.mp hc
        have hnil := h j fun hji => hl.1 (hji ▸ hj)
        rw [past, List.filterMap_eq_nil_iff] at hnil
        exact hnil c hc
      rw [hrest, List.append_nil]
    · rw [ih hl.2 hi, h j fun hji => hl.1 (hji ▸ hi), List.nil_append]

theorem past_manageCalls (hT : OwnInvokes T) (hn : T.states.Nodup) {i : TreePath} (hi : i ∈ T.states) {r : Ref}
    (hr : r ∈ (T.state i).invoke) (C I : Finset TreePath) :
    past i r (T.states.flatMap (manageCalls T C I)) =
      if i ∈ C then if i ∈ I then [] else [.invoked] else if i ∈ I then [.uninvoked] else [] := by
  have hpast : ∀ j, past i r (manageCalls T C I j) =
      (if j ∉ C ∧ j ∈ I then past i r ((T.state j).invoke.map .uninvoke) else []) ++
        if j ∈ C ∧ j ∉ I then past i r ((T.state j).invoke.map .invoke) else [] := by
    intro j
    rw [manageCalls, past_append]
    congr 1
    · split <;> rfl
    · split <;> rfl
  rw [past_flatMap hn hi]
  · rw [hpast, past_map_uninvoke i r (hT.nodup i), past_map_invoke i r (hT.nodup i), if_pos hr, if_pos hr]
    by_cases hC : i ∈ C <;> by_cases hI : i ∈ I <;> simp [hC, hI]
  · intro j hj
    have hnot : r ∉ (T.state j).invoke := fun h => hj (hT.owner j i r h hr)
    rw [hpast, past_map_uninvoke i r (hT.nodup j), past_map_invoke i r (hT.nodup j), if_neg hnot, if_neg hnot]
    simp

theorem past_completeCalls (hT : OwnInvokes T) (hn : T.states.Nodup) {i : TreePath} (hi : i ∈ T.states) {r : Ref}
    (hr : r ∈ (T.state i).invoke) (C I : Finset TreePath) :
    past i r (T.states.reverse.flatMap (completeCalls T C I)) = if i ∈ I then [.uninvoked] else [] := by
  have hpast : ∀ j, past i r (completeCalls T C I j) =
      if j ∈ I then past i r ((T.state j).invoke.map .uninvoke) else [] := by
    intro j
    rw [completeCalls, past_append]
    split
    · rw [past_map_process, List.nil_append]
      split <;> rfl
    · rw [past, List.filterMap_nil, List.nil_append]
      split <;> rfl
  rw [past_flatMap (List.nodup_reverse.mpr hn) (List.mem_reverse.mpr hi)]
  · rw [hpast, past_map_uninvoke i r (hT.nodup i), if_pos hr]
  · intro j hj
    have hnot : r ∉ (T.state j).invoke := fun h => hj (hT.owner j i r h hr)
    rw [hpast, past_map_uninvoke i r (hT.nodup j), if_neg hnot]
    simp

variable (T)

/-- The calls of a microstep are no invocations; a state that is left is one of the exit set. -/
theorem microstep_turns {i : TreePath} {r : Ref} {m : Microstep} {initializedData : Finset TreePath} {c : Call}
    (hc : c ∈ m.calls T initializedData) {t : Turn} (ht : turnOf i r c = some t) :
    t = .exited ∧ i ∈ exitedStates T m.exitSet m.configuration := by
  simp only [Microstep.calls, List.mem_append, List.mem_flatMap, List.mem_singleton] at hc
  rcases hc with ((⟨j, hj, hc⟩ | ⟨j, hj, hc⟩) | ⟨j, hj, hc⟩) | rfl
  · simp only [exitCalls, List.mem_cons, List.mem_append, List.mem_map, List.not_mem_nil, or_false] at hc
    rcases hc with rfl | ⟨_, _, rfl⟩ | rfl
    · by_cases h : j = i
      · subst h
        exact ⟨by simpa [turnOf, eq_comm] using ht, hj⟩
      · simp [turnOf, h] at ht
    · simp [turnOf] at ht
    · simp [turnOf] at ht
  · simp only [transitionCalls, List.mem_cons, List.mem_append, List.mem_map, List.not_mem_nil, or_false] at hc
    rcases hc with rfl | ⟨_, _, rfl⟩ | rfl <;> simp [turnOf] at ht
  · simp only [enterCalls, List.mem_cons, List.mem_append, List.mem_flatMap] at hc
    rcases hc with rfl | hc | hc | rfl | ⟨k, _, hc⟩ | hc
    · simp [turnOf] at ht
    · split at hc
      · obtain ⟨_, _, rfl⟩ := List.mem_map.mp hc
        simp [turnOf] at ht
      · simp at hc
    · obtain ⟨_, _, rfl⟩ := List.mem_map.mp hc
      simp [turnOf] at ht
    · simp [turnOf] at ht
    · simp only [transitionCalls, List.mem_cons, List.mem_append, List.mem_map, List.not_mem_nil, or_false] at hc
      rcases hc with rfl | ⟨_, _, rfl⟩ | rfl <;> simp [turnOf] at ht
    · split at hc
      · obtain ⟨_, _, rfl⟩ := List.mem_map.mp hc
        simp [turnOf] at ht
      · simp at hc
  · simp [turnOf] at ht

/-! ### The marks and the past -/

/-- What holds of the past of an `<invoke>` whose state is active, or marked as invoked. -/
structure Tracks (active marked : Prop) (l : List Turn) : Prop where
  alternates : Alternates l
  invoked : running l = true ↔ marked
  renewed : active → Renewed l

section Tracks

variable {active marked : Prop} {l : List Turn}

/-- The state may be left; where it is active afterwards it has stayed or it is not marked. -/
theorem Tracks.exits {active' : Prop} (h : Tracks active marked l) {l' : List Turn} (hl' : ∀ t ∈ l', t = .exited)
    (hactive : active' → (active ∧ l' = []) ∨ ¬ marked) : Tracks active' marked (l ++ l') := by
  refine ⟨alternates_append_exits h.alternates hl', by rw [running_append_exits l hl', h.invoked], ?_⟩
  intro ha
  rcases hactive ha with ⟨ha, rfl⟩ | hnot
  · rw [List.append_nil]
    exact h.renewed ha
  · refine renewed_of_not_running ?_
    rw [running_append_exits l hl', Bool.eq_false_iff]
    exact fun hrun => hnot (h.invoked.mp hrun)

theorem Tracks.invoke {marked' : Prop} (h : Tracks active marked l) (hm : ¬ marked) (hm' : marked') :
    Tracks active marked' (l ++ [.invoked]) := by
  have hrun : running (l ++ [.invoked]) = true := by simp [running_append_switch]
  refine ⟨alternates_append_switch h.alternates (by simp) ?_, by simp [hrun, hm'], fun ha => (h.renewed ha).append (by simp)⟩
  simp [h.invoked, hm]

theorem Tracks.uninvoke {marked' : Prop} (h : Tracks active marked l) (hm : marked) (hm' : ¬ marked') :
    Tracks active marked' (l ++ [.uninvoked]) := by
  have hrun : running (l ++ [.uninvoked]) = false := by simp [running_append_switch]
  refine ⟨alternates_append_switch h.alternates (by simp) ?_, by simp [hrun, hm'], fun ha => (h.renewed ha).append (by simp)⟩
  simp [h.invoked, hm]

theorem Tracks.same {marked' : Prop} (h : Tracks active marked l) (hm : marked ↔ marked') :
    Tracks active marked' (l ++ []) := by
  rw [List.append_nil]
  exact ⟨h.alternates, h.invoked.trans hm, h.renewed⟩

end Tracks

def Tracked (s : St ω) : Prop :=
  ∀ i ∈ T.states, ∀ r ∈ (T.state i).invoke, Tracks (i ∈ s.configuration) (i ∈ s.invocations) (past i r s.calls)

/-- With a stable configuration exactly the active states are marked as invoked. -/
def Managed (s : St ω) : Prop :=
  s.flags.finished = false → s.flags.stable = true → ∀ i ∈ T.states, i ∈ s.invocations ↔ i ∈ s.configuration

variable {T}

theorem Tracked.calls {s s' : St ω} (h : Tracked T s) {l : List Call} (hcalls : s'.calls = s.calls ++ l)
    (hl : ∀ c ∈ l, ∀ i r, turnOf i r c = none) (hC : s'.configuration = s.configuration)
    (hI : s'.invocations = s.invocations) : Tracked T s' := by
  intro i hi r hr
  have hpast : past i r l = [] := by
    rw [past, List.filterMap_eq_nil_iff]
    exact fun c hc => hl c hc i r
  rw [hcalls, past_append, hpast, List.append_nil, hC, hI]
  exact h i hi r hr

theorem manageInvocations_tracked (hT : OwnInvokes T) (hn : T.states.Nodup) {s : St ω} (h : Tracked T s) :
    Tracked T (manageInvocations T cb s) := by
  intro i hi r hr
  have hmark : i ∈ s.invocations \ T.states.toFinset ∪ s.configuration ∩ T.states.toFinset ↔ i ∈ s.configuration := by
    simp [hi]
  rw [manageInvocations_calls T cb hn, past_append, past_manageCalls hT hn hi hr, manageInvocations_toMicro, hmark]
  have htracks := h i hi r hr
  split
  · rename_i hC
    split
    · exact htracks.same (by simp [*])
    · exact htracks.invoke (by assumption) hC
  · rename_i hC
    split
    · exact htracks.uninvoke (by assumption) hC
    · exact htracks.same (by simp [*])

theorem complete_tracked (hT : OwnInvokes T) (hn : T.states.Nodup) {s : St ω} (h : Tracked T s) :
    Tracked T (complete T cb s) := by
  intro i hi r hr
  have hmark : i ∈ s.invocations \ T.states.toFinset ↔ False := by simp [hi]
  have hpast : past i r (.beforeCompletion ::
      (T.states.reverse.flatMap (completeCalls T s.configuration s.invocations) ++ [.afterCompletion])) =
      if i ∈ s.invocations then [.uninvoked] else [] := by
    have hparts : past i r (.beforeCompletion ::
        (T.states.reverse.flatMap (completeCalls T s.configuration s.invocations) ++ [.afterCompletion])) =
        past i r (T.states.reverse.flatMap (completeCalls T s.configuration s.invocations) ++ [.afterCompletion]) := rfl
    rw [hparts, past_append, past_completeCalls hT hn hi hr]
    exact List.append_nil _
  rw [complete_calls T cb hn, past_append, hpast, complete_toMicro, hmark]
  have htracks := h i hi r hr
  split
  · exact htracks.uninvoke (by assumption) (by simp)
  · exact htracks.same (by simp [*])

theorem microstep_tracked (hT : T.states.Pairwise (· < ·)) {s : St ω} (h : Tracked T s) (m : Microstep)
    (hm : m = ⟨s.configuration, s.history, m.targetSet, m.exitSet, m.transSet⟩)
    (hnew : ∀ i ∈ m.newStates T, i ∈ s.invocations → (T.state i).invoke = []) :
    Tracked T (microstep T cb m.targetSet m.exitSet m.transSet s) := by
  intro i hi r hr
  rw [microstep_calls T cb hT, ← hm, past_append, microstep_toMicro]
  have hconf : m.configuration = s.configuration := by rw [hm]
  have hexits : ∀ t ∈ past i r (m.calls T s.initializedData ++
      if nextConfiguration T m.targetSet m.exitSet m.transSet s.configuration s.history ∈ s.microstepConfigurations then
        [.reportIssue] else []), t = .exited ∧ i ∈ exitedStates T m.exitSet m.configuration := by
    intro t ht
    obtain ⟨c, hc, ht⟩ := List.mem_filterMap.mp ht
    rcases List.mem_append.mp hc with hc | hc
    · exact microstep_turns T hc ht
    · split at hc
      · obtain rfl := List.mem_singleton.mp hc
        simp [turnOf] at ht
      · simp at hc
  refine (h i hi r hr).exits (fun t ht => (hexits t ht).1) ?_
  intro hactive
  change i ∈ nextConfiguration T m.targetSet m.exitSet m.transSet s.configuration s.history at hactive
  rw [nextConfiguration, Finset.mem_union, List.mem_toFinset] at hactive
  rcases hactive with hstays | hentered
  · left
    rw [remaining, Finset.mem_sdiff] at hstays
    refine ⟨hstays.1, List.eq_nil_iff_forall_not_mem.mpr fun t ht => hstays.2 ?_⟩
    have hleft := (hexits t ht).2
    rw [exitedStates, List.mem_filter, decide_eq_true_eq] at hleft
    exact Finset.mem_inter.mpr ⟨hleft.2.1, List.mem_toFinset.mpr hi⟩
  · right
    intro hmarked
    rw [hnew i (by rw [Microstep.newStates, hm]; exact hentered) hmarked] at hr
    simp at hr

/-! ### Runs -/

variable (T)

/-- No microstep enters a state whose invocations still run. -/
def Renews (s : St ω) : Prop :=
  ∀ m ∈ microstepOf T cb s, ∀ i ∈ m.newStates T, i ∈ s.invocations → (T.state i).invoke = []

instance (s : St ω) : Decidable (Renews T cb s) := inferInstanceAs (Decidable (∀ m ∈ microstepOf T cb s, _))

theorem selectAndStep_managed (s : St ω) : Managed T (selectAndStep T cb s).2 := by
  intro _ hstable
  generalize hsel : selectTransitions T cb s.configuration s.event s.env = sel
  cases hfound : sel.found with
  | true =>
    rw [selectAndStep_of_found T cb hsel hfound] at hstable
    simp [microstep_toMicro, prepared] at hstable
  | false =>
    rw [selectAndStep_of_not_found T cb hsel hfound] at hstable
    simp at hstable

theorem drained_managed (s : St ω) :
    ∀ i ∈ T.states, i ∈ (drained T cb s).invocations ↔ i ∈ (drained T cb s).configuration := by
  intro i hi
  rw [drained_toMicro]
  simp [hi]

theorem step_managed {s : St ω} (h : Managed T s) : Managed T (step T cb s).2 := by
  have harises := phase_arises T cb s
  rw [step_eq_phase]
  generalize phase T cb s = phase at harises
  cases harises with
  | finished hf => exact h
  | completion hf ht =>
    intro hfin
    simp [Phase.finish, complete_toMicro] at hfin
  | start hp =>
    have hstable : s.flags.stable = false := by
      rw [Flags.pristine, decide_eq_true_eq] at hp
      simp [hp]
    intro _ hs
    simp [Phase.finish, microstep_toMicro, hstable] at hs
  | eventless => exact selectAndStep_managed T cb _
  | internal => exact selectAndStep_managed T cb _
  | stable => exact fun _ _ => drained_managed T cb s
  | thrown => exact fun _ _ => drained_managed T cb s
  | external => exact selectAndStep_managed T cb _
  | unblocked =>
    rw [Phase.finish]
    split
    · exact fun _ _ => drained_managed T cb s
    · exact fun _ _ => drained_managed T cb s

theorem Reachable.managed {s : St ω} (hs : Reachable T cb s) : Managed T s := by
  induction hs with
  | init w => simp [Managed]
  | step _ ih => exact step_managed T cb ih
  | environment w _ ih => exact ih
  | cancel _ ih => exact ih

variable {T}

theorem selectAndStep_tracked (hT : T.states.Pairwise (· < ·)) {s s₀ : St ω} (hphase : phase T cb s = .select s₀)
    (h : Tracked T s₀) (hnew : Renews T cb s) (hI : ∀ i ∈ T.states, i ∈ s₀.invocations → i ∈ s.invocations) :
    Tracked T (selectAndStep T cb s₀).2 := by
  generalize hsel : selectTransitions T cb s₀.configuration s₀.event s₀.env = sel
  have hm := microstepOf_select T cb hphase hsel
  cases hfound : sel.found with
  | true =>
    rw [selectAndStep_of_found T cb hsel hfound]
    rw [hfound, if_pos rfl] at hm
    have hprepared : Tracked T (prepared T sel s₀) := h.calls (l := [.beforeMicroStep]) rfl (by simp [turnOf]) rfl rfl
    refine microstep_tracked cb hT hprepared (sel.microstep T s₀.toMicro) rfl ?_
    intro i hi hmarked
    have hstate : i ∈ T.states := ((mem_entered T).mp hi).1
    exact hnew _ hm i hi (hI i hstate hmarked)
  | false =>
    rw [selectAndStep_of_not_found T cb hsel hfound]
    exact h.calls (l := []) (by simp) (by simp) rfl rfl

theorem step_tracked (hT : OwnInvokes T) (hpair : T.states.Pairwise (· < ·)) {s : St ω} (hmanaged : Managed T s)
    (h : Tracked T s) (hnew : Renews T cb s) : Tracked T (step T cb s).2 := by
  have hn : T.states.Nodup := hpair.imp fun h => ne_of_lt h
  have hdrained : Tracked T (drained T cb s) := manageInvocations_tracked cb hT hn h
  have harises := phase_arises T cb s
  rw [step_eq_phase]
  generalize hphase : phase T cb s = phase at harises
  cases harises with
  | finished hf => exact h
  | completion hf ht => exact complete_tracked cb hT hn h
  | start hp =>
    have hm : microstepOf T cb s = some ⟨s.configuration, s.history, (T.state []).completion, ∅, ∅⟩ := by
      simp only [microstepOf, hphase]
    have hemit : Tracked T (emit .beforeMicroStep
        { s with flags := { s.flags with spontaneous := true, initialized := true } }) :=
      h.calls (l := [.beforeMicroStep]) rfl (by simp [turnOf]) rfl rfl
    exact microstep_tracked cb hpair hemit ⟨s.configuration, s.history, (T.state []).completion, ∅, ∅⟩ rfl (hnew _ hm)
  | eventless hruns hs =>
    exact selectAndStep_tracked cb hpair hphase (h.calls (l := []) (by simp) (by simp) rfl rfl) hnew fun _ _ hi => hi
  | internal hruns hs he =>
    refine selectAndStep_tracked cb hpair hphase ?_ hnew fun _ _ hi => hi
    exact h.calls (l := [.beforeProcessingEvent _]) rfl (by simp [turnOf]) rfl rfl
  | stable hd hs => exact hdrained.calls (l := [.onStableConfiguration]) rfl (by simp [turnOf]) rfl rfl
  | thrown ha w u hd => exact hdrained.calls (l := [.dequeueExternal]) rfl (by simp [turnOf]) rfl rfl
  | external ha event w hd he =>
    refine selectAndStep_tracked cb hpair hphase ?_ hnew ?_
    · exact hdrained.calls (l := [.dequeueExternal, .beforeProcessingEvent event]) (by simp [processing, dequeued])
        (by simp [turnOf]) rfl rfl
    · -- The configuration is stable, so the marks were those of the active states before.
      intro i hi hmarked
      have hC : (drained T cb s).configuration = s.configuration := by rw [drained_toMicro]
      exact (hmanaged ha.finished ha.stable i hi).mpr (hC ▸ (drained_managed T cb s i hi).mp hmarked)
  | unblocked ha event w hd he =>
    have hasked : Tracked T (dequeued event w (drained T cb s)) :=
      hdrained.calls (l := [.dequeueExternal]) rfl (by simp [turnOf]) rfl rfl
    rw [Phase.finish]
    split
    · exact hasked.calls (l := []) (by simp) (by simp) rfl rfl
    · exact hasked

variable (T)

/-- The runs in which no microstep enters a state whose invocations still run. -/
inductive RenewingRun : St ω → Prop where
  | init (w : ω) : RenewingRun { env := w }
  | step {s : St ω} (hs : RenewingRun s) (h : Renews T cb s) : RenewingRun (step T cb s).2
  | environment {s : St ω} (w : ω) (hs : RenewingRun s) : RenewingRun { s with env := w }
  | cancel {s : St ω} (hs : RenewingRun s) : RenewingRun (markAsCancelled s)

theorem RenewingRun.reachable {s : St ω} (hs : RenewingRun T cb s) : Reachable T cb s := by
  induction hs with
  | init w => exact .init w
  | step _ _ ih => exact ih.step
  | environment w _ ih => exact ih.environment w
  | cancel _ ih => exact ih.cancel

theorem RenewingRun.steps {s : St ω} (hs : RenewingRun T cb s) (n : Nat)
    (h : ∀ k < n, Renews T cb (steps T cb k s)) : RenewingRun T cb (steps T cb n s) := by
  induction n generalizing s with
  | zero => exact hs
  | succ n ih => exact ih (hs.step (h 0 n.succ_pos)) fun k hk => h (k + 1) (Nat.succ_lt_succ hk)

theorem RenewingRun.tracked (hT : OwnInvokes T) (hpair : T.states.Pairwise (· < ·)) {s : St ω}
    (hs : RenewingRun T cb s) : Tracked T s := by
  induction hs with
  | init w =>
    intro i _ r _
    exact ⟨List.isChain_singleton _, by simp [past, running, switches], by simp⟩
  | step hs h ih => exact step_tracked cb hT hpair (hs.reachable.managed) ih h
  | environment w _ ih => exact ih
  | cancel _ ih => exact ih

/-- What is expected of the calls for `<invoke>` elements when a step returns. -/
structure InvocationDiscipline (result : StepResult) (s : St ω) : Prop where
  alternates : ∀ i ∈ T.states, ∀ r ∈ (T.state i).invoke, Alternates (past i r s.calls)
  invoked : result = .returned .macrostepped ∨ result = .returned .idle →
    ∀ i ∈ T.states, ∀ r ∈ (T.state i).invoke, running (past i r s.calls) = true ↔ i ∈ s.configuration
  finished : result = .returned .finished →
    ∀ i ∈ T.states, ∀ r ∈ (T.state i).invoke, running (past i r s.calls) = false
  renewed : ∀ i ∈ T.states, i ∈ s.configuration → ∀ r ∈ (T.state i).invoke, Renewed (past i r s.calls)

theorem selectAndStep_result (s : St ω) : (selectAndStep T cb s).1 = .returned .microstepped := by
  simp only [selectAndStep]
  split <;> rfl

/-- A step returns `USCXML_FINISHED` when it completes the run or finds it completed. -/
theorem step_finished {s : St ω} (h : (step T cb s).1 = .returned .finished) :
    (s.flags.finished = true ∧ (step T cb s).2 = s) ∨ (step T cb s).2 = complete T cb s := by
  have harises := phase_arises T cb s
  rw [step_eq_phase] at h ⊢
  generalize phase T cb s = phase at harises h
  cases harises with
  | finished hf => exact Or.inl ⟨hf, rfl⟩
  | completion hf ht => exact Or.inr rfl
  | start hp => simp [Phase.finish] at h
  | eventless | internal | external => simp [Phase.finish, selectAndStep_result] at h
  | stable | thrown => simp [Phase.finish] at h
  | unblocked =>
    rw [Phase.finish] at h
    split at h <;> simp at h

/-- A step returns `USCXML_MACROSTEPPED` or `USCXML_IDLE` only when it has managed the invocations. -/
theorem step_rests {s : St ω} (h : (step T cb s).1 = .returned .macrostepped ∨ (step T cb s).1 = .returned .idle) :
    ∀ i ∈ T.states, i ∈ (step T cb s).2.invocations ↔ i ∈ (step T cb s).2.configuration := by
  have harises := phase_arises T cb s
  rw [step_eq_phase] at h ⊢
  generalize phase T cb s = phase at harises h
  cases harises with
  | finished | completion | start => simp [Phase.finish] at h
  | eventless | internal | external => simp [Phase.finish, selectAndStep_result] at h
  | thrown => simp [Phase.finish] at h
  | stable => exact drained_managed T cb s
  | unblocked =>
    rw [Phase.finish] at h ⊢
    split
    · exact drained_managed T cb s
    · exact drained_managed T cb s

theorem selectAndStep_finished (s : St ω) : (selectAndStep T cb s).2.flags.finished = s.flags.finished := by
  generalize hsel : selectTransitions T cb s.configuration s.event s.env = sel
  cases hfound : sel.found with
  | true =>
    rw [selectAndStep_of_found T cb hsel hfound]
    simp [microstep_toMicro, prepared]
  | false => rw [selectAndStep_of_not_found T cb hsel hfound]

theorem step_unmarked {s : St ω} (h : s.flags.finished = true → ∀ i ∈ T.states, i ∉ s.invocations)
    (hf : (step T cb s).2.flags.finished = true) : ∀ i ∈ T.states, i ∉ (step T cb s).2.invocations := by
  have hflags : (drained T cb s).flags = s.flags := by rw [drained_toMicro]
  have harises := phase_arises T cb s
  rw [step_eq_phase] at hf ⊢
  generalize phase T cb s = phase at harises hf
  cases harises with
  | finished hfin => exact h hfin
  | completion =>
    intro i hi
    simp [Phase.finish, complete_toMicro, hi]
  | start hp =>
    rw [Flags.pristine, decide_eq_true_eq] at hp
    simp [Phase.finish, microstep_toMicro, hp] at hf
  | eventless hruns | internal hruns =>
    rw [Phase.finish, selectAndStep_finished] at hf
    exact absurd (hruns.finished.symm.trans hf) Bool.false_ne_true
  | external ha =>
    rw [Phase.finish, selectAndStep_finished] at hf
    change (drained T cb s).flags.finished = true at hf
    rw [hflags, ha.finished] at hf
    exact absurd hf Bool.false_ne_true
  | stable hd =>
    change (drained T cb s).flags.finished = true at hf
    rw [hflags, hd.finished] at hf
    exact absurd hf Bool.false_ne_true
  | thrown ha =>
    change (drained T cb s).flags.finished = true at hf
    rw [hflags, ha.finished] at hf
    exact absurd hf Bool.false_ne_true
  | unblocked ha event w =>
    have hcase : (dequeued event w (drained T cb s)).flags.finished = false := by
      change (drained T cb s).flags.finished = false
      rw [hflags, ha.finished]
    rw [Phase.finish] at hf
    split at hf
    · exact absurd (hcase.symm.trans hf) Bool.false_ne_true
    · exact absurd (hcase.symm.trans hf) Bool.false_ne_true

theorem Reachable.unmarked {s : St ω} (hs : Reachable T cb s) :
    s.flags.finished = true → ∀ i ∈ T.states, i ∉ s.invocations := by
  induction hs with
  | init w => simp
  | step _ ih => exact step_unmarked T cb ih
  | environment w _ ih => exact ih
  | cancel _ ih => exact ih

/-- In a run in which no microstep enters a state whose invocations still run, every step keeps the discipline. -/
theorem invocations_disciplined {β : Type} (d : Document β) {s : St ω} (hs : RenewingRun (init d) cb s)
    (h : Renews (init d) cb s) :
    InvocationDiscipline (init d) (step (init d) cb s).1 (step (init d) cb s).2 := by
  have hown : OwnInvokes (init d) := ownInvokes_tables (resortStates d)
  have hpair : (init d).states.Pairwise (· < ·) := (resortStates d).tree.preorder_pairwise
  have htracked := (hs.step h).tracked _ _ hown hpair
  refine ⟨fun i hi r hr => (htracked i hi r hr).alternates, ?_, ?_, fun i hi ha r hr => (htracked i hi r hr).renewed ha⟩
  · intro hresult i hi r hr
    exact (htracked i hi r hr).invoked.trans (step_rests _ _ hresult i hi)
  · intro hresult i hi r hr
    have hfin : (step (init d) cb s).2.flags.finished = true := by
      rcases step_finished _ _ hresult with ⟨hf, heq⟩ | heq
      · rw [heq, hf]
      · rw [heq, complete_toMicro]
    rw [Bool.eq_false_iff]
    exact fun hrun => hs.reachable.step.unmarked _ _ hfin i hi ((htracked i hi r hr).invoked.mp hrun)

/-- Two states with an invocation in the first one, which has a transition to itself. -/
def invokingState : Document Unit where
  tree :=
    { root := { tag := .scxml }
      kids := .cons
        { tag := .state, id := some "a", invoke := [{}]
          transitions := [{ target := some ["a"], event := some "again" }, { target := some ["b"], event := some "e" }] } .nil
        (.cons { tag := .state, id := some "b", transitions := [{ target := some ["a"], event := some "e" }] } .nil .nil) }

def invokingRun (names : List String) (n : Nat) : St (List Event) :=
  steps (init invokingState) externalEvents n { env := names.map fun name => { name := name } }

/-- The state is left and entered again, and the old invocation goes on. -/
theorem invocation_not_renewed :
    Reachable (init invokingState) externalEvents (invokingRun ["again"] 5) ∧
      (step (init invokingState) externalEvents (invokingRun ["again"] 5)).1 = .returned .macrostepped ∧
      ¬ InvocationDiscipline (init invokingState) (step (init invokingState) externalEvents (invokingRun ["again"] 5)).1
        (step (init invokingState) externalEvents (invokingRun ["again"] 5)).2 := by
  refine ⟨(Reachable.init _).steps _ _ 5, by decide +kernel, ?_⟩
  intro h
  have hpast : past [0] (.invoke [0] 0) (step (init invokingState) externalEvents (invokingRun ["again"] 5)).2.calls =
      [.invoked, .exited] := by decide +kernel
  have hrenewed := h.renewed [0] (by decide +kernel) (by decide +kernel) (.invoke [0] 0) (by decide +kernel)
  rw [hpast] at hrenewed
  exact absurd (hrenewed [.invoked] [] rfl (by decide)) List.not_mem_nil

theorem invocations_disciplined_invokingState :
    InvocationDiscipline (init invokingState) (step (init invokingState) externalEvents (invokingRun ["e", "e"] 8)).1
        (step (init invokingState) externalEvents (invokingRun ["e", "e"] 8)).2 ∧
      past [0] (.invoke [0] 0) (step (init invokingState) externalEvents (invokingRun ["e", "e"] 8)).2.calls =
        [.invoked, .exited, .uninvoked, .invoked] :=
  ⟨invocations_disciplined externalEvents invokingState
    (RenewingRun.steps _ _ (.init _) 8 (by decide +kernel)) (by decide +kernel), by decide +kernel⟩

end FastMicroStep

end Uscxml
