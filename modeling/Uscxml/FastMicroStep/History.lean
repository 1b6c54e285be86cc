import Uscxml.FastMicroStep.Effects

/-!
# What histories restore

All histories share the bit set `_history`, each of them masked by its own completion. A log of the last exit of
every state says what a history should restore. The shared bits agree with the log as long as no microstep
exits the parent of one history and leaves a state that it shares with another one in a different condition
than the other one recorded it in.
-/

namespace Uscxml

namespace FastMicroStep

open Document

variable {β ω : Type}

/-! ### The log of exits -/

/-- For every state that was exited, the configuration at its last exit. -/
abbrev ExitLog := TreePath → Option (Finset TreePath)

def ExitLog.record (log : ExitLog) (m : Microstep) : ExitLog :=
  fun p => if p ∈ m.exitSet then some m.configuration else log p

def ExitLog.after (T : Tables) (cb : Callbacks ω) (log : ExitLog) (s : St ω) : ExitLog :=
  match microstepOf T cb s with
  | some m => log.record m
  | none => log

/-- The runs all of whose steps meet a condition, with the log of their exits. -/
inductive LoggedRun (T : Tables) (cb : Callbacks ω) (Ok : St ω → ExitLog → Prop) : St ω → ExitLog → Prop where
  | init (w : ω) : LoggedRun T cb Ok { env := w } fun _ => none
  | step {s : St ω} {log : ExitLog} : LoggedRun T cb Ok s log → Ok s log →
      LoggedRun T cb Ok (step T cb s).2 (log.after T cb s)
  | environment {s : St ω} {log : ExitLog} (w : ω) : LoggedRun T cb Ok s log → LoggedRun T cb Ok { s with env := w } log
  | cancel {s : St ω} {log : ExitLog} : LoggedRun T cb Ok s log → LoggedRun T cb Ok (markAsCancelled s) log

def loggedSteps (T : Tables) (cb : Callbacks ω) (n : Nat) (x : St ω × ExitLog) : St ω × ExitLog :=
  (fun x => ((step T cb x.1).2, x.2.after T cb x.1))^[n] x

theorem LoggedRun.steps {T : Tables} {cb : Callbacks ω} {Ok : St ω → ExitLog → Prop} {x : St ω × ExitLog}
    (h : LoggedRun T cb Ok x.1 x.2) (n : Nat)
    (hok : ∀ k < n, Ok (loggedSteps T cb k x).1 (loggedSteps T cb k x).2) :
    LoggedRun T cb Ok (loggedSteps T cb n x).1 (loggedSteps T cb n x).2 := by
  induction n with
  | zero => exact h
  | succ n ih =>
    simp only [loggedSteps, Function.iterate_succ_apply']
    exact .step (ih fun k hk => hok k (Nat.lt_succ_of_lt hk)) (hok n n.lt_succ_self)

/-! ### The states entered because of a history -/

def Microstep.before (T : Tables) (m : Microstep) (i : TreePath) : Entry :=
  (T.states.filter (· < i)).foldl (descend T m.configuration m.exitSet m.history)
    { entrySet := addAncestors T m.targetSet, transSet := m.transSet }

/-- The entry set when `i` has been treated. -/
def Microstep.behind (T : Tables) (m : Microstep) (i : TreePath) : Entry :=
  descend T m.configuration m.exitSet m.history (m.before T i) i

/-- The states of `C` that a history stands for: the children of its parent, or all its descendants. -/
def recorded (d : Document β) (h : TreePath) (C : Finset TreePath) : Finset TreePath :=
  C.filter fun x => if (d.elem? h).any (·.deep) then x.Below h.parent else x ≠ [] ∧ x.parent = h.parent

/-- `E'` holds, beyond `E`, exactly the states to enter because of `h`: what was active at the last exit of its
parent, and else the targets of its default transition, some of them with their ancestors. -/
def EnteredBecauseOf (d : Document β) (h : TreePath) (log : ExitLog) (E E' : Finset TreePath) : Prop :=
  match log h.parent with
  | some C => E' = E ∪ recorded d h C
  | none => E ∪ (transitionInfo d (h, 0)).target ⊆ E' ∧
      ∀ x ∈ E', x ∈ E ∨ ∃ t ∈ (transitionInfo d (h, 0)).target, x <+: t

instance (d : Document β) (h : TreePath) (log : ExitLog) (E E' : Finset TreePath) :
    Decidable (EnteredBecauseOf d h log E E') :=
  match hlog : log h.parent with
  | some C => decidable_of_iff (E' = E ∪ recorded d h C) (by rw [EnteredBecauseOf, hlog])
  | none =>
    decidable_of_iff (E ∪ (transitionInfo d (h, 0)).target ⊆ E' ∧
      ∀ x ∈ E', x ∈ E ∨ ∃ t ∈ (transitionInfo d (h, 0)).target, x <+: t) (by rw [EnteredBecauseOf, hlog])

/-- Every history in the entry set of the microstep restores what it should. -/
def RestoresHistories (d : Document β) (m : Microstep) (log : ExitLog) : Prop :=
  ∀ h ∈ (m.entry (tables d)).entrySet, d.isHistory h = true →
    h ∈ (m.before (tables d) h).entrySet ∧
      EnteredBecauseOf d h log (m.before (tables d) h).entrySet (m.behind (tables d) h).entrySet

instance (d : Document β) (m : Microstep) (log : ExitLog) : Decidable (RestoresHistories d m log) :=
  inferInstanceAs (Decidable (∀ h ∈ _, _ → _ ∧ _))

/-! ### The condition -/

/-- Every history has a default transition and holds no state. A history that an `initial` attribute, an
`<initial>` or the default transition of a history leads to stands behind the element that leads to it. -/
structure HistoryChart (d : Document β) : Prop where
  default : ∀ h ∈ d.states, d.isHistory h = true → d.transitionsAt h ≠ []
  leaf : ∀ p ∈ d.states, p ≠ [] → d.isHistory p.parent = false
  finalAttr : ∀ h ∈ d.states, d.isHistory h = true → (d.elem? h).any (·.finalAttr) = false
  completion : ∀ j ∈ d.states, ∀ x ∈ (stateInfo d j).completion, d.isHistory x = true → j < x
  target : ∀ j ∈ d.states, d.isHistory j = true ∨ d.tag? j = some .initial → ∀ t ∈ d.transIds j,
    ∀ x ∈ (transitionInfo d t).target, d.isHistory x = true → j < x

/-- The records of the histories do not disturb each other: the states that a history whose parent is exited
shares with one whose parent stays are active as they are recorded. -/
def RecordsApart (d : Document β) (m : Microstep) (history : Finset TreePath) : Prop :=
  ∀ h ∈ d.states, d.isHistory h = true → h.parent ∉ m.exitSet →
    ∀ h' ∈ d.states, d.isHistory h' = true → h'.parent ∈ m.exitSet →
      ∀ x ∈ (stateInfo d h).completion, x ∈ (stateInfo d h').completion → (x ∈ m.configuration ↔ x ∈ history)

/-- The exited parents of histories have active states to record. -/
def RecordsSomething (d : Document β) (m : Microstep) : Prop :=
  ∀ h ∈ d.states, d.isHistory h = true → h.parent ∈ m.exitSet →
    ¬ Disjoint (stateInfo d h).completion m.configuration

/-- A history whose parent was never exited is entered while its parent is not active. -/
def EntersFromOutside (d : Document β) (m : Microstep) (log : ExitLog) : Prop :=
  ∀ h ∈ d.states, d.isHistory h = true → h ∈ (m.entry (tables d)).entrySet → log h.parent = none →
    h.parent ∉ m.configuration

instance (d : Document β) (m : Microstep) (history : Finset TreePath) : Decidable (RecordsApart d m history) :=
  inferInstanceAs (Decidable (∀ h ∈ _, _ → _ → ∀ h' ∈ _, _ → _ → ∀ x ∈ _, _ → (_ ↔ _)))

instance (d : Document β) (m : Microstep) : Decidable (RecordsSomething d m) :=
  inferInstanceAs (Decidable (∀ h ∈ _, _ → _ → ¬ Disjoint _ _))

instance (d : Document β) (m : Microstep) (log : ExitLog) : Decidable (EntersFromOutside d m log) :=
  inferInstanceAs (Decidable (∀ h ∈ _, _ → _ → _ → _ ∉ _))

def KeepsRecords (d : Document β) (cb : Callbacks ω) (s : St ω) (log : ExitLog) : Prop :=
  ∀ m ∈ microstepOf (tables d) cb s,
    RecordsApart d m s.history ∧ RecordsSomething d m ∧ EntersFromOutside d m (log.record m)

instance (d : Document β) (cb : Callbacks ω) (s : St ω) (log : ExitLog) : Decidable (KeepsRecords d cb s log) :=
  inferInstanceAs (Decidable (∀ m ∈ _, _ ∧ _ ∧ _))

/-! ### Histories in the tables -/

/-- What the blocks for histories need of the tables, whoever wrote them: histories hold no states, and one that a
completion, an `<initial>` or a default transition leads to stands behind the element that leads to it. -/
structure HistoryTables (d : Document β) (T : Tables) : Prop where
  states : T.states = d.states
  parent : ∀ h, (T.state h).parent = h.parent
  ancestors : ∀ k, ∀ x ∈ (T.state k).ancestors, k.Below x
  type : ∀ h ∈ d.states, isHistoryType (T.state h).type = d.isHistory h
  leaf : ∀ p ∈ d.states, p ≠ [] → d.isHistory p.parent = false
  completion : ∀ j ∈ d.states, ∀ x ∈ (T.state j).completion, d.isHistory x = true → j < x
  target : ∀ j ∈ d.states, isHistoryType (T.state j).type ∨ (T.state j).type = .initial →
    ∀ t ∈ T.transitions, (T.trans t).source = j → ∀ x ∈ (T.trans t).target, d.isHistory x = true → j < x

section Bits

variable {d : Document β} {T : Tables}

/-- Whatever wrote a bit last, it wrote whether the state was active. -/
theorem mem_rememberHistory (hT : HistoryTables d T) {C X H : Finset TreePath} {x : TreePath} :
    x ∈ rememberHistory T C X H ↔
      if ∃ h ∈ d.states, d.isHistory h = true ∧ h.parent ∈ X ∧ x ∈ (T.state h).completion then x ∈ C else x ∈ H := by
  suffices hloop : ∀ l : List TreePath, (∀ h ∈ l, h ∈ d.states) → ∀ H : Finset TreePath,
      (x ∈ l.foldl (fun history i =>
        if isHistoryType (T.state i).type ∧ (T.state i).parent ∈ X then
          (history \ (T.state i).completion) ∪ ((T.state i).completion ∩ C)
        else history) H ↔
      if ∃ h ∈ l, d.isHistory h = true ∧ h.parent ∈ X ∧ x ∈ (T.state h).completion then x ∈ C else x ∈ H) by
    rw [rememberHistory, hT.states]
    exact hloop d.states (fun _ h => h) H
  intro l
  induction l with
  | nil => simp
  | cons i l ih =>
    intro hl H
    rw [List.foldl_cons, ih fun h hh => hl h (List.mem_cons_of_mem i hh), hT.type i (hl i List.mem_cons_self), hT.parent]
    by_cases hrest : ∃ h ∈ l, d.isHistory h = true ∧ h.parent ∈ X ∧ x ∈ (T.state h).completion
    · have hmore : ∃ h ∈ i :: l, d.isHistory h = true ∧ h.parent ∈ X ∧ x ∈ (T.state h).completion := by
        obtain ⟨h, hh, hrest⟩ := hrest
        exact ⟨h, List.mem_cons_of_mem i hh, hrest⟩
      rw [if_pos hrest, if_pos hmore]
    · rw [if_neg hrest]
      by_cases hi : d.isHistory i = true ∧ i.parent ∈ X
      · rw [if_pos hi]
        by_cases hx : x ∈ (T.state i).completion
        · rw [if_pos ⟨i, List.mem_cons_self, hi.1, hi.2, hx⟩]
          simp [hx]
        · rw [if_neg]
          · simp [hx]
          · rintro ⟨h, hh, h₁, h₂, h₃⟩
            rcases List.mem_cons.mp hh with rfl | hh
            · exact hx h₃
            · exact hrest ⟨h, hh, h₁, h₂, h₃⟩
      · rw [if_neg hi, if_neg]
        rintro ⟨h, hh, h₁, h₂, h₃⟩
        rcases List.mem_cons.mp hh with rfl | hh
        · exact hi ⟨h₁, h₂⟩
        · exact hrest ⟨h, hh, h₁, h₂, h₃⟩

/-- A history whose parent is exited gets the bits of the configuration. -/
theorem mem_rememberHistory_of_exited (hT : HistoryTables d T) {C X H : Finset TreePath} {h x : TreePath}
    (hist : d.isHistory h = true) (hX : h.parent ∈ X) (hx : x ∈ (T.state h).completion) :
    x ∈ rememberHistory T C X H ↔ x ∈ C := by
  rw [mem_rememberHistory hT, if_pos ⟨h, mem_states_of_isHistory hist, hist, hX, hx⟩]

/-- A bit that no history of an exited parent writes otherwise is kept. -/
theorem mem_rememberHistory_of_kept (hT : HistoryTables d T) {C X H : Finset TreePath} {x : TreePath}
    (hx : ∀ h, d.isHistory h = true → h.parent ∈ X → x ∈ (T.state h).completion → (x ∈ C ↔ x ∈ H)) :
    x ∈ rememberHistory T C X H ↔ x ∈ H := by
  rw [mem_rememberHistory hT]
  split
  · rename_i hwriter
    obtain ⟨h, -, hist, hX, hmem⟩ := hwriter
    exact hx h hist hX hmem
  · rfl

end Bits

/-! ### The walk over the entry set -/

section Walk

variable {d : Document β} {T : Tables}

/-- What a round adds to the entry set: states that stand behind the treated one, and no histories otherwise. -/
def Ahead (d : Document β) (j : TreePath) (E E' : Finset TreePath) : Prop :=
  ∀ x ∈ E', d.isHistory x = true → x ∈ E ∨ j < x

theorem Ahead.refl (j : TreePath) (E : Finset TreePath) : Ahead d j E E := fun _ hx _ => Or.inl hx

theorem Ahead.trans {j : TreePath} {E E' E'' : Finset TreePath} (h : Ahead d j E E') (h' : Ahead d j E' E'') :
    Ahead d j E E'' := by
  intro x hx hist
  rcases h' x hx hist with hx | hlt
  · exact h x hx hist
  · exact Or.inr hlt

theorem ahead_union {j : TreePath} {E F : Finset TreePath} (h : ∀ x ∈ F, d.isHistory x = true → j < x) :
    Ahead d j E (E ∪ F) := by
  intro x hx hist
  rcases Finset.mem_union.mp hx with hx | hx
  · exact Or.inl hx
  · exact Or.inr (h x hx hist)

variable (hT : HistoryTables d T)

include hT

theorem HistoryTables.not_history_of_below {k x : TreePath} (hk : k ∈ d.states) (h : k.Below x) :
    d.isHistory x = false := by
  obtain ⟨n, hn⟩ := TreePath.exists_child_of_below h
  have := hT.leaf (x ++ [n]) (mem_states_of_above hn hk) (by simp)
  rwa [TreePath.parent_concat] at this

theorem ahead_ancestors {j k : TreePath} (hk : k ∈ T.states) (E : Finset TreePath) :
    Ahead d j E (E ∪ (T.state k).ancestors) := by
  apply ahead_union
  intro x hx hist
  rw [hT.not_history_of_below (hT.states ▸ hk) (hT.ancestors k x hx)] at hist
  cases hist

theorem enterDefault_ahead {j : TreePath} (hj : j ∈ d.states) (hist : isHistoryType (T.state j).type) (e : Entry) :
    Ahead d j e.entrySet (enterDefault T j e).entrySet := by
  rw [enterDefault]
  cases hfind : T.transitions.find? fun t => (T.trans t).source = j with
  | none => exact .refl j _
  | some t =>
    have hsource : (T.trans t).source = j := by simpa using List.find?_some hfind
    have htarget := ahead_union (E := e.entrySet)
      (hT.target j hj (Or.inl hist) t (List.mem_of_find?_eq_some hfind) hsource)
    simp only
    split
    · cases hbehind : Uscxml.FastMicroStep.behind T j (T.trans t).target with
      | nil => exact htarget
      | cons k ks =>
        have hk : k ∈ Uscxml.FastMicroStep.behind T j (T.trans t).target := hbehind ▸ List.mem_cons_self
        exact htarget.trans (ahead_ancestors hT (mem_behind.mp hk).1 _)
    · exact htarget

omit hT in
theorem addNestedHistories_ahead (j : TreePath) (E : Finset TreePath) : Ahead d j E (addNestedHistories T j E) := by
  rw [addNestedHistories]
  refine List.foldl_invariant (fun E' : Finset TreePath => Ahead d j E E') ?_ (.refl j E)
  intro E' i hi hE'
  split
  · refine List.foldl_invariant (fun E'' : Finset TreePath => Ahead d j E E'') ?_ hE'
    intro E'' k hk hE''
    split
    · intro x hx hist
      rcases Finset.mem_insert.mp hx with rfl | hx
      · exact Or.inr ((mem_behind.mp hi).2.1.trans (mem_behind.mp hk).2.1)
      · exact hE'' x hx hist
    · exact hE''
  · exact hE'

theorem enterHistory_ahead {C H : Finset TreePath} {j : TreePath} (hj : j ∈ d.states)
    (hist : isHistoryType (T.state j).type) (e : Entry) : Ahead d j e.entrySet (enterHistory T C H j e).entrySet := by
  rw [enterHistory]
  split
  · exact enterDefault_ahead hT hj hist e
  · have hrestored : Ahead d j e.entrySet (e.entrySet ∪ ((T.state j).completion ∩ H)) :=
      ahead_union fun x hx => hT.completion j hj x (Finset.mem_inter.mp hx).1
    simp only
    split
    · exact hrestored.trans (addNestedHistories_ahead j _)
    · exact hrestored

theorem enterInitial_ahead {j : TreePath} (hj : j ∈ d.states) (htype : (T.state j).type = .initial) (e : Entry) :
    Ahead d j e.entrySet (enterInitial T j e).entrySet := by
  rw [enterInitial]
  refine List.foldl_invariant (fun e' : Entry => Ahead d j e.entrySet e'.entrySet) ?_ (.refl j _)
  intro e' t ht he'
  rw [List.mem_filter, decide_eq_true_iff] at ht
  refine List.foldl_invariant (fun E' : Finset TreePath => Ahead d j e.entrySet E') ?_ ?_
  · intro E' k hk hE'
    exact hE'.trans (ahead_ancestors hT (mem_behind.mp hk).1 E')
  · intro x hx hist
    rcases Finset.mem_union.mp hx with hx | hx
    · exact he' x (Finset.mem_of_mem_erase hx) hist
    · exact Or.inr (hT.target j hj (Or.inr htype) t ht.1 ht.2 x hx hist)

theorem enterCompound_ahead {C X : Finset TreePath} {j : TreePath} (hj : j ∈ d.states) (E : Finset TreePath) :
    Ahead d j E (enterCompound T C X j E) := by
  have hcompletion : Ahead d j E (E ∪ (T.state j).completion) := ahead_union (hT.completion j hj)
  rw [enterCompound]
  simp only
  split
  · split
    · cases hbehind : Uscxml.FastMicroStep.behind T j (T.state j).completion with
      | nil => exact hcompletion
      | cons k ks =>
        have hk : k ∈ Uscxml.FastMicroStep.behind T j (T.state j).completion := hbehind ▸ List.mem_cons_self
        exact hcompletion.trans (ahead_ancestors hT (mem_behind.mp hk).1 _)
    · exact hcompletion
  · exact .refl j E

theorem descend_ahead {C X H : Finset TreePath} {j : TreePath} (hj : j ∈ d.states) (e : Entry) :
    Ahead d j e.entrySet (descend T C X H e j).entrySet := by
  rw [descend]
  split
  · cases h : (T.state j).type with
    | final => exact .refl j _
    | atomic => exact .refl j _
    | parallel => exact ahead_union (hT.completion j hj)
    | historyShallow => exact enterHistory_ahead hT hj (by rw [h]; rfl) e
    | historyDeep => exact enterHistory_ahead hT hj (by rw [h]; rfl) e
    | initial => exact enterInitial_ahead hT hj h e
    | compound => exact enterCompound_ahead hT hj e.entrySet
  · exact .refl j _

theorem mem_before {m : Microstep} {h : TreePath} (hist : d.isHistory h = true)
    (hmem : h ∈ (m.entry T).entrySet) : h ∈ (m.before T h).entrySet := by
  have hh := mem_states_of_isHistory hist
  have hsplit := List.eq_filter_append_of_pairwise_lt d.tree.preorder_pairwise hh
  have hstates : T.states = d.states.filter (· < h) ++ h :: d.states.filter (h < ·) := hT.states.trans hsplit
  rw [Microstep.entry, establishEntrySet, hstates, List.foldl_append, List.foldl_cons] at hmem
  -- The rounds from `h` on add no history at or before `h`.
  have hlate : ∀ e : Entry, ∀ j, j ∈ d.states → h ≤ j →
      h ∈ (descend T m.configuration m.exitSet m.history e j).entrySet → h ∈ e.entrySet := by
    intro e j hj hle hin
    rcases descend_ahead hT hj e h hin hist with hin | hlt
    · exact hin
    · exact absurd hlt (not_lt.mpr hle)
  have hrest := List.foldl_invariant (f := descend T m.configuration m.exitSet m.history)
    (l := d.states.filter (h < ·)) (fun e : Entry => h ∈ e.entrySet → h ∈ (m.before T h).entrySet)
    (fun e j hj he hin => by
      rw [List.mem_filter, decide_eq_true_iff] at hj
      exact he (hlate e j hj.1 hj.2.le hin))
    (s := m.behind T h) (fun hin => by
      rw [Microstep.behind] at hin
      exact hlate _ h hh le_rfl hin)
  rw [Microstep.behind, Microstep.before, hT.states] at hrest
  rw [Microstep.before, hT.states]
  exact hrest hmem

theorem descend_eq_enterHistory {C X H : Finset TreePath} {h : TreePath} (hist : d.isHistory h = true) {e : Entry}
    (hmem : h ∈ e.entrySet) : descend T C X H e h = enterHistory T C H h e := by
  have htype := hT.type h (mem_states_of_isHistory hist)
  rw [hist] at htype
  rw [descend, if_pos hmem]
  cases hs : (T.state h).type with
  | historyShallow => rfl
  | historyDeep => rfl
  | final | atomic | parallel | initial | compound =>
    rw [hs] at htype
    cases htype

/-- The default transition brings its targets, and for a deep history what lies above one of them. -/
theorem enterDefault_exact {h : TreePath} {t : TransId}
    (hfind : (T.transitions.find? fun t => (T.trans t).source = h) = some t) (e : Entry) :
    e.entrySet ∪ (T.trans t).target ⊆ (enterDefault T h e).entrySet ∧
      ∀ x ∈ (enterDefault T h e).entrySet, x ∈ e.entrySet ∨ ∃ y ∈ (T.trans t).target, x <+: y := by
  have hexact : ∀ x ∈ e.entrySet ∪ (T.trans t).target, x ∈ e.entrySet ∨ ∃ y ∈ (T.trans t).target, x <+: y := by
    intro x hx
    rcases Finset.mem_union.mp hx with hx | hx
    · exact Or.inl hx
    · exact Or.inr ⟨x, hx, List.prefix_refl x⟩
  rw [enterDefault, hfind]
  simp only
  split
  · cases hbehind : Uscxml.FastMicroStep.behind T h (T.trans t).target with
    | nil => exact ⟨Finset.Subset.refl _, hexact⟩
    | cons k ks =>
      have hk : k ∈ Uscxml.FastMicroStep.behind T h (T.trans t).target := hbehind ▸ List.mem_cons_self
      refine ⟨Finset.subset_union_left, ?_⟩
      intro x hx
      rcases Finset.mem_union.mp hx with hx | hx
      · exact hexact x hx
      · exact Or.inr ⟨k, (mem_behind.mp hk).2.2, (hT.ancestors k x hx).1⟩
  · exact ⟨Finset.Subset.refl _, hexact⟩

theorem not_history_of_entered {x : TreePath} (hx : x ∈ d.states) (hpseudo : (T.state x).type.pseudo = false) :
    d.isHistory x = false := by
  rw [← hT.type x hx]
  cases hs : (T.state x).type <;> simp_all [StateType.pseudo, isHistoryType]

end Walk

/-! ### The bits and the log -/

section Records

variable {d : Document β}

theorem isHistoryType_iff (hd : HistoryChart d) {h : TreePath} (hh : h ∈ d.states) :
    isHistoryType (stateType d h) = d.isHistory h := by
  cases hist : d.isHistory h with
  | true =>
    have htag := isHistory_iff.mp hist
    have hfinal : d.isFinal h = false := (isFinal_of_isHistory hist).trans (hd.finalAttr h hh hist)
    rw [stateType, if_neg (by simp [htag]), hfinal, hist]
    simp only [Bool.false_eq_true, if_false, if_true]
    split <;> rfl
  | false =>
    rw [stateType, hist]
    split
    · rfl
    split
    · rfl
    simp only [Bool.false_eq_true, if_false]
    split
    · rfl
    split <;> rfl

theorem mem_completion_history {h x : TreePath} (hist : d.isHistory h = true) :
    x ∈ (stateInfo d h).completion ↔ x ∈ d.states ∧ x ≠ h ∧ d.isHistory x = false ∧
      if (d.elem? h).any (·.deep) then x.Below h.parent else x ≠ [] ∧ x.parent = h.parent := by
  have hlist : getCompletion d h = (getHistoryCompletion d h).map some := by rw [getCompletion, if_pos hist]
  have hsub : (getHistoryCompletion d h).Sublist d.states := List.filter_sublist
  rw [stateInfo, hlist, matchInOrder_of_sublist hsub, List.mem_toFinset, getHistoryCompletion, List.mem_filter]
  split <;> simp_all [and_assoc]

theorem HistoryChart.tables (hd : HistoryChart d) : HistoryTables d (tables d) where
  states := rfl
  parent _ := rfl
  ancestors _ _ hx := mem_stateInfo_ancestors.mp hx
  type _ hh := isHistoryType_iff hd hh
  leaf := hd.leaf
  completion := hd.completion
  target j hj hkind t ht hsource := by
    have hmem : t ∈ d.transIds j := by
      have := mem_postFixTransitions.mp ht
      rw [show t.1 = j from hsource] at this
      exact List.mem_map.mpr ⟨t.2, List.mem_range.mpr this, by rw [← hsource]; rfl⟩
    refine hd.target j hj ?_ t hmem
    rcases hkind with hkind | hkind
    · exact Or.inl ((isHistoryType_iff hd hj).symm.trans hkind)
    · exact Or.inr ((kind_of_stateType hj).2.2.2 hkind)

structure Records (d : Document β) (history : Finset TreePath) (log : ExitLog) : Prop where
  fresh : ∀ h ∈ d.states, d.isHistory h = true → log h.parent = none →
    ∀ x ∈ (stateInfo d h).completion, x ∉ history
  kept : ∀ h ∈ d.states, d.isHistory h = true → ∀ C, log h.parent = some C →
    (∀ x ∈ (stateInfo d h).completion, (x ∈ history ↔ x ∈ C)) ∧ ¬ Disjoint (stateInfo d h).completion C
  proper : ∀ p C, log p = some C → ∀ x ∈ C, x ∈ d.states ∧ d.isHistory x = false

theorem Records.remember (hd : HistoryChart d) {m : Microstep} {H : Finset TreePath} {log : ExitLog}
    (h : Records d H log) (hm : m.history = rememberHistory (tables d) m.configuration m.exitSet H)
    (hC : ∀ x ∈ m.configuration, x ∈ d.states ∧ d.isHistory x = false)
    (hshared : RecordsApart d m H) (hactive : RecordsSomething d m) :
    Records d m.history (log.record m) := by
  -- A history whose parent stays keeps its bits, one whose parent is exited gets those of the configuration.
  have hkeep : ∀ h ∈ d.states, d.isHistory h = true → h.parent ∉ m.exitSet →
      ∀ x ∈ (stateInfo d h).completion, (x ∈ m.history ↔ x ∈ H) := by
    intro h hh hist hout x hx
    rw [hm]
    refine mem_rememberHistory_of_kept hd.tables ?_
    intro h' hist' hin hx'
    exact hshared h hh hist hout h' (mem_states_of_isHistory hist') hist' hin x hx hx'
  have hwrite : ∀ h ∈ d.states, d.isHistory h = true → h.parent ∈ m.exitSet →
      ∀ x ∈ (stateInfo d h).completion, (x ∈ m.history ↔ x ∈ m.configuration) := by
    intro h hh hist hin x hx
    rw [hm]
    exact mem_rememberHistory_of_exited hd.tables hist hin hx
  refine ⟨?_, ?_, ?_⟩
  · intro h' hh hist hlog x hx
    rw [ExitLog.record] at hlog
    split at hlog
    · cases hlog
    · rename_i hout
      rw [hkeep h' hh hist hout x hx]
      exact h.fresh h' hh hist hlog x hx
  · intro h' hh hist C hlog
    rw [ExitLog.record] at hlog
    split at hlog
    · rename_i hin
      cases hlog
      exact ⟨hwrite h' hh hist hin, hactive h' hh hist hin⟩
    · rename_i hout
      obtain ⟨hbits, hdisj⟩ := h.kept h' hh hist C hlog
      exact ⟨fun x hx => (hkeep h' hh hist hout x hx).trans (hbits x hx), hdisj⟩
  · intro p C hlog
    rw [ExitLog.record] at hlog
    split at hlog
    · cases hlog
      exact hC
    · exact h.proper p C hlog

end Records

section Restores

variable {d : Document β} (hd : HistoryChart d)

theorem hasHistory_eq_false (p : TreePath) : (stateInfo d p).hasHistory = false := by
  rw [stateInfo, decide_eq_false_iff_not]
  intro h
  have hmem := List.mem_of_getLast? h
  rw [List.mem_filter] at hmem
  simp at hmem

include hd

theorem find_default {h : TreePath} (hh : h ∈ d.states) (hist : d.isHistory h = true) :
    ((tables d).transitions.find? fun t => ((tables d).trans t).source = h) = some (h, 0) :=
  find_transitionsAt (hd.default h hh hist)

/-- A history whose bits agree with the log enters what it should. -/
theorem descend_history {m : Microstep} {log : ExitLog} {h : TreePath} (hh : h ∈ d.states)
    (hist : d.isHistory h = true) (hr : Records d m.history log)
    (hout : log h.parent = none → h.parent ∉ m.configuration) {e : Entry} (hmem : h ∈ e.entrySet) :
    EnteredBecauseOf d h log e.entrySet
      (descend (tables d) m.configuration m.exitSet m.history e h).entrySet := by
  have hdisjoint : Disjoint ((tables d).state h).completion m.history ↔
      ∀ x ∈ (stateInfo d h).completion, x ∉ m.history := Finset.disjoint_left
  have hno : ¬ ((tables d).state h).hasHistory = true := by
    simp [tables, hasHistory_eq_false]
  rw [descend_eq_enterHistory hd.tables hist hmem, EnteredBecauseOf]
  cases hlog : log h.parent with
  | some C =>
    obtain ⟨hbits, hsome⟩ := hr.kept h hh hist C hlog
    have hcond : ¬ (Disjoint ((tables d).state h).completion m.history ∧
        ((tables d).state h).parent ∉ m.configuration) := by
      rintro ⟨hdis, -⟩
      rw [hdisjoint] at hdis
      apply hsome
      rw [Finset.disjoint_left]
      intro x hx hC
      exact hdis x hx ((hbits x hx).mpr hC)
    rw [enterHistory, if_neg hcond]
    simp only [hno]
    show e.entrySet ∪ ((stateInfo d h).completion ∩ m.history) = e.entrySet ∪ recorded d h C
    congr 1
    ext x
    rw [Finset.mem_inter, recorded, Finset.mem_filter]
    constructor
    · rintro ⟨hx, hbit⟩
      exact ⟨(hbits x hx).mp hbit, ((mem_completion_history hist).mp hx).2.2.2⟩
    · rintro ⟨hC, hrel⟩
      obtain ⟨hstate, hproper⟩ := hr.proper h.parent C hlog x hC
      have hne : x ≠ h := by
        rintro rfl
        rw [hist] at hproper
        cases hproper
      have hx : x ∈ (stateInfo d h).completion := (mem_completion_history hist).mpr ⟨hstate, hne, hproper, hrel⟩
      exact ⟨hx, (hbits x hx).mpr hC⟩
  | none =>
    have hcond : Disjoint ((tables d).state h).completion m.history ∧
        ((tables d).state h).parent ∉ m.configuration :=
      ⟨hdisjoint.mpr (hr.fresh h hh hist hlog), hout hlog⟩
    rw [enterHistory, if_pos hcond]
    exact enterDefault_exact hd.tables (find_default hd hh hist) e

theorem restoresHistories_of_records {m : Microstep} {log : ExitLog} (hr : Records d m.history log)
    (hout : EntersFromOutside d m log) : RestoresHistories d m log := by
  intro h hmem hist
  have hh := mem_states_of_isHistory hist
  have hbefore := mem_before hd.tables hist hmem
  exact ⟨hbefore, descend_history hd hh hist hr (hout h hh hist hmem) hbefore⟩

end Restores

/-! ### Runs -/

section Runs

variable {d : Document β} {cb : Callbacks ω}

structure Recording (d : Document β) (s : St ω) (log : ExitLog) : Prop where
  proper : ∀ x ∈ s.configuration, x ∈ d.states ∧ d.isHistory x = false
  records : Records d s.history log

theorem microstepOf_history (hd : HistoryChart d) {s : St ω} {m : Microstep}
    (hm : m ∈ microstepOf (tables d) cb s) :
    m.configuration = s.configuration ∧
      m.history = rememberHistory (tables d) m.configuration m.exitSet s.history := by
  have hmoves := step_moves (tables d) cb s
  rw [Option.mem_def] at hm
  cases hmoves with
  | stays hnone => simp [hnone] at hm
  | starts m' hsome _ hm' =>
    rw [hsome] at hm
    cases hm
    rw [hm']
    refine ⟨rfl, ?_⟩
    ext x
    rw [mem_rememberHistory hd.tables, if_neg (by simp)]
  | takes m' hsome _ _ _ sel _ hm' =>
    rw [hsome] at hm
    cases hm
    rw [hm']
    exact ⟨rfl, rfl⟩

theorem next_proper (hd : HistoryChart d) {m : Microstep}
    (h : ∀ x ∈ m.configuration, x ∈ d.states ∧ d.isHistory x = false) :
    ∀ x ∈ m.next (tables d), x ∈ d.states ∧ d.isHistory x = false := by
  intro x hx
  rw [Microstep.next, mem_nextConfiguration] at hx
  rcases hx with hx | ⟨-, hstate, hpseudo⟩
  · exact h x hx.1
  · exact ⟨hstate, not_history_of_entered hd.tables hstate hpseudo⟩

theorem recording_step (hd : HistoryChart d) {s : St ω} {log : ExitLog} (h : Recording d s log)
    (hok : KeepsRecords d cb s log) : Recording d (step (tables d) cb s).2 (log.after (tables d) cb s) := by
  have hrecords : ∀ m ∈ microstepOf (tables d) cb s, Records d m.history (log.record m) := by
    intro m hm
    obtain ⟨hconf, hhist⟩ := microstepOf_history hd hm
    obtain ⟨hapart, hsomething, -⟩ := hok m hm
    exact h.records.remember hd hhist (hconf ▸ h.proper) hapart hsomething
  have hrecorded : ∀ m, microstepOf (tables d) cb s = some m →
      (step (tables d) cb s).2.configuration = m.next (tables d) → (step (tables d) cb s).2.history = m.history →
      Recording d (step (tables d) cb s).2 (log.after (tables d) cb s) := by
    intro m hsome hconf hhist
    have hlog : log.after (tables d) cb s = log.record m := by rw [ExitLog.after, hsome]
    rw [hlog]
    refine ⟨?_, hhist ▸ hrecords m hsome⟩
    rw [hconf]
    exact next_proper hd ((microstepOf_history hd hsome).1 ▸ h.proper)
  cases step_moves (tables d) cb s with
  | stays hnone _ hconf hhist =>
    have hlog : log.after (tables d) cb s = log := by rw [ExitLog.after, hnone]
    rw [hlog]
    exact ⟨hconf ▸ h.proper, hhist ▸ h.records⟩
  | starts m hsome _ _ hconf hhist => exact hrecorded m hsome hconf hhist
  | takes m hsome _ _ _ _ _ _ _ hconf hhist => exact hrecorded m hsome hconf hhist

theorem recording_of_run (hd : HistoryChart d) {s : St ω} {log : ExitLog}
    (h : LoggedRun (tables d) cb (KeepsRecords d cb) s log) : Recording d s log := by
  induction h with
  | init w => exact ⟨by simp, ⟨by simp, by simp, by simp⟩⟩
  | step _ hok ih => exact recording_step hd ih hok
  | environment w _ ih => exact ⟨ih.proper, ih.records⟩
  | cancel _ ih => exact ⟨ih.proper, ih.records⟩

/-- In a run whose steps keep the records, every microstep restores with each history in its entry set what
was active at the last exit of its parent, and enters the default targets when there was none. -/
theorem histories_restored {d : Document β} (hd : HistoryChart (resortStates d)) {ω : Type} {cb : Callbacks ω}
    {s : St ω} {log : ExitLog} (hrun : LoggedRun (init d) cb (KeepsRecords (resortStates d) cb) s log)
    (hok : KeepsRecords (resortStates d) cb s log) :
    ∀ m ∈ microstepOf (init d) cb s, RestoresHistories (resortStates d) m (log.record m) := by
  intro m hm
  have hrec := recording_of_run hd hrun
  obtain ⟨hconf, hhist⟩ := microstepOf_history hd hm
  obtain ⟨hapart, hsomething, hout⟩ := hok m hm
  exact restoresHistories_of_records hd (hrec.records.remember hd hhist (hconf ▸ hrec.proper) hapart hsomething) hout

end Runs

def nestedHistories : Document Unit where
  tree :=
    { root := { tag := .scxml }
      kids := .cons { tag := .state, id := some "p", initial := some ["q"],
                      transitions := [{ target := some ["x"], event := some "leave" }] }
        (.cons { tag := .history, id := some "outer", deep := true, transitions := [{ target := some ["r"] }] } .nil
          (.cons { tag := .state, id := some "q", initial := some ["q1"],
                   transitions := [{ target := some ["r"], event := some "aside" }] }
            (.cons { tag := .history, id := some "inner", transitions := [{ target := some ["q1"] }] } .nil
              (.cons { tag := .state, id := some "q1",
                       transitions := [{ target := some ["q2"], event := some "next" }] } .nil
                (.cons { tag := .state, id := some "q2" } .nil .nil)))
            (.cons { tag := .state, id := some "r" } .nil .nil)))
        (.cons { tag := .state, id := some "x",
                 transitions := [{ target := some ["inner"], event := some "inner" },
                   { target := some ["outer"], event := some "outer" }] } .nil .nil) }

def nestedRun (names : List String) (n : Nat) : St (List Event) × ExitLog :=
  loggedSteps (init nestedHistories) externalEvents n
    ({ env := names.map fun name => { name := name } }, fun _ => none)

/-- The run that moves on to `q2`, leaves its parent, then the outer parent, and comes back by the inner history:
the exit of the outer parent has erased what the inner history recorded. -/
theorem inner_record_lost :
    ¬ ∀ (s : St (List Event)) (log : ExitLog),
      LoggedRun (init nestedHistories) externalEvents (fun _ _ => True) s log →
        ∀ m ∈ microstepOf (init nestedHistories) externalEvents s,
          RestoresHistories (resortStates nestedHistories) m (log.record m) := by
  intro h
  have hrun : LoggedRun (init nestedHistories) externalEvents (fun _ _ => True)
      (nestedRun ["next", "aside", "leave", "inner"] 12).1 (nestedRun ["next", "aside", "leave", "inner"] 12).2 :=
    LoggedRun.steps (.init _) 12 fun _ _ => trivial
  exact absurd (h _ _ hrun) (by decide +kernel)

theorem nestedHistories_historyChart : HistoryChart (resortStates nestedHistories) where
  default := by decide +kernel
  leaf := by decide +kernel
  finalAttr := by decide +kernel
  completion := by decide +kernel
  target := by decide +kernel

/-- Coming back by the outer history after both parents were left together. -/
theorem histories_restored_nested :
    (∀ m ∈ microstepOf (init nestedHistories) externalEvents (nestedRun ["next", "leave", "outer"] 9).1,
      RestoresHistories (resortStates nestedHistories) m ((nestedRun ["next", "leave", "outer"] 9).2.record m)) ∧
    (nestedRun ["next", "leave", "outer"] 10).1.configuration = {[], [0], [0, 1], [0, 1, 2]} :=
  ⟨histories_restored nestedHistories_historyChart (LoggedRun.steps (.init _) 9 (by decide +kernel)) (by decide +kernel),
    by decide +kernel⟩

end FastMicroStep

end Uscxml
