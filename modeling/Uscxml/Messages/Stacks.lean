import Uscxml.Messages.Json

/-!
# The stacks of `fromJSON`

For every container on the stack of tokens there is a pointer on the stack of data, and one more when a value is to
come. A container that stands where an object should have a key breaks this: it comes without a pointer of its own, but
leaving it takes one away.
-/

namespace Uscxml

namespace Data

def opening (token : JsmnToken) (opened : List JsmnToken) : List JsmnToken :=
  if token.type = .string ∨ token.type = .primitive then opened else token :: opened

/-- `tokens` behind the `opened` containers, of which `misplaced` stood in place of a key: a token in its place has fewer
of these before it than there are containers around it, and a misplaced one not more. -/
def covers : List JsmnToken → List JsmnToken → Nat → Bool
  | token :: next :: rest, opened, misplaced =>
    let opened := opening token opened
    if next.stop = 0 ∨ opened = [] then true
    else
      let around := opened.dropWhile (·.stop < next.stop)
      if isKey around next then decide (misplaced < around.length) && covers rest around misplaced
      else if around.head?.any (·.type = .array) then
        decide (misplaced < around.length) && covers (next :: rest) around misplaced
      else decide (misplaced ≤ around.length) && covers (next :: rest) around (misplaced + 1)
  | _, _, _ => true

theorem popStacks_of_le {stop : Int} {tokens : List JsmnToken} {pointers : List Pointer} {misplaced : Nat}
    (h : pointers.length + misplaced = tokens.length) (hlast : ∃ t ∈ tokens, stop ≤ t.stop)
    (hle : misplaced ≤ (tokens.dropWhile (·.stop < stop)).length) :
    ∃ pointers', popStacks stop tokens pointers = .ok (tokens.dropWhile (·.stop < stop), pointers') ∧
      pointers'.length + misplaced = (tokens.dropWhile (·.stop < stop)).length := by
  induction tokens generalizing pointers with
  | nil => simp at hlast
  | cons token tokens ih =>
    rw [popStacks.eq_def]
    simp only
    by_cases hends : token.stop < stop
    · rw [List.dropWhile_cons_of_pos (by simpa using hends)] at hle
      rw [if_pos hends, List.dropWhile_cons_of_pos (by simpa using hends)]
      cases pointers with
      | nil =>
        have hlength := (List.dropWhile_sublist (l := tokens) (p := fun t : JsmnToken => decide (t.stop < stop))).length_le
        simp at h
        omega
      | cons pointer pointers =>
        refine ih ?_ ?_ hle
        · simp at h
          omega
        · obtain ⟨t, ht, hstop⟩ := hlast
          rcases List.mem_cons.mp ht with rfl | ht
          · omega
          · exact ⟨t, ht, hstop⟩
    · rw [if_neg hends, List.dropWhile_cons_of_neg (by simpa using hends)]
      exact ⟨pointers, rfl, h⟩

theorem popStacks_of_lt {stop : Int} {tokens : List JsmnToken} {pointers : List Pointer} {misplaced : Nat}
    (h : pointers.length + misplaced = tokens.length)
    (hlt : (tokens.dropWhile (·.stop < stop)).length < misplaced) : popStacks stop tokens pointers = .error .emptyStack := by
  induction tokens generalizing pointers with
  | nil => rfl
  | cons token tokens ih =>
    rw [popStacks.eq_def]
    simp only
    by_cases hends : token.stop < stop
    · rw [List.dropWhile_cons_of_pos (by simpa using hends)] at hlt
      rw [if_pos hends]
      cases pointers with
      | nil => rfl
      | cons pointer pointers =>
        refine ih ?_ hlt
        simp at h
        omega
    · rw [List.dropWhile_cons_of_neg (by simpa using hends)] at hlt
      omega

theorem switch_ok {text : List Char} {token : JsmnToken} {l : Loop} {misplaced : Nat}
    (h : l.dataStack.length + misplaced = l.tokenStack.length + 1)
    (hback : l.dataStack = [] → ¬ (token.type = .string ∨ token.type = .primitive)) :
    ∃ l', switch text token l = .ok l' ∧ l'.tokenStack = opening token l.tokenStack ∧ l'.index = l.index ∧
      l'.dataStack.length + misplaced = l'.tokenStack.length := by
  rw [switch, opening]
  split
  · rename_i hatom
    cases hdata : l.dataStack with
    | nil => exact absurd hatom (hback hdata)
    | cons back dataStack =>
      refine ⟨_, rfl, rfl, rfl, ?_⟩
      rw [hdata] at h
      simp only [List.length_cons] at h
      show dataStack.length + misplaced = l.tokenStack.length
      omega
  · refine ⟨_, rfl, rfl, rfl, ?_⟩
    simpa using h

theorem push_ok {slot : Slot} {l : Loop} (h : 0 < l.dataStack.length) :
    ∃ l', push slot l = .ok l' ∧ l'.tokenStack = l.tokenStack ∧ l'.index = l.index ∧
      l'.dataStack.length = l.dataStack.length + 1 := by
  rw [push]
  cases hdata : l.dataStack with
  | nil => simp [hdata] at h
  | cons back dataStack => exact ⟨_, rfl, rfl, rfl, rfl⟩

theorem push_empty {slot : Slot} {l : Loop} (h : l.dataStack.length = 0) : push slot l = .error .emptyStack := by
  rw [push, List.length_eq_zero_iff.mp h]

/-- The containers around a token, when the outermost one ends last. -/
theorem around_last {opened : List JsmnToken} {stop bound : Int} (hstop : stop ≤ bound)
    (hlast : ∃ t ∈ opened, t.stop = bound) : ∃ t ∈ opened.dropWhile (·.stop < stop), t.stop = bound := by
  induction opened with
  | nil => simp at hlast
  | cons token opened ih =>
    by_cases hends : token.stop < stop
    · rw [List.dropWhile_cons_of_pos (by simpa using hends)]
      obtain ⟨t, ht, htstop⟩ := hlast
      rcases List.mem_cons.mp ht with rfl | ht
      · omega
      · exact ih ⟨t, ht, htstop⟩
    · rw [List.dropWhile_cons_of_neg (by simpa using hends)]
      exact hlast

/-- A token that is neither a key nor an item of an array is a container. -/
theorem misplaced_container {around : List JsmnToken} {token : JsmnToken} (hkey : ¬ isKey around token = true)
    (harray : ¬ around.head?.any (·.type = .array) = true) (hne : around ≠ [])
    (hcontainers : ∀ t ∈ around, ¬ (t.type = .string ∨ t.type = .primitive)) :
    ¬ (token.type = .string ∨ token.type = .primitive) := by
  cases around with
  | nil => exact absurd rfl hne
  | cons t around =>
    have hobject : t.type = .object := by
      have ht := hcontainers t List.mem_cons_self
      cases htype : t.type with
      | object => rfl
      | array => simp [htype] at harray
      | string => simp [htype] at ht
      | primitive => simp [htype] at ht
    rintro (hatom | hatom)
    · simp [isKey, hobject, hatom] at hkey
    · simp [isKey, hobject, hatom] at hkey

theorem opening_containers {token : JsmnToken} {opened : List JsmnToken}
    (h : ∀ t ∈ opened, ¬ (t.type = .string ∨ t.type = .primitive)) :
    ∀ t ∈ opening token opened, ¬ (t.type = .string ∨ t.type = .primitive) := by
  rw [opening]
  split
  · exact h
  · exact List.forall_mem_cons.mpr ⟨by assumption, h⟩

/-- What the loop is in front of `tokens`: `misplaced` pointers are missing, and the outermost container ends last. -/
structure Balanced (tokens : List JsmnToken) (l : Loop) (misplaced : Nat) (bound : Int) : Prop where
  data : l.dataStack.length + misplaced = l.tokenStack.length + 1
  back : l.dataStack = [] → ∃ t rest, tokens = t :: rest ∧ ¬ (t.type = .string ∨ t.type = .primitive)
  stops : ∀ t ∈ tokens, t.stop ≤ bound
  containers : ∀ t ∈ l.tokenStack, ¬ (t.type = .string ∨ t.type = .primitive)
  last : (∃ t ∈ l.tokenStack, t.stop = bound) ∨ l.tokenStack = [] ∧ ∃ t rest, tokens = t :: rest ∧ t.stop = bound

theorem switch_ends {text : List Char} {token : JsmnToken} {l : Loop} {misplaced : Nat}
    (h : l.dataStack.length + misplaced = l.tokenStack.length + 1)
    (hback : l.dataStack = [] → ¬ (token.type = .string ∨ token.type = .primitive)) :
    ∃ d, (switch text token l).map (·.data) = .ok d := by
  obtain ⟨l', hl', -⟩ := @switch_ok text token l misplaced h hback
  exact ⟨l'.data, by rw [hl']; rfl⟩

/-- The loop comes to an end exactly when the containers cover the misplaced ones. -/
theorem tokenLoop_returns_iff (text : List Char) (tokens : List JsmnToken) {l : Loop} {misplaced : Nat} {bound : Int}
    (h : Balanced tokens l misplaced bound) :
    (∃ d, tokenLoop text tokens l = .ok d) ↔ covers tokens l.tokenStack misplaced = true := by
  induction hn : tokens.length using Nat.strongRecOn generalizing tokens l misplaced with
  | _ n ih =>
    match tokens with
    | [] =>
      refine iff_of_true (switch_ends h.data fun hempty => ?_) rfl
      obtain ⟨t, rest, heq, -⟩ := h.back hempty
      cases heq
    | [token] =>
      refine iff_of_true (switch_ends h.data fun hempty => ?_) rfl
      obtain ⟨t, rest, heq, ht⟩ := h.back hempty
      obtain ⟨rfl, -⟩ := List.cons.inj heq
      exact ht
    | token :: next :: rest =>
      have hback : l.dataStack = [] → ¬ (token.type = .string ∨ token.type = .primitive) := by
        intro hempty
        obtain ⟨t, rest', heq, ht⟩ := h.back hempty
        obtain ⟨rfl, -⟩ := List.cons.inj heq
        exact ht
      obtain ⟨l₁, hl₁, htokens₁, -, hdata₁⟩ := @switch_ok text _ _ _ h.data hback
      rw [tokenLoop, hl₁, covers]
      simp only [Except.bind, ← htokens₁]
      by_cases hend : next.stop = 0 ∨ l₁.tokenStack = []
      · rw [if_pos hend, if_pos hend]
        exact iff_of_true ⟨_, rfl⟩ rfl
      rw [if_neg hend, if_neg hend]
      -- The outermost container is around all tokens.
      have hlast₁ : ∃ t ∈ l₁.tokenStack, t.stop = bound := by
        rw [htokens₁, opening]
        rw [htokens₁, opening] at hend
        rcases h.last with ⟨t, ht, hstop⟩ | ⟨hempty, t, rest', heq, hstop⟩
        · refine ⟨t, ?_, hstop⟩
          split
          · exact ht
          · exact List.mem_cons_of_mem token ht
        · obtain ⟨rfl, -⟩ := List.cons.inj heq
          split
          · rename_i hatom
            rw [if_pos hatom] at hend
            exact absurd (.inr hempty) hend
          · exact ⟨token, List.mem_cons_self, hstop⟩
      have hstops : ∀ t ∈ next :: rest, t.stop ≤ bound := fun t ht => h.stops t (List.mem_cons_of_mem token ht)
      have hnext := hstops next List.mem_cons_self
      have hlast₂ := around_last hnext hlast₁
      have hcontainers₂ : ∀ t ∈ l₁.tokenStack.dropWhile (·.stop < next.stop),
          ¬ (t.type = .string ∨ t.type = .primitive) := by
        intro t ht
        have ht₁ := (List.dropWhile_sublist _).subset ht
        rw [htokens₁] at ht₁
        exact opening_containers h.containers t ht₁
      by_cases hm : misplaced ≤ (l₁.tokenStack.dropWhile (·.stop < next.stop)).length
      · obtain ⟨pointers, hpop, hdata₂⟩ := popStacks_of_le hdata₁
          (hlast₁.imp fun t ht => ⟨ht.1, ht.2 ▸ hnext⟩) hm
        rw [hpop]
        generalize l₁.tokenStack.dropWhile (·.stop < next.stop) = around at *
        simp only
        have hpush : ∀ slot, misplaced < around.length →
            ∃ l', push slot { l₁ with tokenStack := around, dataStack := pointers } = .ok l' ∧ l'.tokenStack = around ∧
              l'.dataStack.length + misplaced = l'.tokenStack.length + 1 := by
          intro slot hlt
          obtain ⟨l', hl', htokens, -, hdata⟩ :=
            @push_ok slot { l₁ with tokenStack := around, dataStack := pointers } (by simp only; omega)
          refine ⟨l', hl', htokens, ?_⟩
          rw [hdata, htokens]
          simp only
          omega
        have hstuck : ∀ slot, ¬ misplaced < around.length →
            push slot { l₁ with tokenStack := around, dataStack := pointers } = .error .emptyStack :=
          fun slot hge => push_empty (by simp only; omega)
        by_cases hkey : isKey around next = true
        · rw [if_pos hkey, if_pos hkey, Bool.and_eq_true, decide_eq_true_eq]
          by_cases hlt : misplaced < around.length
          · obtain ⟨l', hl', htokens, hdata⟩ := hpush (.key (String.ofList (jsonUnescape (substr text next)))) hlt
            rw [hl', ← htokens, and_iff_right (htokens ▸ hlt)]
            refine ih rest.length (by simp at hn; omega) rest ⟨hdata, ?_, fun t ht => hstops t (List.mem_cons_of_mem next ht),
              htokens ▸ hcontainers₂, ?_⟩ rfl
            · intro hempty
              rw [hempty, htokens] at hdata
              simp at hdata
              omega
            · exact .inl (htokens ▸ hlast₂)
          · rw [hstuck _ hlt]
            exact iff_of_false (fun ⟨d, hd⟩ => nomatch hd) fun hc => hlt hc.1
        rw [if_neg hkey, if_neg hkey]
        by_cases harray : around.head?.any (·.type = .array) = true
        · rw [if_pos harray, if_pos harray, Bool.and_eq_true, decide_eq_true_eq]
          by_cases hlt : misplaced < around.length
          · obtain ⟨l', hl', htokens, hdata⟩ := hpush (.item l₁.index) hlt
            rw [hl', ← htokens, and_iff_right (htokens ▸ hlt)]
            refine ih (next :: rest).length (by simp at hn ⊢; omega) (next :: rest)
              (l := { l' with index := l'.index + 1 }) ⟨hdata, ?_, hstops, htokens ▸ hcontainers₂, ?_⟩ rfl
            · intro hempty
              simp only at hempty
              rw [hempty, htokens] at hdata
              simp at hdata
              omega
            · exact .inl (htokens ▸ hlast₂)
          · rw [hstuck _ hlt]
            exact iff_of_false (fun ⟨d, hd⟩ => nomatch hd) fun hc => hlt hc.1
        · rw [if_neg harray, if_neg harray, Bool.and_eq_true, decide_eq_true_eq, and_iff_right hm]
          refine ih (next :: rest).length (by simp at hn ⊢; omega) (next :: rest)
            (l := { l₁ with tokenStack := around, dataStack := pointers }) ⟨?_, ?_, hstops, hcontainers₂, .inl hlast₂⟩ rfl
          · simp only
            omega
          · intro _
            exact ⟨next, rest, rfl, misplaced_container hkey harray (by rintro rfl; simp at hlast₂) hcontainers₂⟩
      · rw [popStacks_of_lt hdata₁ (by omega)]
        refine iff_of_false (fun ⟨d, hd⟩ => nomatch hd) ?_
        rw [Bool.not_eq_true]
        split
        · simp; omega
        split
        · simp; omega
        · simp; omega

/-- Nothing is thrown. -/
def Silent {γ : Type} (r : Except Fault γ) : Prop := ∀ e, r ≠ .error (.thrown e)

theorem Silent.bind {γ γ' : Type} {r : Except Fault γ} {f : γ → Except Fault γ'} (h : Silent r) (hf : ∀ a, Silent (f a)) :
    Silent (r.bind f) := by
  cases r with
  | ok a => exact hf a
  | error fault =>
    intro e he
    exact h e (congrArg Except.error (Except.error.inj he))

theorem silent_ok {γ : Type} (a : γ) : Silent (.ok a) := fun _ he => nomatch he

theorem switch_silent (text : List Char) (token : JsmnToken) (l : Loop) : Silent (switch text token l) := by
  rw [switch]
  split
  · split
    · exact fun _ he => nomatch he
    · exact silent_ok _
  · exact silent_ok _

theorem push_silent (slot : Slot) (l : Loop) : Silent (push slot l) := by
  rw [push]
  split
  · exact fun _ he => nomatch he
  · exact silent_ok _

theorem popStacks_silent (stop : Int) (tokens : List JsmnToken) (pointers : List Pointer) :
    Silent (popStacks stop tokens pointers) := by
  induction tokens generalizing pointers with
  | nil => exact fun _ he => nomatch he
  | cons token tokens ih =>
    rw [popStacks.eq_def]
    simp only
    split
    · split
      · exact fun _ he => nomatch he
      · exact ih _
    · exact silent_ok _

theorem tokenLoop_silent (text : List Char) (tokens : List JsmnToken) (l : Loop) : Silent (tokenLoop text tokens l) := by
  have hlast : ∀ token l, Silent ((switch text token l).map (·.data)) := by
    intro token l
    exact (switch_silent text token l).bind fun l => silent_ok l.data
  induction hn : tokens.length using Nat.strongRecOn generalizing tokens l with
  | _ n ih =>
    match tokens with
    | [] => exact hlast _ l
    | [token] => exact hlast token l
    | token :: next :: rest =>
      have hnext := fun l => ih (next :: rest).length (by simp at hn ⊢; omega) (next :: rest) l rfl
      have hrest := fun l => ih rest.length (by simp at hn; omega) rest l rfl
      rw [tokenLoop]
      refine (switch_silent text token l).bind fun l => ?_
      split
      · exact silent_ok _
      · refine (popStacks_silent _ _ _).bind ?_
        rintro ⟨tokenStack, dataStack⟩
        simp only
        split
        · exact (push_silent _ _).bind hrest
        split
        · exact (push_silent _ _).bind fun l => hnext _
        · exact hnext _

/-- The tokens that the loop of `fromJSON` is run with. -/
def loopTokens (jsonString : List Char) : Option (List JsmnToken) :=
  let trimmed := trimCopy jsonString
  match trimmed with
  | [] => none
  | c :: _ =>
    if c ≠ '\x7b' ∧ c ≠ '[' then none
    else
      match parseTokens trimmed [8, 4, 2, 1] with
      | .ok (token :: tokens) => if token.stop ≠ trimmed.length then none else some (token :: tokens)
      | _ => none

theorem parseTokens_endBy {text : List Char} {fracs : List Nat} {tokens : List JsmnToken}
    (h : parseTokens text fracs = .ok tokens) : Jsmn.EndBy text.length tokens := by
  have hparse : ∀ {n tokens}, Jsmn.parse n (cString text) = .ok tokens → Jsmn.EndBy text.length tokens :=
    fun hp => (Jsmn.parse_endBy hp).mono (List.takeWhile_sublist _).length_le
  induction fracs with
  | nil => cases h
  | cons frac fracs ih =>
    cases fracs with
    | nil => exact hparse h
    | cons frac' fracs =>
      rw [parseTokens] at h
      · split at h
        · exact ih h
        · exact hparse h
      · simp

/-- `fromJSON` returns or throws `error.platform`. -/
def Safe (jsonString : List Char) : Prop :=
  (∃ d, fromJSON jsonString = .ok d) ∨
    ∃ e, fromJSON jsonString = .error (.thrown e) ∧ e.name = "error.platform"

/-- `fromJSON` uses no empty stack exactly when the misplaced containers of its text are covered. -/
theorem fromJSON_safe_iff (jsonString : List Char) :
    Safe jsonString ↔ (loopTokens jsonString).all (covers · [] 0) = true := by
  rw [Safe, fromJSON, loopTokens]
  cases htrimmed : trimCopy jsonString with
  | nil => exact iff_of_true (.inl ⟨_, rfl⟩) rfl
  | cons c text =>
    simp only
    by_cases hc : c ≠ '\x7b' ∧ c ≠ '['
    · rw [if_pos hc, if_pos hc]
      exact iff_of_true (.inl ⟨_, rfl⟩) rfl
    rw [if_neg hc, if_neg hc]
    cases hparse : parseTokens (c :: text) [8, 4, 2, 1] with
    | error e =>
      refine iff_of_true (.inr ⟨_, rfl, ?_⟩) rfl
      cases e <;> rfl
    | ok tokens =>
      cases tokens with
      | nil => exact iff_of_true (.inl ⟨_, rfl⟩) rfl
      | cons token tokens =>
        simp only
        by_cases hstop : token.stop ≠ (c :: text).length
        · rw [if_pos hstop, if_pos hstop]
          exact iff_of_true (.inl ⟨_, rfl⟩) rfl
        rw [if_neg hstop, if_neg hstop, Option.all_some]
        have hbalanced : Balanced (token :: tokens) {} 0 (c :: text).length := by
          refine ⟨rfl, ?_, parseTokens_endBy hparse, ?_, ?_⟩
          · intro hempty
            cases hempty
          · intro t ht
            cases ht
          · exact .inr ⟨rfl, token, tokens, rfl, not_not.mp hstop⟩
        rw [← tokenLoop_returns_iff (c :: text) (token :: tokens) hbalanced]
        constructor
        · rintro (hd | ⟨e, he, -⟩)
          · exact hd
          · exact absurd he (tokenLoop_silent _ _ _ e)
        · exact .inl

/-- An object with an object in place of its first key, behind which there is another member. -/
theorem misplaced_container_unsafe : ¬ Safe "\x7b\x7b\x7d\"a\"\x7d".toList := by
  have hempty : fromJSON "\x7b\x7b\x7d\"a\"\x7d".toList = .error .emptyStack := rfl
  rintro (⟨d, hd⟩ | ⟨e, he, -⟩)
  · rw [hempty] at hd
    cases hd
  · rw [hempty] at he
    cases he

end Data

end Uscxml
