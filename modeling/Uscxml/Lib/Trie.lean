import Uscxml.Lib.Forest

/-!
# Tries

A trie over sequences of tokens: every node has a word or none, and its children carry different tokens. A word added
where there is one already is dropped. What a node holds is told by the sequence of tokens that leads to it, and the words
below a node are those at the sequences that go on from its own.
-/

/-- The first child with the token, as it is after the change; without one a new child is put at the end. -/
def Forest.alter {τ ω : Type*} [DecidableEq τ]
    (t : τ) (change : Option ω × Forest (τ × Option ω) → Option ω × Forest (τ × Option ω)) :
    Forest (τ × Option ω) → Forest (τ × Option ω)
  | .nil => .cons (t, (change (none, .nil)).1) (change (none, .nil)).2 .nil
  | .cons (t', word) childs next =>
    if t' = t then .cons (t', (change (word, childs)).1) (change (word, childs)).2 next
    else .cons (t', word) childs (alter t change next)

/-- The child with the token: its word and its children. -/
def Forest.child? {τ ω : Type*} [DecidableEq τ] (t : τ) : Forest (τ × Option ω) → Option (Option ω × Forest (τ × Option ω))
  | .nil => none
  | .cons (t', word) childs next => if t' = t then some (word, childs) else child? t next

def Forest.words {τ ω : Type*} : Forest (τ × Option ω) → List ω
  | .nil => []
  | .cons (_, word) childs next => word.toList ++ (words childs ++ words next)

/-- Siblings carry different tokens. -/
def Forest.Distinct {τ ω : Type*} [DecidableEq τ] : Forest (τ × Option ω) → Prop
  | .nil => True
  | .cons (t, _) childs next => child? t next = none ∧ Distinct childs ∧ Distinct next

/-- A node with its children; a trie is its root. -/
structure TrieNode (τ ω : Type*) where
  word : Option ω
  childs : Forest (τ × Option ω)

namespace TrieNode

variable {τ ω : Type*} [DecidableEq τ]

def empty : TrieNode τ ω := ⟨none, .nil⟩

/-- Put a word at the end of a sequence of tokens, unless there is one. -/
def insertAt : List τ → ω → Option ω × Forest (τ × Option ω) → Option ω × Forest (τ × Option ω)
  | [], w, (word, childs) => (word.or (some w), childs)
  | t :: ts, w, (word, childs) => (word, childs.alter t (insertAt ts w))

def insert (ts : List τ) (w : ω) (node : TrieNode τ ω) : TrieNode τ ω :=
  ⟨(insertAt ts w (node.word, node.childs)).1, (insertAt ts w (node.word, node.childs)).2⟩

def find? : List τ → TrieNode τ ω → Option (TrieNode τ ω)
  | [], node => some node
  | t :: ts, node => (node.childs.child? t).bind fun c => find? ts ⟨c.1, c.2⟩

/-- The words of a node and of the nodes below it. -/
def words (node : TrieNode τ ω) : List ω := node.word.toList ++ node.childs.words

def get (node : TrieNode τ ω) (ts : List τ) : Option ω := (node.find? ts).bind (·.word)

@[simp] theorem get_nil (node : TrieNode τ ω) : node.get [] = node.word := rfl

theorem get_cons (node : TrieNode τ ω) (t : τ) (ts : List τ) :
    node.get (t :: ts) = (node.childs.child? t).bind fun c => get ⟨c.1, c.2⟩ ts := by
  rw [get, find?, Option.bind_assoc]
  rfl

theorem get_empty (ts : List τ) : (empty : TrieNode τ ω).get ts = none := by
  cases ts with
  | nil => rfl
  | cons t ts => rfl

theorem find?_append (node : TrieNode τ ω) (ts us : List τ) :
    node.find? (ts ++ us) = (node.find? ts).bind (find? us) := by
  induction ts generalizing node with
  | nil => rfl
  | cons t ts ih =>
    rw [List.cons_append, find?, find?, Option.bind_assoc]
    exact congrArg (Option.bind _) (funext fun c => ih ⟨c.1, c.2⟩)

theorem get_append (node : TrieNode τ ω) (ts us : List τ) :
    node.get (ts ++ us) = (node.find? ts).bind (·.get us) := by
  rw [get, find?_append, Option.bind_assoc]
  rfl

theorem child?_alter (t t' : τ) (change : Option ω × Forest (τ × Option ω) → Option ω × Forest (τ × Option ω))
    (childs : Forest (τ × Option ω)) :
    (childs.alter t change).child? t' =
      if t' = t then some (change ((childs.child? t).getD (none, .nil))) else childs.child? t' := by
  induction childs with
  | nil =>
    rw [Forest.alter]
    by_cases h : t' = t
    · simp [h, Forest.child?]
    · have h' : ¬ t = t' := fun he => h he.symm
      simp [h, h', Forest.child?]
  | cons a childs next _ ihn =>
    obtain ⟨s, word⟩ := a
    rw [Forest.alter]
    by_cases hs : s = t
    · subst hs
      by_cases h : t' = s
      · subst h
        simp [Forest.child?]
      · rw [if_pos rfl, if_neg h, Forest.child?, Forest.child?, if_neg (fun he => h he.symm),
          if_neg (fun he => h he.symm)]
    · rw [if_neg hs, Forest.child?, ihn]
      by_cases h : t' = t
      · subst h
        simp [Forest.child?, hs]
      · by_cases hst : s = t'
        · simp [Forest.child?, h, hst]
        · simp [Forest.child?, h, hst]

/-- Only the word at the sequence itself changes, and only when there was none. -/
theorem get_insert (node : TrieNode τ ω) (ts us : List τ) (w : ω) :
    (node.insert ts w).get us = if us = ts then (node.get ts).or (some w) else node.get us := by
  induction ts generalizing node us with
  | nil =>
    cases us with
    | nil => rfl
    | cons u us => rw [if_neg (by simp), get_cons, get_cons]; rfl
  | cons t ts ih =>
    cases us with
    | nil => rw [if_neg (by simp)]; rfl
    | cons u us =>
      rw [get_cons, get_cons, get_cons]
      change (((node.childs.alter t (insertAt ts w)).child? u).bind fun c => get ⟨c.1, c.2⟩ us) = _
      rw [child?_alter]
      by_cases hu : u = t
      · subst hu
        have hchild := ih ⟨((node.childs.child? u).getD (none, .nil)).1, ((node.childs.child? u).getD (none, .nil)).2⟩ us
        rw [insert] at hchild
        rw [if_pos rfl, Option.bind_some, hchild]
        cases hc : node.childs.child? u with
        | none =>
          have hnone : ∀ vs, get (⟨none, .nil⟩ : TrieNode τ ω) vs = none := get_empty
          simp [hnone]
        | some c => simp
      · simp [hu]

/-- The root and the nodes below it have different tokens at each place. -/
def Distinct (node : TrieNode τ ω) : Prop := node.childs.Distinct

theorem distinct_empty : (empty : TrieNode τ ω).Distinct := trivial

theorem distinct_alter {t : τ} {change : Option ω × Forest (τ × Option ω) → Option ω × Forest (τ × Option ω)}
    (hchange : ∀ c, c.2.Distinct → (change c).2.Distinct) {childs : Forest (τ × Option ω)} (h : childs.Distinct) :
    (childs.alter t change).Distinct := by
  induction childs with
  | nil => exact ⟨rfl, hchange _ trivial, trivial⟩
  | cons a childs next _ ihn =>
    obtain ⟨s, word⟩ := a
    obtain ⟨hnone, hchilds, hnext⟩ := h
    rw [Forest.alter]
    split
    · exact ⟨hnone, hchange _ hchilds, hnext⟩
    · rename_i hs
      refine ⟨?_, hchilds, ihn hnext⟩
      rw [child?_alter, if_neg hs]
      exact hnone

theorem Distinct.insert {node : TrieNode τ ω} (h : node.Distinct) (ts : List τ) (w : ω) : (node.insert ts w).Distinct := by
  suffices hat : ∀ c : Option ω × Forest (τ × Option ω), c.2.Distinct → (insertAt ts w c).2.Distinct by
    exact hat _ h
  induction ts with
  | nil => exact fun c hc => hc
  | cons t ts ih => exact fun c hc => distinct_alter ih hc

theorem distinct_child {t : τ} {c : Option ω × Forest (τ × Option ω)} {childs : Forest (τ × Option ω)}
    (h : childs.Distinct) (hc : childs.child? t = some c) : c.2.Distinct := by
  induction childs with
  | nil => cases hc
  | cons a childs next _ ihn =>
    obtain ⟨s, word⟩ := a
    rw [Forest.child?] at hc
    split at hc
    · cases hc
      exact h.2.1
    · exact ihn h.2.2 hc

theorem Distinct.find? {node sub : TrieNode τ ω} (h : node.Distinct) {ts : List τ} (hsub : node.find? ts = some sub) :
    sub.Distinct := by
  induction ts generalizing node with
  | nil =>
    cases hsub
    exact h
  | cons t ts ih =>
    rw [TrieNode.find?, Option.bind_eq_some_iff] at hsub
    obtain ⟨c, hc, hsub⟩ := hsub
    exact @ih ⟨c.1, c.2⟩ (distinct_child h hc) hsub

theorem mem_words_childs {childs : Forest (τ × Option ω)} (h : childs.Distinct) {w : ω} :
    w ∈ childs.words ↔ ∃ t ts, ((childs.child? t).bind fun c => get ⟨c.1, c.2⟩ ts) = some w := by
  induction childs with
  | nil => simp [Forest.words, Forest.child?]
  | cons a childs next ihc ihn =>
    obtain ⟨s, word⟩ := a
    rw [Forest.words, List.mem_append, List.mem_append, ihc h.2.1, ihn h.2.2, Option.mem_toList]
    constructor
    · rintro (hw | ⟨t, ts, hw⟩ | ⟨t, ts, hw⟩)
      · exact ⟨s, [], by simpa [Forest.child?] using hw⟩
      · refine ⟨s, t :: ts, ?_⟩
        rw [Forest.child?, if_pos rfl, Option.bind_some, get_cons]
        exact hw
      · refine ⟨t, ts, ?_⟩
        have hts : s ≠ t := by
          rintro rfl
          simp [h.1] at hw
        rw [Forest.child?, if_neg hts, hw]
    · rintro ⟨t, ts, hw⟩
      rw [Forest.child?] at hw
      split at hw
      · rw [Option.bind_some] at hw
        cases ts with
        | nil => exact Or.inl hw
        | cons u us =>
          rw [get_cons] at hw
          exact Or.inr (Or.inl ⟨u, us, hw⟩)
      · exact Or.inr (Or.inr ⟨t, ts, hw⟩)

/-- The words are those at the sequences of tokens. -/
theorem mem_words {node : TrieNode τ ω} (h : node.Distinct) {w : ω} : w ∈ node.words ↔ ∃ ts, node.get ts = some w := by
  rw [words, List.mem_append, mem_words_childs h, Option.mem_toList]
  constructor
  · rintro (hw | ⟨t, ts, hw⟩)
    · exact ⟨[], hw⟩
    · exact ⟨t :: ts, (get_cons node t ts).trans hw⟩
  · rintro ⟨ts, hw⟩
    cases ts with
    | nil => exact Or.inl hw
    | cons t ts => exact Or.inr ⟨t, ts, (get_cons node t ts).symm.trans hw⟩

/-- The words below a node are those at the sequences that go on from its own. -/
theorem mem_words_find {node : TrieNode τ ω} (h : node.Distinct) {ts : List τ} {w : ω} :
    w ∈ (node.find? ts).elim [] words ↔ ∃ us, node.get (ts ++ us) = some w := by
  cases hsub : node.find? ts with
  | none => simp [get_append, hsub]
  | some sub => simp [get_append, hsub, mem_words (h.find? hsub)]

/-- Of several words with one sequence of tokens the first is kept. -/
theorem get_foldl_insert (tokens : ω → List τ) (ws : List ω) (node : TrieNode τ ω) (ts : List τ) :
    (ws.foldl (fun node w => node.insert (tokens w) w) node).get ts = (node.get ts).or (ws.find? fun w => tokens w = ts) := by
  induction ws generalizing node with
  | nil => simp
  | cons w ws ih =>
    rw [List.foldl_cons, ih, get_insert, List.find?_cons]
    by_cases h : tokens w = ts
    · simp [h]
    · have h' : ¬ ts = tokens w := fun he => h he.symm
      simp [h, h']

theorem distinct_foldl_insert (tokens : ω → List τ) (ws : List ω) {node : TrieNode τ ω} (h : node.Distinct) :
    (ws.foldl (fun node w => node.insert (tokens w) w) node).Distinct := by
  induction ws generalizing node with
  | nil => exact h
  | cons w ws ih => exact ih (h.insert _ _)

theorem insert_of_get {node : TrieNode τ ω} {ts : List τ} {w w' : ω} (h : node.get ts = some w') : node.insert ts w = node := by
  suffices hat : ∀ c : Option ω × Forest (τ × Option ω), get ⟨c.1, c.2⟩ ts = some w' → insertAt ts w c = c by
    rw [insert, hat (node.word, node.childs) h]
  clear h
  induction ts with
  | nil =>
    intro c h
    obtain ⟨word, childs⟩ := c
    obtain rfl : word = some w' := h
    rfl
  | cons t ts ih =>
    intro c h
    obtain ⟨word, childs⟩ := c
    rw [get_cons] at h
    change (childs.child? t).bind (fun c => get ⟨c.1, c.2⟩ ts) = some w' at h
    refine Prod.ext rfl ?_
    change childs.alter t (insertAt ts w) = childs
    induction childs with
    | nil => cases h
    | cons a childs next _ ihn =>
      obtain ⟨s, word'⟩ := a
      rw [Forest.child?] at h
      rw [Forest.alter]
      split
      · rename_i hs
        rw [if_pos hs, Option.bind_some] at h
        rw [ih (word', childs) h]
      · rename_i hs
        rw [if_neg hs] at h
        rw [ihn h]

/-! ### Tokens -/

def AllTokens (P : τ → Prop) : Forest (τ × Option ω) → Prop
  | .nil => True
  | .cons (t, _) childs next => P t ∧ AllTokens P childs ∧ AllTokens P next

theorem AllTokens.child {P : τ → Prop} {t : τ} {c : Option ω × Forest (τ × Option ω)} {childs : Forest (τ × Option ω)}
    (h : AllTokens P childs) (hc : childs.child? t = some c) : P t ∧ AllTokens P c.2 := by
  induction childs with
  | nil => cases hc
  | cons a childs next _ ihn =>
    obtain ⟨s, word⟩ := a
    rw [Forest.child?] at hc
    split at hc
    · rename_i hs
      cases hc
      exact ⟨hs ▸ h.1, h.2.1⟩
    · exact ihn h.2.2 hc

theorem allTokens_alter {P : τ → Prop} {t : τ} (ht : P t)
    {change : Option ω × Forest (τ × Option ω) → Option ω × Forest (τ × Option ω)}
    (hchange : ∀ c, AllTokens P c.2 → AllTokens P (change c).2) {childs : Forest (τ × Option ω)} (h : AllTokens P childs) :
    AllTokens P (childs.alter t change) := by
  induction childs with
  | nil => exact ⟨ht, hchange _ trivial, trivial⟩
  | cons a childs next _ ihn =>
    obtain ⟨s, word⟩ := a
    rw [Forest.alter]
    split
    · exact ⟨h.1, hchange _ h.2.1, h.2.2⟩
    · exact ⟨h.1, h.2.1, ihn h.2.2⟩

theorem AllTokens.insert {P : τ → Prop} {node : TrieNode τ ω} (h : AllTokens P node.childs) {ts : List τ} (hts : ∀ t ∈ ts, P t)
    (w : ω) : AllTokens P (node.insert ts w).childs := by
  suffices hat : ∀ c : Option ω × Forest (τ × Option ω), AllTokens P c.2 → AllTokens P (insertAt ts w c).2 by
    exact hat _ h
  induction ts with
  | nil => exact fun c hc => hc
  | cons t ts ih =>
    exact fun c hc => allTokens_alter (hts t List.mem_cons_self) (ih fun t' ht' => hts t' (List.mem_cons_of_mem t ht')) hc

/-! ### Each word once -/

/-- Words that tell the tokens they stand at are listed once each. -/
theorem nodup_map_words_childs {childs : Forest (τ × Option ω)} (hd : childs.Distinct) {f : ω → List τ} (front : List τ)
    (h : ∀ t ts w, ((childs.child? t).bind fun c => get ⟨c.1, c.2⟩ ts) = some w → f w = front ++ t :: ts) :
    (childs.words.map f).Nodup := by
  induction childs generalizing front with
  | nil => exact List.nodup_nil
  | cons a childs next ihc ihn =>
    obtain ⟨s, word⟩ := a
    obtain ⟨hnone, hchilds, hnext⟩ := hd
    have hown : ∀ w, word = some w → f w = front ++ [s] := by
      intro w hw
      refine h s [] w ?_
      rw [Forest.child?, if_pos rfl, Option.bind_some]
      exact hw
    have hbelow : ∀ t ts w, ((childs.child? t).bind fun c => get ⟨c.1, c.2⟩ ts) = some w → f w = front ++ [s] ++ t :: ts := by
      intro t ts w hw
      rw [List.append_assoc]
      refine h s (t :: ts) w ?_
      rw [Forest.child?, if_pos rfl, Option.bind_some, get_cons]
      exact hw
    have hne : ∀ t c, next.child? t = some c → s ≠ t := by
      rintro t c hc rfl
      rw [hnone] at hc
      cases hc
    have hlater : ∀ t ts w, ((next.child? t).bind fun c => get ⟨c.1, c.2⟩ ts) = some w → f w = front ++ t :: ts := by
      intro t ts w hw
      refine h t ts w ?_
      obtain ⟨c, hc, -⟩ := Option.bind_eq_some_iff.mp hw
      rw [Forest.child?, if_neg (hne t c hc)]
      exact hw
    rw [Forest.words, List.map_append, List.map_append, List.nodup_append, List.nodup_append]
    refine ⟨?_, ⟨ihc hchilds (front ++ [s]) hbelow, ihn hnext front hlater, ?_⟩, ?_⟩
    · cases word with
      | none => exact List.nodup_nil
      | some w => exact List.nodup_singleton _
    · -- What stands below the first child begins with its token.
      intro x hx y hy
      obtain ⟨w, hw, rfl⟩ := List.mem_map.mp hx
      obtain ⟨w', hw', rfl⟩ := List.mem_map.mp hy
      obtain ⟨t, ts, hget⟩ := (mem_words_childs hchilds).mp hw
      obtain ⟨t', ts', hget'⟩ := (mem_words_childs hnext).mp hw'
      obtain ⟨c, hc, -⟩ := Option.bind_eq_some_iff.mp hget'
      rw [hbelow t ts w hget, hlater t' ts' w' hget', List.append_assoc]
      intro heq
      exact hne t' c hc (List.cons.inj (List.append_cancel_left heq)).1
    · rw [← List.map_append]
      intro x hx y hy
      obtain ⟨w, hw, rfl⟩ := List.mem_map.mp hx
      obtain ⟨w', hw', rfl⟩ := List.mem_map.mp hy
      rw [hown w (Option.mem_toList.mp hw)]
      rcases List.mem_append.mp hw' with hw' | hw'
      · obtain ⟨t, ts, hget⟩ := (mem_words_childs hchilds).mp hw'
        rw [hbelow t ts w' hget]
        simp
      · obtain ⟨t, ts, hget⟩ := (mem_words_childs hnext).mp hw'
        obtain ⟨c, hc, -⟩ := Option.bind_eq_some_iff.mp hget
        rw [hlater t ts w' hget]
        intro heq
        exact hne t c hc (List.cons.inj (List.append_cancel_left heq)).1

theorem nodup_map_words {node : TrieNode τ ω} (hd : node.Distinct) {f : ω → List τ} (front : List τ)
    (h : ∀ ts w, node.get ts = some w → f w = front ++ ts) : (node.words.map f).Nodup := by
  have hbelow : ∀ t ts w, ((node.childs.child? t).bind fun c => get ⟨c.1, c.2⟩ ts) = some w → f w = front ++ t :: ts :=
    fun t ts w hw => h (t :: ts) w ((get_cons node t ts).trans hw)
  rw [words, List.map_append, List.nodup_append]
  refine ⟨?_, nodup_map_words_childs hd front hbelow, ?_⟩
  · cases node.word with
    | none => exact List.nodup_nil
    | some w => exact List.nodup_singleton _
  · intro x hx y hy
    obtain ⟨w, hw, rfl⟩ := List.mem_map.mp hx
    obtain ⟨w', hw', rfl⟩ := List.mem_map.mp hy
    obtain ⟨t, ts, hget⟩ := (mem_words_childs hd).mp hw'
    rw [h [] w (Option.mem_toList.mp hw), hbelow t ts w' hget]
    simp

/-! ### Other words -/

/-- The same trie with words that are computed from those of the first. -/
def mapWords {ω' : Type*} (g : ω → ω') : Forest (τ × Option ω) → Forest (τ × Option ω')
  | .nil => .nil
  | .cons (t, word) childs next => .cons (t, word.map g) (mapWords g childs) (mapWords g next)

def map {ω' : Type*} (g : ω → ω') (node : TrieNode τ ω) : TrieNode τ ω' := ⟨node.word.map g, mapWords g node.childs⟩

omit [DecidableEq τ] in
theorem words_mapWords {ω' : Type*} (g : ω → ω') (childs : Forest (τ × Option ω)) :
    (mapWords g childs).words = childs.words.map g := by
  induction childs with
  | nil => rfl
  | cons a childs next ihc ihn =>
    obtain ⟨t, word⟩ := a
    rw [mapWords, Forest.words, ihc, ihn, Forest.words, List.map_append, List.map_append]
    cases word <;> rfl

omit [DecidableEq τ] in
theorem words_map {ω' : Type*} (g : ω → ω') (node : TrieNode τ ω) : (node.map g).words = node.words.map g := by
  rw [words, words, List.map_append, ← words_mapWords]
  cases hword : node.word <;> simp [map, hword]

theorem child?_mapWords {ω' : Type*} (g : ω → ω') (t : τ) (childs : Forest (τ × Option ω)) :
    (mapWords g childs).child? t = (childs.child? t).map fun c => (c.1.map g, mapWords g c.2) := by
  induction childs with
  | nil => rfl
  | cons a childs next _ ihn =>
    obtain ⟨s, word⟩ := a
    rw [mapWords, Forest.child?, Forest.child?]
    split
    · rfl
    · exact ihn

theorem find?_map {ω' : Type*} (g : ω → ω') (ts : List τ) (node : TrieNode τ ω) :
    (node.map g).find? ts = (node.find? ts).map (map g) := by
  induction ts generalizing node with
  | nil => rfl
  | cons t ts ih =>
    rw [find?, find?, map, child?_mapWords]
    cases node.childs.child? t with
    | none => rfl
    | some c => exact ih ⟨c.1, c.2⟩

theorem mapWords_alter {ω' : Type*} (g : ω → ω') (t : τ)
    {change : Option ω × Forest (τ × Option ω) → Option ω × Forest (τ × Option ω)}
    {change' : Option ω' × Forest (τ × Option ω') → Option ω' × Forest (τ × Option ω')}
    (h : ∀ c, ((change c).1.map g, mapWords g (change c).2) = change' (c.1.map g, mapWords g c.2))
    (childs : Forest (τ × Option ω)) : mapWords g (childs.alter t change) = (mapWords g childs).alter t change' := by
  induction childs with
  | nil =>
    have hnew := h (none, .nil)
    rw [Forest.alter, mapWords, mapWords, mapWords, Forest.alter]
    change _ = change' (none, .nil) at hnew
    rw [← hnew]
  | cons a childs next _ ihn =>
    obtain ⟨s, word⟩ := a
    rw [Forest.alter, mapWords, Forest.alter]
    split
    · rw [mapWords, ← h (word, childs)]
    · rw [mapWords, ihn]

theorem map_insert {ω' : Type*} (g : ω → ω') (ts : List τ) (w : ω) (node : TrieNode τ ω) :
    (node.insert ts w).map g = (node.map g).insert ts (g w) := by
  suffices hat : ∀ c : Option ω × Forest (τ × Option ω),
      ((insertAt ts w c).1.map g, mapWords g (insertAt ts w c).2) = insertAt ts (g w) (c.1.map g, mapWords g c.2) by
    have h := hat (node.word, node.childs)
    rw [insert, insert, map, map, ← h]
  induction ts with
  | nil =>
    intro c
    obtain ⟨word, childs⟩ := c
    cases word <;> rfl
  | cons t ts ih =>
    intro c
    obtain ⟨word, childs⟩ := c
    exact Prod.ext rfl (mapWords_alter g t ih childs)

end TrieNode
