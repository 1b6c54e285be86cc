import Uscxml.Messages.Json

/-!
# What the token loop builds

The tokens of a value change only what the back of the stack points to. A container is left when a token comes that ends
behind it, so that the stacks behind a value are the ones before it up to containers that have ended.
-/

namespace Uscxml

namespace Data

/-! ### Pointers -/

section

variable {κ : Type} [LT κ] [DecidableLT κ] [DecidableEq κ] [Std.Asymm (fun a b : κ => a < b)]

theorem alter_alter (key : κ) (f g : Data → Data) (l : List (κ × Data)) :
    alter key f (alter key g l) = alter key (f ∘ g) l := by
  have hirrefl : ¬ key < key := fun h => Std.Asymm.asymm (r := (· < ·)) key key h h
  induction l with
  | nil => simp [alter, hirrefl]
  | cons x l ih =>
    obtain ⟨k, d⟩ := x
    by_cases hlt : key < k
    · simp [alter, hlt, hirrefl]
    by_cases heq : key = k
    · subst heq
      simp [alter, hirrefl]
    · simp [alter, hlt, heq, ih]

theorem alter_last {key : κ} (f : Data → Data) {l : List (κ × Data)} (h : ∀ x ∈ l, x.1 < key) :
    alter key f l = l ++ [(key, f empty)] := by
  induction l with
  | nil => rfl
  | cons x l ih =>
    obtain ⟨k, d⟩ := x
    obtain ⟨hk, hl⟩ := List.forall_mem_cons.mp h
    have hnot : ¬ key < k := Std.Asymm.asymm (r := (· < ·)) k key hk
    have hne : key ≠ k := by
      rintro rfl
      exact hnot hk
    rw [alter, if_neg hnot, if_neg hne, ih hl]
    rfl

end

theorem modify_modify (f g : Data → Data) (p : Pointer) (d : Data) :
    modify f p (modify g p d) = modify (f ∘ g) p d := by
  induction p generalizing d with
  | nil => rfl
  | cons slot p ih =>
    have hcomp : modify f p ∘ modify g p = modify (f ∘ g) p := funext ih
    obtain ⟨atom, verbatim, compound, array⟩ := d
    cases slot with
    | key key =>
      show mk atom verbatim (alter key (modify f p) (alter key (modify g p) compound)) array = _
      rw [alter_alter, hcomp]
      rfl
    | item index =>
      show mk atom verbatim compound (alter index (modify f p) (alter index (modify g p) array)) = _
      rw [alter_alter, hcomp]
      rfl

theorem modify_append (f : Data → Data) (p q : Pointer) : modify f (p ++ q) = modify (modify f q) p := by
  induction p with
  | nil => rfl
  | cons slot p ih =>
    funext d
    show alterAt (modify f (p ++ q)) slot d = alterAt (modify (modify f q) p) slot d
    rw [ih]

/-! ### The token loop -/

/-- The token loop behind the `switch`, in front of the remaining tokens. -/
def behindSwitch (text : List Char) : List JsmnToken → Loop → Except Fault Data
  | [], l => .ok l.data
  | next :: rest, l =>
    if next.stop = 0 ∨ l.tokenStack = [] then .ok l.data
    else
      (popStacks next.stop l.tokenStack l.dataStack).bind fun (tokenStack, dataStack) =>
        let l := { l with tokenStack, dataStack }
        if isKey tokenStack next then
          (push (.key (String.ofList (jsonUnescape (substr text next)))) l).bind (tokenLoop text rest)
        else if tokenStack.head?.any (·.type = .array) then
          (push (.item l.index) l).bind fun l => tokenLoop text (next :: rest) { l with index := l.index + 1 }
        else tokenLoop text (next :: rest) l

theorem tokenLoop_cons (text : List Char) (token : JsmnToken) (rest : List JsmnToken) (l : Loop) :
    tokenLoop text (token :: rest) l = (switch text token l).bind (behindSwitch text rest) := by
  cases rest with
  | nil => rfl
  | cons next rest => rfl

/-- Up to the containers that end before `stop`, the stacks are these. -/
def Settles (stop : Int) (l : Loop) (tokenStack : List JsmnToken) (dataStack : List Pointer) : Prop :=
  ∀ e > stop, popStacks e l.tokenStack l.dataStack = popStacks e tokenStack dataStack

theorem popStacks_stays {e : Int} {token : JsmnToken} (h : e ≤ token.stop) (tokenStack : List JsmnToken)
    (dataStack : List Pointer) : popStacks e (token :: tokenStack) dataStack = .ok (token :: tokenStack, dataStack) := by
  rw [popStacks.eq_def]
  simp only
  rw [if_neg (by omega)]

theorem popStacks_leaves {e : Int} {token : JsmnToken} (h : token.stop < e) (tokenStack : List JsmnToken) (p : Pointer)
    (dataStack : List Pointer) : popStacks e (token :: tokenStack) (p :: dataStack) = popStacks e tokenStack dataStack := by
  rw [popStacks.eq_def]
  simp only
  rw [if_pos h]

theorem Settles.next {stop : Int} {l : Loop} {token : JsmnToken} {tokenStack : List JsmnToken} {dataStack : List Pointer}
    (h : Settles stop l (token :: tokenStack) dataStack) (hpos : 0 ≤ stop) {next : JsmnToken} (hstop : stop < next.stop)
    (hin : next.stop ≤ token.stop) (text : List Char) (rest : List JsmnToken) :
    behindSwitch text (next :: rest) l =
      behindSwitch text (next :: rest) { l with tokenStack := token :: tokenStack, dataStack := dataStack } := by
  have hpop := (h next.stop hstop).trans (popStacks_stays hin tokenStack dataStack)
  have hne : l.tokenStack ≠ [] := by
    intro hnil
    rw [hnil] at hpop
    cases hpop
  rw [behindSwitch, behindSwitch, if_neg (by simp [hne]; omega), if_neg (by simp; omega), hpop, popStacks_stays hin]

theorem Settles.key {stop : Int} {l : Loop} {token : JsmnToken} {tokenStack : List JsmnToken} {p : Pointer}
    {dataStack : List Pointer} (h : Settles stop l (token :: tokenStack) (p :: dataStack)) (hpos : 0 ≤ stop)
    (hobject : token.type = .object) {next : JsmnToken} (hstop : stop < next.stop) (hin : next.stop ≤ token.stop)
    (hstring : next.type = .string) {text : List Char} {key : String}
    (hkey : jsonUnescape (substr text next) = key.toList) (rest : List JsmnToken) :
    behindSwitch text (next :: rest) l = tokenLoop text rest
      { l with
        data := modify id (p ++ [.key key]) l.data
        tokenStack := token :: tokenStack
        dataStack := (p ++ [.key key]) :: p :: dataStack } := by
  have hisKey : isKey (token :: tokenStack) next = true := by simp [isKey, hobject, hstring]
  rw [h.next hpos hstop hin, behindSwitch, if_neg (by simp; omega), popStacks_stays hin]
  simp only [Except.bind, hisKey, if_true, push, hkey, String.ofList_toList]

theorem Settles.item {stop : Int} {l : Loop} {token : JsmnToken} {tokenStack : List JsmnToken} {p : Pointer}
    {dataStack : List Pointer} (h : Settles stop l (token :: tokenStack) (p :: dataStack)) (hpos : 0 ≤ stop)
    (harray : token.type = .array) {next : JsmnToken} (hstop : stop < next.stop) (hin : next.stop ≤ token.stop)
    (text : List Char) (rest : List JsmnToken) :
    behindSwitch text (next :: rest) l = tokenLoop text (next :: rest)
      { data := modify id (p ++ [.item l.index]) l.data
        tokenStack := token :: tokenStack
        dataStack := (p ++ [.item l.index]) :: p :: dataStack
        index := l.index + 1 } := by
  have hisKey : isKey (token :: tokenStack) next = false := by simp [isKey, harray]
  rw [h.next hpos hstop hin, behindSwitch, if_neg (by simp; omega), popStacks_stays hin]
  simp only [Except.bind, hisKey, Bool.false_eq_true, if_false, List.head?_cons, Option.any_some, harray, decide_true,
    if_true, push]

/-- From `index` on the tokens make `r` of an empty `Data`, which ends at `stop`. -/
def Builds (text : List Char) (index : Nat) (r : Data × Nat) (stop : Int) (ts : List JsmnToken) : Prop :=
  ∀ (rest : List JsmnToken) (l : Loop) (d : Data) (p : Pointer) (dataStack : List Pointer), l.data = modify id p d →
    l.dataStack = p :: dataStack → l.index = index →
    ∃ l', tokenLoop text (ts ++ rest) l = behindSwitch text rest l' ∧ l'.index = r.2 ∧
      (∃ f, l'.data = modify f p d ∧ f empty = r.1) ∧ Settles stop l' l.tokenStack dataStack

section

variable {κ : Type} [LT κ] [DecidableLT κ] [DecidableEq κ]

/-- A kind of container: its token, the slots in it, and the `Data` with some entries and nothing else. -/
structure Container (κ : Type) [LT κ] [DecidableLT κ] [DecidableEq κ] where
  type : JsmnType
  slot : κ → Slot
  data : List (κ × Data) → Data
  type_ne : type ≠ .string ∧ type ≠ .primitive
  data_nil : data [] = empty
  alterAt_data : ∀ f key entries, alterAt f (slot key) (data entries) = data (alter key f entries)

/-- Inside of a container that ends at `stop`, the tokens behind `start` make the entries `r`. -/
def BuildsEntries (kind : Container κ) (text : List Char) (start stop : Int) (index : Nat) (r : List (κ × Data) × Nat)
    (ts : List JsmnToken) : Prop :=
  ∀ (rest : List JsmnToken) (l : Loop) (token : JsmnToken) (tokenStack : List JsmnToken) (p : Pointer)
    (dataStack : List Pointer) (d : Data) (g : Data → Data), Settles start l (token :: tokenStack) (p :: dataStack) →
    token.type = kind.type → token.stop = stop → l.index = index → l.data = modify g p d →
    ∃ l', behindSwitch text (ts ++ rest) l = behindSwitch text rest l' ∧ l'.index = r.2 ∧
      (∃ f, l'.data = modify (f ∘ g) p d ∧ ∀ entries, (∀ x ∈ entries, ∀ y ∈ r.1, x.1 < y.1) →
        f (kind.data entries) = kind.data (entries ++ r.1)) ∧
      Settles stop l' (token :: tokenStack) (p :: dataStack)

/-- Inside of a container the tokens `front` open the slot of a key, with `index'` behind them if `ts` come next. -/
def OpensSlot (kind : Container κ) (text : List Char) (start stop : Int) (index index' : Nat) (key : κ)
    (front ts : List JsmnToken) : Prop :=
  ∀ (rest : List JsmnToken) (l : Loop) (token : JsmnToken) (tokenStack : List JsmnToken) (p : Pointer)
    (dataStack : List Pointer), Settles start l (token :: tokenStack) (p :: dataStack) → token.type = kind.type →
    token.stop = stop → l.index = index →
    behindSwitch text (front ++ (ts ++ rest)) l = tokenLoop text (ts ++ rest)
      { data := modify id (p ++ [kind.slot key]) l.data
        tokenStack := token :: tokenStack
        dataStack := (p ++ [kind.slot key]) :: p :: dataStack
        index := index' }

theorem builds_atom {text : List Char} {token : JsmnToken} (htype : token.type = .string ∨ token.type = .primitive)
    {s : String} (hs : jsonUnescape (substr text token) = s.toList) (index : Nat) :
    Builds text index (mk s (token.type = .string) [] [], index) token.stop [token] := by
  intro rest l d p dataStack hl hdata hindex
  refine ⟨{ l with data := modify (setAtom s (token.type = .string)) p l.data, dataStack := dataStack }, ?_, hindex, ?_, ?_⟩
  · rw [List.singleton_append, tokenLoop_cons, switch, if_pos htype, hdata]
    simp only [hs, String.ofList_toList, Except.bind]
  · refine ⟨setAtom s (token.type = .string), ?_, ?_⟩
    · show modify (setAtom s (token.type = .string)) p l.data = _
      rw [hl, modify_modify, Function.comp_id]
    · simp [setAtom, empty]
  · exact fun _ _ => rfl

theorem BuildsEntries.container (kind : Container κ) {text : List Char} {token : JsmnToken}
    (htype : token.type = kind.type) {index : Nat} {r : List (κ × Data) × Nat} {ts : List JsmnToken} (start : Int)
    (h : BuildsEntries kind text start token.stop index r ts) :
    Builds text index (kind.data r.1, r.2) token.stop (token :: ts) := by
  intro rest l d p dataStack hl hdata hindex
  obtain ⟨l', hl', hindex', ⟨f, hf, hentries⟩, hsettles⟩ := h rest { l with tokenStack := token :: l.tokenStack } token
    l.tokenStack p dataStack d id (fun _ _ => by rw [hdata]) htype rfl hindex hl
  refine ⟨l', ?_, hindex', ⟨f, hf, ?_⟩, ?_⟩
  · rw [List.cons_append, tokenLoop_cons, switch, if_neg (by simp [htype, kind.type_ne])]
    exact hl'
  · rw [← kind.data_nil]
    exact (hentries [] (by simp)).trans (by simp)
  · intro e he
    exact (hsettles e he).trans (popStacks_leaves he _ _ _)

theorem buildsEntries_nil (kind : Container κ) (text : List Char) {start stop : Int} (h : start ≤ stop) (index : Nat) :
    BuildsEntries kind text start stop index ([], index) [] := by
  intro rest l token tokenStack p dataStack d g hsettles _ _ hindex hl
  exact ⟨l, rfl, hindex, ⟨id, hl, by simp⟩, fun e he => hsettles e (by omega)⟩

theorem OpensSlot.cons [Std.Asymm (fun a b : κ => a < b)] {kind : Container κ} {text : List Char}
    {start stop vstop : Int} {index index' : Nat} {key : κ} {front ts : List JsmnToken} (hopens : OpensSlot kind text start stop index index' key front ts)
    {r : Data × Nat} (hvalue : Builds text index' r vstop ts) {r' : List (κ × Data) × Nat} {ts' : List JsmnToken}
    (hrest : BuildsEntries kind text vstop stop r.2 r' ts') (hsorted : ∀ y ∈ r'.1, key < y.1) :
    BuildsEntries kind text start stop index ((key, r.1) :: r'.1, r'.2) (front ++ (ts ++ ts')) := by
  intro rest l container tokenStack p dataStack d g hsettles htype hcontainer hindex hl
  obtain ⟨l₁, hl₁, hindex₁, ⟨f, hf, hfempty⟩, hsettles₁⟩ := hvalue (ts' ++ rest)
    { data := modify id (p ++ [kind.slot key]) l.data
      tokenStack := container :: tokenStack
      dataStack := (p ++ [kind.slot key]) :: p :: dataStack
      index := index' } l.data _ _ rfl rfl rfl
  have hdata₁ : l₁.data = modify (alterAt f (kind.slot key) ∘ g) p d := by
    rw [hf, hl, modify_append, modify_modify]
    rfl
  obtain ⟨l₂, hl₂, hindex₂, ⟨f', hf', hentries⟩, hsettles₂⟩ :=
    hrest rest l₁ container tokenStack p dataStack d _ hsettles₁ htype hcontainer hindex₁ hdata₁
  refine ⟨l₂, ?_, hindex₂, ⟨f' ∘ alterAt f (kind.slot key), hf', ?_⟩, hsettles₂⟩
  · rw [List.append_assoc, List.append_assoc, hopens _ l container tokenStack p dataStack hsettles htype hcontainer hindex,
      hl₁, hl₂]
  · intro entries hless
    have hlast : ∀ x ∈ entries, x.1 < key := fun x hx => hless x hx _ List.mem_cons_self
    rw [Function.comp_apply, kind.alterAt_data, alter_last f hlast, hfempty, hentries, List.append_assoc]
    · rfl
    · intro x hx y hy
      rcases List.mem_append.mp hx with hx | hx
      · exact hless x hx y (List.mem_cons_of_mem _ hy)
      · obtain rfl := List.mem_singleton.mp hx
        exact hsorted y hy

end

/-! ### Objects and arrays -/

def object : Container String where
  type := .object
  slot := .key
  data members := mk "" false members []
  type_ne := ⟨nofun, nofun⟩
  data_nil := rfl
  alterAt_data _ _ _ := rfl

def list : Container Nat where
  type := .array
  slot := .item
  data items := mk "" false [] items
  type_ne := ⟨nofun, nofun⟩
  data_nil := rfl
  alterAt_data _ _ _ := rfl

/-- The key of a member is a token of its own. -/
theorem opensSlot_object {text : List Char} {start stop : Int} (hpos : 0 ≤ start) {token : JsmnToken}
    (hstring : token.type = .string) (hstart : start < token.stop) (hstop : token.stop ≤ stop) {key : String}
    (hkey : jsonUnescape (substr text token) = key.toList) (index : Nat) (ts : List JsmnToken) :
    OpensSlot object text start stop index index key [token] ts := by
  intro rest l container tokenStack p dataStack hsettles hobject hcontainer hindex
  rw [List.singleton_append, hsettles.key hpos hobject hstart (hcontainer ▸ hstop) hstring hkey, ← hindex]
  rfl

/-- The token of an item opens its slot and is read behind it. -/
theorem opensSlot_list {text : List Char} {start stop : Int} (hpos : 0 ≤ start) {token : JsmnToken}
    (hstart : start < token.stop) (hstop : token.stop ≤ stop) (index : Nat) (ts : List JsmnToken) :
    OpensSlot list text start stop index (index + 1) index [] (token :: ts) := by
  intro rest l container tokenStack p dataStack hsettles harray hcontainer hindex
  rw [List.nil_append, List.cons_append, hsettles.item hpos harray hstart (hcontainer ▸ hstop), hindex]
  rfl

end Data

end Uscxml
