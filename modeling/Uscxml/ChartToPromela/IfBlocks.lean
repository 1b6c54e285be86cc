import Uscxml.Messages
import Mathlib.Data.List.Basic

/-!
# Conditional blocks

`BasicContentExecutor::processIf` walks over the children of an `<if>` with a flag, `ChartToPromela::writeIfBlock` nests a
selection for each condition and looks for its branch behind the element with the condition. The first one expects
the names of the elements with the XML prefix of the document, the second one without. Children that raise an error
are left to `ContentExecutor`, and a selection without statements in a branch does nothing there.
-/

namespace Uscxml

namespace Conditional

variable {α γ : Type}

/-- What the two algorithms ask of elements. -/
structure Elements (α γ : Type) where
  tagName : α → String
  cond : α → γ
  childElements : α → List α

inductive Step (α γ : Type) where
  | evaluated (cond : γ)
  | executed (child : α)
  deriving DecidableEq, Repr

/-! ### Branches -/

/-- The branches with their conditions in order: up to the first condition that holds they are evaluated, and the
children of its branch are executed, or those of the `<else>`. -/
def runBranches (truth : γ → Bool) : List (γ × List α) → List α → List (Step α γ)
  | [], elseBody => elseBody.map .executed
  | (cond, body) :: branches, elseBody =>
    .evaluated cond :: if truth cond then body.map .executed else runBranches truth branches elseBody

def executed (steps : List (Step α γ)) : List α :=
  steps.filterMap fun step => match step with
    | .evaluated _ => none
    | .executed child => some child

theorem executed_map (body : List α) : executed (body.map (Step.executed (γ := γ))) = body := by
  rw [executed, List.filterMap_map]
  exact List.filterMap_some

theorem executed_evaluated (cond : γ) (steps : List (Step α γ)) :
    executed (.evaluated cond :: steps) = executed steps := rfl

/-- The children behind the first branch. -/
def behind (elseifs : List (α × List α)) (elseBranch : Option (α × List α)) : List α :=
  elseifs.flatMap (fun branch => branch.1 :: branch.2) ++ elseBranch.elim [] fun branch => branch.1 :: branch.2

theorem behind_cons (branch : α × List α) (elseifs : List (α × List α)) (elseBranch : Option (α × List α)) :
    behind (branch :: elseifs) elseBranch = branch.1 :: (branch.2 ++ behind elseifs elseBranch) := by
  simp [behind]

variable (X : Elements α γ)

/-- An `<if>` with the parts it consists of, in a document with the given prefix of names. The other children are
not named like `<elseif>` and `<else>`. -/
structure IfElem (xmlPrefix : String) where
  element : α
  body : List α
  elseifs : List (α × List α)
  elseBranch : Option (α × List α)
  tagName_element : X.tagName element = xmlPrefix ++ "if"
  tagName_elseif : ∀ branch ∈ elseifs, X.tagName branch.1 = xmlPrefix ++ "elseif"
  tagName_else : ∀ branch ∈ elseBranch, X.tagName branch.1 = xmlPrefix ++ "else"
  children : ∀ body' ∈ body :: (elseifs.map (·.2) ++ (elseBranch.map (·.2)).toList), ∀ child ∈ body',
    Convenience.iequals (X.tagName child).toList (xmlPrefix ++ "elseif").toList = false ∧
      Convenience.iequals (X.tagName child).toList (xmlPrefix ++ "else").toList = false
  childElements_element : X.childElements element = body ++ behind elseifs elseBranch

variable {X} in
def IfElem.branches {xmlPrefix : String} (e : IfElem X xmlPrefix) : List (γ × List α) :=
  (X.cond e.element, e.body) :: e.elseifs.map fun branch => (X.cond branch.1, branch.2)

variable {X} in
def IfElem.elseBody {xmlPrefix : String} (e : IfElem X xmlPrefix) : List α := e.elseBranch.elim [] (·.2)

/-! ### `processIf` -/

/-- The loop over the children. -/
def ifLoop (truth : γ → Bool) (xmlPrefix : String) : Bool → List α → List (Step α γ)
  | _, [] => []
  | blockIsTrue, childElem :: rest =>
    if Convenience.iequals (X.tagName childElem).toList (xmlPrefix ++ "elseif").toList then
      if blockIsTrue then []
      else .evaluated (X.cond childElem) :: ifLoop truth xmlPrefix (truth (X.cond childElem)) rest
    else if Convenience.iequals (X.tagName childElem).toList (xmlPrefix ++ "else").toList then
      if blockIsTrue then [] else ifLoop truth xmlPrefix true rest
    else if blockIsTrue then .executed childElem :: ifLoop truth xmlPrefix blockIsTrue rest
    else ifLoop truth xmlPrefix blockIsTrue rest

def processIf (truth : γ → Bool) (xmlPrefix : String) (content : α) : List (Step α γ) :=
  .evaluated (X.cond content) :: ifLoop X truth xmlPrefix (truth (X.cond content)) (X.childElements content)

theorem iequals_refl (a : List Char) : Convenience.iequals a a = true := decide_eq_true rfl

theorem iequals_else_elseif (xmlPrefix : String) :
    Convenience.iequals (xmlPrefix ++ "else").toList (xmlPrefix ++ "elseif").toList = false := by
  rw [Convenience.iequals, decide_eq_false_iff_not]
  intro h
  have hlength := congrArg List.length h
  rw [List.length_map, List.length_map, String.toList_append, String.toList_append, List.length_append,
    List.length_append, show "else".toList.length = 4 from rfl, show "elseif".toList.length = 6 from rfl] at hlength
  omega

theorem ifLoop_body (truth : γ → Bool) {xmlPrefix : String} {body : List α}
    (hbody : ∀ child ∈ body, Convenience.iequals (X.tagName child).toList (xmlPrefix ++ "elseif").toList = false ∧
      Convenience.iequals (X.tagName child).toList (xmlPrefix ++ "else").toList = false)
    (blockIsTrue : Bool) (rest : List α) :
    ifLoop X truth xmlPrefix blockIsTrue (body ++ rest) =
      (if blockIsTrue then body.map .executed else []) ++ ifLoop X truth xmlPrefix blockIsTrue rest := by
  induction body with
  | nil => cases blockIsTrue <;> rfl
  | cons child body ih =>
    obtain ⟨helseif, helse⟩ := hbody child List.mem_cons_self
    rw [List.cons_append, ifLoop, helseif, helse, ih fun c hc => hbody c (List.mem_cons_of_mem child hc)]
    cases blockIsTrue <;> rfl

theorem ifLoop_behind_true (truth : γ → Bool) {xmlPrefix : String} {elseifs : List (α × List α)}
    {elseBranch : Option (α × List α)} (helseifs : ∀ branch ∈ elseifs, X.tagName branch.1 = xmlPrefix ++ "elseif")
    (helse : ∀ branch ∈ elseBranch, X.tagName branch.1 = xmlPrefix ++ "else") :
    ifLoop X truth xmlPrefix true (behind elseifs elseBranch) = [] := by
  cases elseifs with
  | cons branch elseifs =>
    rw [behind_cons, ifLoop, helseifs branch List.mem_cons_self, iequals_refl]
    rfl
  | nil =>
    cases elseBranch with
    | none => rfl
    | some branch =>
      show ifLoop X truth xmlPrefix true (branch.1 :: branch.2) = []
      rw [ifLoop, helse branch rfl, iequals_else_elseif, iequals_refl]
      rfl

theorem ifLoop_behind_false (truth : γ → Bool) {xmlPrefix : String} {elseifs : List (α × List α)}
    {elseBranch : Option (α × List α)} (helseifs : ∀ branch ∈ elseifs, X.tagName branch.1 = xmlPrefix ++ "elseif")
    (helse : ∀ branch ∈ elseBranch, X.tagName branch.1 = xmlPrefix ++ "else")
    (hchildren : ∀ body' ∈ elseifs.map (·.2) ++ (elseBranch.map (·.2)).toList, ∀ child ∈ body',
      Convenience.iequals (X.tagName child).toList (xmlPrefix ++ "elseif").toList = false ∧
        Convenience.iequals (X.tagName child).toList (xmlPrefix ++ "else").toList = false) :
    ifLoop X truth xmlPrefix false (behind elseifs elseBranch) =
      runBranches truth (elseifs.map fun branch => (X.cond branch.1, branch.2)) (elseBranch.elim [] (·.2)) := by
  induction elseifs with
  | nil =>
    cases elseBranch with
    | none => rfl
    | some branch =>
      have hbody := ifLoop_body X truth (hchildren branch.2 (by simp)) true []
      show ifLoop X truth xmlPrefix false (branch.1 :: branch.2) = branch.2.map .executed
      rw [ifLoop, helse branch rfl, iequals_else_elseif, iequals_refl]
      rw [List.append_nil] at hbody
      exact hbody.trans (List.append_nil _)
  | cons branch elseifs ih =>
    have hrest := ih (fun b hb => helseifs b (List.mem_cons_of_mem branch hb)) fun body' hbody' =>
      hchildren body' (by rw [List.map_cons, List.cons_append]; exact List.mem_cons_of_mem _ hbody')
    rw [behind_cons, ifLoop, helseifs branch List.mem_cons_self, iequals_refl]
    show _ :: ifLoop X truth xmlPrefix (truth (X.cond branch.1)) (branch.2 ++ behind elseifs elseBranch) = _
    rw [ifLoop_body X truth (hchildren branch.2 (by simp)), List.map_cons, runBranches]
    cases truth (X.cond branch.1) with
    | false => rw [hrest]; rfl
    | true =>
      rw [ifLoop_behind_true X truth (fun b hb => helseifs b (List.mem_cons_of_mem branch hb)) helse]
      exact congrArg _ (List.append_nil _)

variable {X} in
/-- `processIf` evaluates the conditions up to the first one that holds and executes the children of its branch. -/
theorem processIf_eq {xmlPrefix : String} (e : IfElem X xmlPrefix) (truth : γ → Bool) :
    processIf X truth xmlPrefix e.element = runBranches truth e.branches e.elseBody := by
  have hbody := ifLoop_body X truth (e.children e.body List.mem_cons_self) (truth (X.cond e.element))
    (behind e.elseifs e.elseBranch)
  have hchildren := fun body' hbody' => e.children body' (List.mem_cons_of_mem _ hbody')
  rw [processIf, e.childElements_element, hbody, IfElem.branches, runBranches]
  cases truth (X.cond e.element) with
  | false => rw [ifLoop_behind_false X truth e.tagName_elseif e.tagName_else hchildren]; rfl
  | true =>
    rw [ifLoop_behind_true X truth e.tagName_elseif e.tagName_else]
    exact congrArg _ (List.append_nil _)

/-! ### `writeIfBlock` -/

/-- A selection as it is written: `if :: (cond) -> { body } :: else -> .. fi`, where `else` skips, has a body of its
own, or another selection. -/
inductive IfBlock (α γ : Type) where
  | skipElse (cond : γ) (body : List α)
  | bodyElse (cond : γ) (body elseBody : List α)
  | nestedElse (cond : γ) (body : List α) (next : IfBlock α γ)

def IfBlock.run (truth : γ → Bool) : IfBlock α γ → List α
  | .skipElse cond body => if truth cond then body else []
  | .bodyElse cond body elseBody => if truth cond then body else elseBody
  | .nestedElse cond body next => if truth cond then body else next.run truth

/-- An element of the chain with the elements behind it. -/
structure Link (α : Type) where
  element : α
  following : List α

/-- The children of a kind, each with those behind it. -/
def linksOf (tag : String) : List α → List (Link α)
  | [] => []
  | child :: rest => if X.tagName child = tag then ⟨child, rest⟩ :: linksOf tag rest else linksOf tag rest

/-- The children of an `<if>`, or the elements behind an `<elseif>`, up to the next one of these. -/
def branchOf (link : Link α) : List α :=
  (if X.tagName link.element = "if" then X.childElements link.element else link.following).takeWhile fun childElem =>
    !(X.tagName childElem = "elseif" || X.tagName childElem = "else")

/-- `ChartToPromela::writeIfBlock` for a chain that is not empty. -/
def writeIfBlock : Link α → List (Link α) → IfBlock α γ
  | ifNode, [] => .skipElse (X.cond ifNode.element) (branchOf X ifNode)
  | ifNode, next :: condChain =>
    if X.tagName next.element = "else" then
      .bodyElse (X.cond ifNode.element) (branchOf X ifNode) next.following
    else .nestedElse (X.cond ifNode.element) (branchOf X ifNode) (writeIfBlock next condChain)

/-- The branch of `ChartToPromela::writeExecContent` for an `<if>`; elements of other names are not supported. -/
def writeExecContent (xmlPrefix : String) (element : Link α) : Option (IfBlock α γ) :=
  if X.tagName element.element = "if" then
    some (writeIfBlock X element (linksOf X (xmlPrefix ++ "elseif") (X.childElements element.element) ++
      linksOf X (xmlPrefix ++ "else") (X.childElements element.element)))
  else none

theorem ne_of_iequals_false {a b : String} (h : Convenience.iequals a.toList b.toList = false) : a ≠ b := by
  rintro rfl
  rw [iequals_refl] at h
  cases h

theorem linksOf_body {tag : String} {body : List α} (h : ∀ child ∈ body, X.tagName child ≠ tag) (rest : List α) :
    linksOf X tag (body ++ rest) = linksOf X tag rest := by
  induction body with
  | nil => rfl
  | cons child body ih =>
    rw [List.cons_append, linksOf, if_neg (h child List.mem_cons_self), ih fun c hc => h c (List.mem_cons_of_mem child hc)]

theorem takeWhile_branch {body : List α} (hbody : ∀ child ∈ body, X.tagName child ≠ "elseif" ∧ X.tagName child ≠ "else")
    {elseifs : List (α × List α)} {elseBranch : Option (α × List α)}
    (helseifs : ∀ branch ∈ elseifs, X.tagName branch.1 = "elseif") (helse : ∀ branch ∈ elseBranch, X.tagName branch.1 = "else") :
    (body ++ behind elseifs elseBranch).takeWhile (fun childElem =>
      !(X.tagName childElem = "elseif" || X.tagName childElem = "else")) = body := by
  rw [List.takeWhile_append_of_pos (by intro c hc; simp [hbody c hc])]
  suffices hstop : (behind elseifs elseBranch).takeWhile (fun childElem =>
      !(X.tagName childElem = "elseif" || X.tagName childElem = "else")) = [] by
    rw [hstop, List.append_nil]
  cases elseifs with
  | cons branch elseifs =>
    have hname : X.tagName branch.1 = "elseif" := helseifs branch List.mem_cons_self
    rw [behind_cons, List.takeWhile_cons, hname]
    rfl
  | nil =>
    cases elseBranch with
    | none => rfl
    | some branch =>
      have hname : X.tagName branch.1 = "else" := helse branch rfl
      show List.takeWhile _ (branch.1 :: branch.2) = []
      rw [List.takeWhile_cons, hname]
      rfl

/-- The selections for the rest of a chain execute what the branches say. -/
theorem run_writeIfBlock (truth : γ → Bool) {link : Link α} {body : List α} {elseifs : List (α × List α)}
    {elseBranch : Option (α × List α)} (hlink : branchOf X link = body)
    (helseifs : ∀ branch ∈ elseifs, X.tagName branch.1 = "elseif") (helse : ∀ branch ∈ elseBranch, X.tagName branch.1 = "else")
    (hchildren : ∀ body' ∈ elseifs.map (·.2) ++ (elseBranch.map (·.2)).toList, ∀ child ∈ body',
      X.tagName child ≠ "elseif" ∧ X.tagName child ≠ "else") :
    (writeIfBlock X link (linksOf X "elseif" (behind elseifs elseBranch) ++
        linksOf X "else" (behind elseifs elseBranch))).run truth =
      executed (runBranches truth ((X.cond link.element, body) :: elseifs.map fun branch => (X.cond branch.1, branch.2))
        (elseBranch.elim [] (·.2))) := by
  induction elseifs generalizing link body with
  | nil =>
    cases elseBranch with
    | none =>
      show (writeIfBlock X link []).run truth = _
      rw [writeIfBlock, IfBlock.run, hlink, List.map_nil, runBranches, runBranches, executed_evaluated]
      cases truth (X.cond link.element) with
      | false => rfl
      | true => exact (executed_map body).symm
    | some branch =>
      have hname : X.tagName branch.1 = "else" := helse branch rfl
      have hbody := hchildren branch.2 (by simp)
      have helseif : linksOf X "elseif" (branch.1 :: branch.2) = [] := by
        have hrest := linksOf_body X (fun c hc => (hbody c hc).1) []
        rw [List.append_nil] at hrest
        rw [linksOf, hname, if_neg (by decide), hrest]
        rfl
      have helse' : linksOf X "else" (branch.1 :: branch.2) = [⟨branch.1, branch.2⟩] := by
        have hrest := linksOf_body X (fun c hc => (hbody c hc).2) []
        rw [List.append_nil] at hrest
        rw [linksOf, if_pos hname, hrest]
        rfl
      show (writeIfBlock X link (linksOf X "elseif" (branch.1 :: branch.2) ++
        linksOf X "else" (branch.1 :: branch.2))).run truth = _
      rw [helseif, helse', List.nil_append, writeIfBlock, if_pos hname, IfBlock.run, hlink, List.map_nil, runBranches,
        runBranches, executed_evaluated]
      cases truth (X.cond link.element) with
      | false => exact (executed_map branch.2).symm
      | true => exact (executed_map body).symm
  | cons branch elseifs ih =>
    have hname : X.tagName branch.1 = "elseif" := helseifs branch List.mem_cons_self
    have hbody := hchildren branch.2 (by simp)
    have helseifs' : ∀ b ∈ elseifs, X.tagName b.1 = "elseif" := fun b hb => helseifs b (List.mem_cons_of_mem branch hb)
    have helseif : linksOf X "elseif" (behind (branch :: elseifs) elseBranch) =
        ⟨branch.1, branch.2 ++ behind elseifs elseBranch⟩ :: linksOf X "elseif" (behind elseifs elseBranch) := by
      rw [behind_cons, linksOf, if_pos hname, linksOf_body X fun c hc => (hbody c hc).1]
    have helse' : linksOf X "else" (behind (branch :: elseifs) elseBranch) =
        linksOf X "else" (behind elseifs elseBranch) := by
      rw [behind_cons, linksOf, hname, if_neg (by decide), linksOf_body X fun c hc => (hbody c hc).2]
    have hnext : branchOf X ⟨branch.1, branch.2 ++ behind elseifs elseBranch⟩ = branch.2 := by
      rw [branchOf, hname, if_neg (by decide)]
      exact takeWhile_branch X hbody helseifs' helse
    have hrest := ih hnext helseifs' fun body' hbody' =>
      hchildren body' (by rw [List.map_cons, List.cons_append]; exact List.mem_cons_of_mem _ hbody')
    rw [helseif, helse', List.cons_append, writeIfBlock, hname, if_neg (by decide), IfBlock.run, hlink, hrest]
    conv_rhs => rw [List.map_cons, runBranches, executed_evaluated]
    cases truth (X.cond link.element) with
    | false => rfl
    | true => exact (executed_map body).symm

/-- `processIf` keeps to the branches of an `<if>`, and there is a selection for it that executes the same children under
every truth assignment. -/
def Agrees {xmlPrefix : String} (e : IfElem X xmlPrefix) (following : List α) : Prop :=
  (∀ truth, processIf X truth xmlPrefix e.element = runBranches truth e.branches e.elseBody) ∧
    ∃ block, writeExecContent X xmlPrefix ⟨e.element, following⟩ = some block ∧
      ∀ truth, block.run truth = executed (processIf X truth xmlPrefix e.element)

variable {X} in
/-- The two agree on an `<if>` exactly when names have no prefix. -/
theorem agrees_iff {xmlPrefix : String} (e : IfElem X xmlPrefix) (following : List α) :
    Agrees X e following ↔ xmlPrefix = "" := by
  constructor
  · rintro ⟨-, block, hblock, -⟩
    rw [writeExecContent] at hblock
    split at hblock
    · rename_i hname
      rw [e.tagName_element] at hname
      have hlength := congrArg (fun name => name.toList.length) hname
      simp only [String.toList_append, List.length_append] at hlength
      exact String.toList_eq_nil_iff.mp (List.length_eq_zero_iff.mp (by omega))
    · cases hblock
  · rintro rfl
    have hempty : ∀ tag : String, "" ++ tag = tag := fun _ => String.empty_append
    have hname : X.tagName e.element = "if" := e.tagName_element.trans (hempty "if")
    have helseifs : ∀ branch ∈ e.elseifs, X.tagName branch.1 = "elseif" :=
      fun branch hbranch => (e.tagName_elseif branch hbranch).trans (hempty "elseif")
    have helse : ∀ branch ∈ e.elseBranch, X.tagName branch.1 = "else" :=
      fun branch hbranch => (e.tagName_else branch hbranch).trans (hempty "else")
    have hchildren : ∀ body' ∈ e.body :: (e.elseifs.map (·.2) ++ (e.elseBranch.map (·.2)).toList), ∀ child ∈ body',
        X.tagName child ≠ "elseif" ∧ X.tagName child ≠ "else" := fun body' hbody' child hchild =>
      ⟨ne_of_iequals_false (e.children body' hbody' child hchild).1,
        ne_of_iequals_false (e.children body' hbody' child hchild).2⟩
    have hbody := hchildren e.body List.mem_cons_self
    have hbranch : branchOf X ⟨e.element, following⟩ = e.body := by
      rw [branchOf, if_pos hname, e.childElements_element]
      exact takeWhile_branch X hbody helseifs helse
    refine ⟨fun truth => processIf_eq e truth, _, if_pos hname, fun truth => ?_⟩
    rw [processIf_eq, hempty, hempty, e.childElements_element, linksOf_body X (fun c hc => (hbody c hc).1),
      linksOf_body X (fun c hc => (hbody c hc).2)]
    exact run_writeIfBlock X truth hbranch helseifs helse fun body' hbody' => hchildren body' (List.mem_cons_of_mem _ hbody')

/-- The elements of a document with the prefix `scxml:`: an `<if>` around a `<raise>`. -/
def prefixedElements : Elements Nat Unit where
  tagName i := if i = 0 then "scxml:if" else "scxml:raise"
  cond _ := ()
  childElements i := if i = 0 then [1] else []

def prefixedIf : IfElem prefixedElements "scxml:" where
  element := 0
  body := [1]
  elseifs := []
  elseBranch := none
  tagName_element := rfl
  tagName_elseif := List.forall_mem_nil _
  tagName_else := nofun
  children := by decide
  childElements_element := rfl

/-- Nothing is written for it. -/
theorem prefixed_if_not_written : ¬ Agrees prefixedElements prefixedIf [] := by
  rintro ⟨-, block, hblock, -⟩
  have hnone : writeExecContent prefixedElements "scxml:" ⟨0, []⟩ = none := by decide
  exact Option.some_ne_none block (hblock.symm.trans hnone)

end Conditional

end Uscxml
