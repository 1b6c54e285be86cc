import Uscxml.ChartToC.Tables

/-!
# The sizes in the generated code

`writeMacros` writes the sizes of all arrays and the types of all indices once, as `prepare` found them for the machine
that is written. The same `uscxml_step` then runs the machines that were found behind its `<invoke>` elements.
-/

namespace Uscxml

namespace ChartToC

/-! ### Sizes and types -/

/-- The conversion of a `size_t` to `float`: to the nearest number of 24 bits, a tie to the even one. -/
def toFloat (n : Nat) : Nat :=
  let ulp := 2 ^ (n.log2 - 23)
  let below := n / ulp
  if 2 * (n % ulp) < ulp ∨ 2 * (n % ulp) = ulp ∧ below % 2 = 0 then below * ulp else (below + 1) * ulp

/-- `ceil((float)n / (float)8)`. -/
def charArraySize (n : Nat) : Nat := (toFloat n + 7) / 8

inductive DataType where
  | uint8 | uint16 | uint32 | uint64
  deriving DecidableEq, Repr

def DataType.bits : DataType → Nat
  | .uint8 => 8
  | .uint16 => 16
  | .uint32 => 32
  | .uint64 => 64

def dataType (n : Nat) : DataType :=
  if n < 1 <<< 8 then .uint8
  else if n < 1 <<< 16 then .uint16
  else if n < 1 <<< 32 then .uint32
  else .uint64

/-- What `writeMacros` and the head of `writeFSM` write. -/
structure Sizes where
  maxNrStatesBytes : Nat
  maxNrTransBytes : Nat
  nrStatesType : DataType
  nrTransType : DataType
  counterType : DataType

def sizes (M : Machine) : Sizes where
  maxNrStatesBytes := max 1 (charArraySize M.states.length)
  maxNrTransBytes := max 1 (charArraySize M.transitions.length)
  nrStatesType := dataType M.states.length
  nrTransType := dataType M.transitions.length
  counterType :=
    if M.states.length > M.transitions.length then dataType M.states.length else dataType M.transitions.length

/-! ### Machines -/

/-- A document with the documents that its `<invoke>` elements name by `src` or hold as content, and so on. The
pointers are those into the document as `prepare` leaves it. -/
inductive MachineTree (β : Type) where
  | mk (document : Document β) (invoked : Ref → Option (MachineTree β))

variable {β : Type}

namespace MachineTree

def document : MachineTree β → Document β
  | mk document _ => document

def invoked : MachineTree β → Ref → Option (MachineTree β)
  | mk _ invoked => invoked

/-- The `<invoke>` elements that `findNestedMachines` visits. -/
def invokes (t : MachineTree β) : List (Ref × InvokeElem β) :=
  (resortStates t.document).states.flatMap fun p =>
    (((resortStates t.document).elem? p).elim [] (·.invoke)).zipIdx.map fun e => (.invoke p e.2, e.1)

/-- `findNestedMachines`: the machine of an `<invoke>` of a type that is not that of SCXML is left out. -/
def findNestedMachines (t : MachineTree β) : List (MachineTree β) :=
  t.invokes.filterMap fun e =>
    if e.2.type.all fun type => type = "scxml" ∨ type = "http://www.w3.org/TR/scxml/" then t.invoked e.1 else none

/-- `_allMachines`. A nested machine is constructed, with the machines nested in itself, before its
`_topMostMachine` is set: it has put those into a list of its own. -/
def allMachines (t : MachineTree β) : List (MachineTree β) := t :: t.findNestedMachines

def machine (t : MachineTree β) : Machine := prepare t.document

end MachineTree

/-- There is room for a machine in every array, and its counts are values of every index type. -/
structure HasRoom (s : Sizes) (M : Machine) : Prop where
  statesBytes : M.states.length ≤ s.maxNrStatesBytes * 8
  transBytes : M.transitions.length ≤ s.maxNrTransBytes * 8
  statesType : M.states.length < 2 ^ s.nrStatesType.bits
  transType : M.transitions.length < 2 ^ s.nrTransType.bits
  statesCounter : M.states.length < 2 ^ s.counterType.bits
  transCounter : M.transitions.length < 2 ^ s.counterType.bits

/-- `k` is no larger than `n`, up to the next multiple of eight of `n` as a `float` (at least 8), and none of the
bounds of the index types lies between the two. -/
structure Beside (n k : Nat) : Prop where
  bytes : k ≤ 8 ∨ (k + 7) / 8 ≤ (toFloat n + 7) / 8
  below8 : k < 2 ^ 8 ∨ 2 ^ 8 ≤ n
  below16 : k < 2 ^ 16 ∨ 2 ^ 16 ≤ n
  below32 : k < 2 ^ 32 ∨ 2 ^ 32 ≤ n
  below64 : k < 2 ^ 64

theorem le_bytes_iff {n k : Nat} :
    k ≤ max 1 (charArraySize n) * 8 ↔ k ≤ 8 ∨ (k + 7) / 8 ≤ (toFloat n + 7) / 8 := by
  rw [charArraySize]
  omega

theorem lt_dataType_iff {n k : Nat} :
    k < 2 ^ (dataType n).bits ↔
      (k < 2 ^ 8 ∨ 2 ^ 8 ≤ n) ∧ (k < 2 ^ 16 ∨ 2 ^ 16 ≤ n) ∧ (k < 2 ^ 32 ∨ 2 ^ 32 ≤ n) ∧ k < 2 ^ 64 := by
  rw [dataType]
  split
  · simp only [DataType.bits]
    omega
  · split
    · simp only [DataType.bits]
      omega
    · split
      · simp only [DataType.bits]
        omega
      · simp only [DataType.bits]
        omega

theorem beside_iff {n k : Nat} :
    Beside n k ↔ k ≤ max 1 (charArraySize n) * 8 ∧ k < 2 ^ (dataType n).bits := by
  rw [le_bytes_iff, lt_dataType_iff]
  constructor
  · intro h
    exact ⟨h.bytes, h.below8, h.below16, h.below32, h.below64⟩
  · rintro ⟨hbytes, h8, h16, h32, h64⟩
    exact ⟨hbytes, h8, h16, h32, h64⟩

theorem dataType_mono {n k l : Nat} (h : n ≤ l) (hk : k < 2 ^ (dataType n).bits) : k < 2 ^ (dataType l).bits := by
  rw [lt_dataType_iff] at hk ⊢
  omega

theorem hasRoom_iff {T M : Machine} :
    HasRoom (sizes T) M ↔
      Beside T.states.length M.states.length ∧ Beside T.transitions.length M.transitions.length := by
  rw [beside_iff, beside_iff]
  constructor
  · intro h
    exact ⟨⟨h.statesBytes, h.statesType⟩, h.transBytes, h.transType⟩
  · rintro ⟨⟨hsb, hst⟩, htb, htt⟩
    have hcounter : M.states.length < 2 ^ (sizes T).counterType.bits ∧
        M.transitions.length < 2 ^ (sizes T).counterType.bits := by
      simp only [sizes]
      split
      · rename_i hlt
        exact ⟨hst, dataType_mono hlt.le htt⟩
      · rename_i hge
        exact ⟨dataType_mono (Nat.not_lt.mp hge) hst, htt⟩
    exact ⟨hsb, htb, hst, htt, hcounter.1, hcounter.2⟩

/-- The sizes fit all machines exactly when no machine exceeds the one that is written. -/
theorem allMachines_hasRoom_iff (t : MachineTree β) :
    (∀ m ∈ t.allMachines, HasRoom (sizes t.machine) m.machine) ↔
      ∀ m ∈ t.allMachines, Beside t.machine.states.length m.machine.states.length ∧
        Beside t.machine.transitions.length m.machine.transitions.length := by
  constructor
  · intro h m hm
    exact hasRoom_iff.mp (h m hm)
  · intro h m hm
    exact hasRoom_iff.mpr (h m hm)

/-- A machine of a single state that invokes one of nine. -/
def invokesLarger : MachineTree Unit :=
  .mk
    { tree := ⟨{ tag := .scxml }, .cons { tag := .state, invoke := [{ type := some "scxml" }] } .nil .nil⟩ }
    (fun _ => some (.mk
      { tree := ⟨{ tag := .scxml }, Forest.ofList (List.replicate 8 ({ tag := .state }, .nil))⟩ }
      (fun _ => none)))

theorem invokesLarger_lacks_room :
    ¬ ∀ m ∈ invokesLarger.allMachines, HasRoom (sizes invokesLarger.machine) m.machine := by
  intro h
  have hmem : (.invoke [0] 0, { type := some "scxml" }) ∈ invokesLarger.invokes := by decide
  have hroom := (h _ (List.mem_cons_of_mem _ (List.mem_filterMap.mpr ⟨_, hmem, rfl⟩))).statesBytes
  -- Nine states, one byte.
  revert hroom
  decide +kernel

end ChartToC

end Uscxml
