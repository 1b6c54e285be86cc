import Uscxml.Lib.Lexicographic
import Mathlib.Data.String.Basic

/-!
# The order of `Data`

`Data::operator<`, and the other comparisons that are defined by it, with all members of `Data`. Pointers to nodes of a DOM
and to the contents of blobs are elements of ordered types. The comparisons of maps go back to those of their values, so
that the recursion is bounded by how deep a value is nested.
-/

namespace Uscxml

open Lexicographic (mapEq mapLt Orders)

inductive DataType where
  | verbatim
  | interpreted
  deriving DecidableEq, Repr

def DataType.toNat : DataType → Nat
  | verbatim => 0
  | interpreted => 1

theorem DataType.toNat_injective {t t' : DataType} (h : t.toNat = t'.toNat) : t = t' := by
  cases t <;> cases t' <;> first | rfl | cases h

inductive DataValue (Node Blob : Type) where
  | mk (node : Node) (compound : List (String × DataValue Node Blob)) (array : List (Int × DataValue Node Blob))
    (atom : String) (binary : Blob) (type : DataType)

namespace DataValue

variable {Node Blob : Type}

def node : DataValue Node Blob → Node
  | mk node _ _ _ _ _ => node

def compound : DataValue Node Blob → List (String × DataValue Node Blob)
  | mk _ compound _ _ _ _ => compound

def array : DataValue Node Blob → List (Int × DataValue Node Blob)
  | mk _ _ array _ _ _ => array

def atom : DataValue Node Blob → String
  | mk _ _ _ atom _ _ => atom

def binary : DataValue Node Blob → Blob
  | mk _ _ _ _ binary _ => binary

def type : DataValue Node Blob → DataType
  | mk _ _ _ _ _ type => type

mutual

def height : DataValue Node Blob → Nat
  | mk _ compound array _ _ _ => max (compoundHeight compound) (arrayHeight array) + 1

def compoundHeight : List (String × DataValue Node Blob) → Nat
  | [] => 0
  | (_, d) :: rest => max d.height (compoundHeight rest)

def arrayHeight : List (Int × DataValue Node Blob) → Nat
  | [] => 0
  | (_, d) :: rest => max d.height (arrayHeight rest)

end

theorem le_compoundHeight {members : List (String × DataValue Node Blob)} {m : String × DataValue Node Blob} (h : m ∈ members) :
    m.2.height ≤ compoundHeight members := by
  induction members with
  | nil => cases h
  | cons m' members ih =>
    rw [compoundHeight]
    rcases List.mem_cons.mp h with rfl | h
    · exact le_max_left _ _
    · exact le_max_of_le_right (ih h)

theorem le_arrayHeight {items : List (Int × DataValue Node Blob)} {i : Int × DataValue Node Blob} (h : i ∈ items) :
    i.2.height ≤ arrayHeight items := by
  induction items with
  | nil => cases h
  | cons i' items ih =>
    rw [arrayHeight]
    rcases List.mem_cons.mp h with rfl | h
    · exact le_max_left _ _
    · exact le_max_of_le_right (ih h)

theorem height_compound {d : DataValue Node Blob} {n : Nat} (hd : d.height ≤ n + 1) : ∀ m ∈ d.compound, m.2.height ≤ n := by
  obtain ⟨_, compound, array, _, _, _⟩ := d
  rw [height] at hd
  intro m hm
  have hle : m.2.height ≤ compoundHeight compound := le_compoundHeight hm
  omega

theorem height_array {d : DataValue Node Blob} {n : Nat} (hd : d.height ≤ n + 1) : ∀ i ∈ d.array, i.2.height ≤ n := by
  obtain ⟨_, compound, array, _, _, _⟩ := d
  rw [height] at hd
  intro i hi
  have hle : i.2.height ≤ arrayHeight array := le_arrayHeight hi
  omega

/-! ### The comparisons -/

/-- `Data::operator==`, which is defined by `operator<`. -/
def eqBy (lt : DataValue Node Blob → DataValue Node Blob → Bool) (x other : DataValue Node Blob) : Bool := !(lt x other || lt other x)

theorem eqBy_iff {S : DataValue Node Blob → Prop} {lt : DataValue Node Blob → DataValue Node Blob → Bool}
    (h : Orders S lt (· = ·)) {x y : DataValue Node Blob} (hx : S x) (hy : S y) : eqBy lt x y = true ↔ x = y := by
  rw [← h.incomparable x y hx hy, eqBy, Bool.not_eq_true', Bool.or_eq_false_iff]

variable [LinearOrder Node] [LinearOrder Blob]

/-- The body of `Data::operator<` with the comparison of the values in maps. -/
def compare (lt : DataValue Node Blob → DataValue Node Blob → Bool) (x other : DataValue Node Blob) : Bool :=
  if decide (other.atom ≠ x.atom) then decide (other.atom < x.atom)
  else if !mapEq (eqBy lt) other.array x.array then mapLt lt other.array x.array
  else if !mapEq (eqBy lt) other.compound x.compound then mapLt lt other.compound x.compound
  else if decide (other.node ≠ x.node) then decide (other.node < x.node)
  else if decide (other.binary ≠ x.binary) then decide (other.binary < x.binary)
  else if decide (other.type.toNat ≠ x.type.toNat) then decide (other.type.toNat < x.type.toNat)
  else false

/-- `Data::operator<` for values that are nested at most `n` deep. -/
def ltAt : Nat → DataValue Node Blob → DataValue Node Blob → Bool
  | 0, _, _ => false
  | n + 1, x, other => compare (ltAt n) x other

/-- `Data::operator<`. -/
def lt (x other : DataValue Node Blob) : Bool := ltAt (max x.height other.height) x other

/-- `Data::operator==`. -/
def eq (x other : DataValue Node Blob) : Bool := eqBy lt x other

/-- The values of maps are ordered, and so are the values that hold the maps. -/
theorem orders_compare {S T : DataValue Node Blob → Prop} {lt : DataValue Node Blob → DataValue Node Blob → Bool}
    (h : Orders S lt (· = ·)) (hcompound : ∀ x, T x → ∀ m ∈ x.compound, S m.2) (harray : ∀ x, T x → ∀ i ∈ x.array, S i.2) :
    Orders T (compare lt) (· = ·) := by
  have hne : ∀ {κ : Type} [DecidableEq κ] (l l' : List (κ × DataValue Node Blob)), (∀ x ∈ l, S x.2) → (∀ y ∈ l', S y.2) →
      ((!mapEq (eqBy lt) l l') = true ↔ l ≠ l') := by
    intro κ _ l l' hl hl'
    rw [Bool.not_eq_true', Bool.eq_false_iff, ne_eq, Lexicographic.mapEq_iff fun x hx y hy => eqBy_iff h (hl x hx) (hl' y hy)]
  have hdecide : ∀ {α : Type} [DecidableEq α] (a b : α), True → True → (decide (a ≠ b) = true ↔ a ≠ b) :=
    fun a b _ _ => decide_eq_true_iff
  have hown : ∀ {α : Type} [LinearOrder α] (f : DataValue Node Blob → α) {lt' eqv}, Orders T lt' eqv →
      Orders T (fun x y => if decide (f x ≠ f y) = true then decide (f x < f y) else lt' x y) fun x y => f x = f y ∧ eqv x y :=
    fun f => Orders.after Lexicographic.orders_of_linearOrder hdecide fun _ _ => trivial
  have hrest := hown node (hown binary (hown (fun x => x.type.toNat) Lexicographic.orders_nothing))
  have hmaps := Orders.after h.map hne harray (Orders.after h.map hne hcompound hrest)
  have hall := (hown atom hmaps).flip
  refine ⟨hall.irrefl, hall.trans, ?_⟩
  intro x y hx hy
  refine (hall.incomparable x y hx hy).trans ⟨?_, ?_⟩
  · rintro ⟨hatom, harray, hcompound, hnode, hbinary, htype, -⟩
    obtain ⟨_, _, _, _, _, _⟩ := x
    obtain ⟨_, _, _, _, _, _⟩ := y
    obtain rfl := hatom
    obtain rfl := harray
    obtain rfl := hcompound
    obtain rfl := hnode
    obtain rfl := hbinary
    obtain rfl := DataType.toNat_injective htype
    rfl
  · rintro rfl
    exact ⟨rfl, rfl, rfl, rfl, rfl, rfl, trivial⟩

theorem orders_ltAt (n : Nat) : Orders (fun x : DataValue Node Blob => x.height ≤ n) (ltAt n) (· = ·) := by
  induction n with
  | zero =>
    have hnone : ∀ x : DataValue Node Blob, ¬ x.height ≤ 0 := by
      rintro ⟨_, _, _, _, _, _⟩
      rw [height]
      omega
    exact ⟨fun x hx => absurd hx (hnone x), fun x _ _ hx => absurd hx (hnone x), fun x _ hx => absurd hx (hnone x)⟩
  | succ n ih => exact orders_compare ih (fun _ hx => height_compound hx) fun _ hx => height_array hx

theorem compare_congr {lt lt' : DataValue Node Blob → DataValue Node Blob → Bool} {x other : DataValue Node Blob}
    (hcompound : ∀ m ∈ x.compound, ∀ m' ∈ other.compound, lt m.2 m'.2 = lt' m.2 m'.2 ∧ lt m'.2 m.2 = lt' m'.2 m.2)
    (harray : ∀ i ∈ x.array, ∀ i' ∈ other.array, lt i.2 i'.2 = lt' i.2 i'.2 ∧ lt i'.2 i.2 = lt' i'.2 i.2) :
    compare lt x other = compare lt' x other := by
  have heqCompound : mapEq (eqBy lt) other.compound x.compound = mapEq (eqBy lt') other.compound x.compound := by
    apply Lexicographic.mapEq_congr
    intro m' hm' m hm
    rw [eqBy, eqBy, (hcompound m hm m' hm').1, (hcompound m hm m' hm').2]
  have heqArray : mapEq (eqBy lt) other.array x.array = mapEq (eqBy lt') other.array x.array := by
    apply Lexicographic.mapEq_congr
    intro i' hi' i hi
    rw [eqBy, eqBy, (harray i hi i' hi').1, (harray i hi i' hi').2]
  have hltCompound : mapLt lt other.compound x.compound = mapLt lt' other.compound x.compound :=
    Lexicographic.mapLt_congr (fun m' hm' m hm => (hcompound m hm m' hm').2) fun m' hm' m hm => (hcompound m hm m' hm').1
  have hltArray : mapLt lt other.array x.array = mapLt lt' other.array x.array :=
    Lexicographic.mapLt_congr (fun i' hi' i hi => (harray i hi i' hi').2) fun i' hi' i hi => (harray i hi i' hi').1
  rw [compare, compare, heqCompound, heqArray, hltCompound, hltArray]

/-- The depth that the comparison is bounded by does not matter once it is that of both values. -/
theorem ltAt_of_le {n k : Nat} {x other : DataValue Node Blob} (hx : x.height ≤ n) (hother : other.height ≤ n) (hle : n ≤ k) :
    ltAt k x other = ltAt n x other := by
  induction n generalizing k x other with
  | zero =>
    obtain ⟨_, _, _, _, _, _⟩ := x
    rw [height] at hx
    omega
  | succ n ih =>
    obtain ⟨k, rfl⟩ : ∃ k', k = k' + 1 := ⟨k - 1, by omega⟩
    have hle' : n ≤ k := by omega
    apply compare_congr
    · intro m hm m' hm'
      have hmx := height_compound hx m hm
      have hmother := height_compound hother m' hm'
      exact ⟨ih hmx hmother hle', ih hmother hmx hle'⟩
    · intro i hi i' hi'
      have hix := height_array hx i hi
      have hiother := height_array hother i' hi'
      exact ⟨ih hix hiother hle', ih hiother hix hle'⟩

theorem lt_eq_ltAt {n : Nat} {x other : DataValue Node Blob} (hx : x.height ≤ n) (hother : other.height ≤ n) :
    lt x other = ltAt n x other :=
  (ltAt_of_le (le_max_left _ _) (le_max_right _ _) (max_le hx hother)).symm

theorem orders_lt : Orders (fun _ : DataValue Node Blob => True) lt (· = ·) := by
  have hat : ∀ {n : Nat} {x y : DataValue Node Blob}, x.height ≤ n → y.height ≤ n → lt x y = ltAt n x y := lt_eq_ltAt
  constructor
  · intro x _
    rw [hat le_rfl le_rfl]
    exact (orders_ltAt _).irrefl x le_rfl
  · intro x y z _ _ _
    have hx : x.height ≤ max x.height (max y.height z.height) := le_max_left _ _
    have hy : y.height ≤ max x.height (max y.height z.height) := le_max_of_le_right (le_max_left _ _)
    have hz : z.height ≤ max x.height (max y.height z.height) := le_max_of_le_right (le_max_right _ _)
    rw [hat hx hy, hat hy hz, hat hx hz]
    exact (orders_ltAt _).trans x y z hx hy hz
  · intro x y _ _
    have hx : x.height ≤ max x.height y.height := le_max_left _ _
    have hy : y.height ≤ max x.height y.height := le_max_right _ _
    rw [hat hx hy, hat hy hx]
    exact (orders_ltAt _).incomparable x y hx hy

/-- `operator<` is a strict weak ordering, `operator==` is equality of all members, and a `std::set` that is filled with values
holds each of them once. -/
theorem lt_strictWeak_eq_iff :
    (∀ x : DataValue Node Blob, x.lt x = false) ∧
      (∀ x y z : DataValue Node Blob, x.lt y = true → y.lt z = true → x.lt z = true) ∧
      (∀ x y z : DataValue Node Blob, x.lt y = false ∧ y.lt x = false → y.lt z = false ∧ z.lt y = false →
        x.lt z = false ∧ z.lt x = false) ∧
      (∀ x y : DataValue Node Blob, x.eq y = true ↔ x = y) ∧
      ∀ values : List (DataValue Node Blob),
        (values.foldl (fun s x => Lexicographic.insert lt x s) []).Nodup ∧
          ∀ x, x ∈ values.foldl (fun s x => Lexicographic.insert lt x s) [] ↔ x ∈ values := by
  have h : Orders (fun _ : DataValue Node Blob => True) lt (· = ·) := orders_lt
  refine ⟨?_, ?_, ?_, ?_, ?_⟩
  · intro x
    exact h.irrefl x trivial
  · intro x y z
    exact h.trans x y z trivial trivial trivial
  · intro x y z hxy hyz
    have heq := (h.incomparable x y trivial trivial).mp hxy
    rw [heq]
    exact hyz
  · intro x y
    exact eqBy_iff h trivial trivial
  · exact Lexicographic.foldl_insert h

end DataValue

end Uscxml
