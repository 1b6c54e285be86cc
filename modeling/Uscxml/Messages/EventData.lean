import Uscxml.Messages.TokenLoop

/-!
# Events as data

`Event::operator Data`, which writes an event for the serialised state of an interpreter, and `Event::fromData`, which
reads it back.
-/

namespace Uscxml

namespace Data

theorem find?_alter {κ : Type} [LT κ] [DecidableLT κ] [DecidableEq κ] (key key' : κ) (value : Data) (members : List (κ × Data)) :
    ((alter key (fun _ => value) members).find? fun m => m.1 = key').map (·.2) =
      if key = key' then some value else (members.find? fun m => m.1 = key').map (·.2) := by
  induction members with
  | nil => by_cases h : key = key' <;> simp [alter, h]
  | cons m members ih =>
    obtain ⟨k, d⟩ := m
    rw [alter]
    split
    · by_cases h : key = key' <;> simp [h]
    · split
      · rename_i h
        subst h
        by_cases h : key = key' <;> simp [h]
      · rename_i hne
        rw [List.find?_cons, List.find?_cons]
        by_cases hk : k = key'
        · have hkey : key ≠ key' := fun h => hne (h.trans hk.symm)
          simp [hk, hkey]
        · simpa [hk] using ih

def put (key : String) (value : Data) (data : Data) : Data := alterAt (fun _ => value) (.key key) data

theorem at?_put (key key' : String) (value data : Data) :
    (put key value data).at? key' = if key = key' then some value else data.at? key' := by
  obtain ⟨atom, verbatim, members, items⟩ := data
  exact find?_alter key key' value members

/-- A loop that gives every value the next index of the array under a key. -/
def putItems (key : String) : Nat → List Data → Data → Data
  | _, [], data => data
  | index, value :: values, data =>
    let array := alterAt (fun _ => value) (.item index) ((data.at? key).getD Data.empty)
    putItems key (index + 1) values (put key array data)

/-- The array such a loop leaves. -/
def itemsFrom : Nat → List Data → List (Nat × Data)
  | _, [] => []
  | index, value :: values => (index, value) :: itemsFrom (index + 1) values

theorem map_snd_itemsFrom (index : Nat) (values : List Data) : (itemsFrom index values).map (·.2) = values := by
  induction values generalizing index with
  | nil => rfl
  | cons value values ih => rw [itemsFrom, List.map_cons, ih]

theorem array_putItems (key : String) (index : Nat) (values : List Data) (data : Data) (items : List (Nat × Data))
    (hitems : ∀ item ∈ items, item.1 < index) (hdata : ((data.at? key).getD Data.empty) = Data.mk "" false [] items) :
    (((putItems key index values data).at? key).elim [] Data.array) = items ++ itemsFrom index values := by
  induction values generalizing index data items with
  | nil =>
    rw [putItems, itemsFrom, List.append_nil]
    cases h : data.at? key with
    | none =>
      rw [h] at hdata
      cases hdata
      rfl
    | some d =>
      rw [h] at hdata
      obtain rfl : d = Data.mk "" false [] items := hdata
      rfl
  | cons value values ih =>
    rw [putItems, hdata, itemsFrom]
    have harray : alterAt (fun _ => value) (.item index) (Data.mk "" false [] items) =
        Data.mk "" false [] (items ++ [(index, value)]) := by
      rw [alterAt, alter_last _ hitems]
    rw [harray, ih (index + 1) _ (items ++ [(index, value)]), List.append_assoc, List.singleton_append]
    · intro item hitem
      rcases List.mem_append.mp hitem with h | h
      · exact Nat.lt_succ_of_lt (hitems item h)
      · rw [List.mem_singleton.mp h]
        exact Nat.lt_succ_self index
    · rw [at?_put, if_pos rfl]
      rfl

end Data

open Data

/-- The number of an `Event::Type`. -/
def EventType.toNat : EventType → Nat
  | .internal => 1
  | .external => 2
  | .platform => 3

namespace Event

/-- The loop over the parameters: each of them is a compound of its own in the array `params`. -/
def putParams : Nat → List (String × Data) → Data → Data
  | _, [], data => data
  | index, param :: params, data =>
    let array := alterAt (fun _ => Data.mk "" false [param] []) (.item index) ((data.at? "params").getD Data.empty)
    putParams (index + 1) params (put "params" array data)

/-- The members `Event::operator Data` writes. The local variable hides the member of the same name, so that
`data["data"] = data` copies what has been written so far, the new member itself, instead of the payload. -/
def fields (e : Event) : Data :=
  let data := put "data" Data.empty Data.empty
  let data := put "data" data data
  let data := put "raw" (ofText e.raw) data
  let data := put "name" (ofText e.name) data
  let data := put "eventType" (ofText (toString e.eventType.toNat)) data
  let data := put "origin" (ofText e.origin) data
  let data := put "origintype" (ofText e.origintype) data
  let data := put "sendid" (ofText e.sendid) data
  let data := put "hideSendId" (ofText (if e.hideSendId then "1" else "0")) data
  let data := put "invokeid" (ofText e.invokeid) data
  let data := put "uuid" (ofText e.uuid) data
  put "namelist" (Data.mk "" false e.namelist []) data

/-- `Event::operator Data`. -/
def toData (e : Event) : Data := putParams 0 e.params (fields e)

/-- Two events with the same name, origin, origintype, sendid, invokeid, raw text, type, payload, namelist and
parameters. -/
def SameFields (e e' : Event) : Prop :=
  e.name = e'.name ∧ e.origin = e'.origin ∧ e.origintype = e'.origintype ∧ e.sendid = e'.sendid ∧
    e.invokeid = e'.invokeid ∧ e.raw = e'.raw ∧ e.eventType = e'.eventType ∧ e.data = e'.data ∧
    e.namelist = e'.namelist ∧ e.params = e'.params

/-- What `data["data"] = data` leaves. -/
def hiddenData : Data := Data.mk "" false [("data", Data.empty)] []

/-- The array of the parameters from an index on. -/
def paramItems : Nat → List (String × Data) → List (Nat × Data)
  | _, [] => []
  | index, param :: params => (index, Data.mk "" false [param] []) :: paramItems (index + 1) params

theorem filterMap_paramItems (index : Nat) (params : List (String × Data)) :
    ((paramItems index params).filterMap fun item => item.2.compound.head?) = params := by
  induction params generalizing index with
  | nil => rfl
  | cons param params ih =>
    have hhead : (Data.mk "" false [param] []).compound.head? = some param := rfl
    rw [paramItems, List.filterMap_cons]
    simp only [hhead, ih]

theorem at?_putParams {key : String} (hkey : key ≠ "params") (index : Nat) (params : List (String × Data)) (data : Data) :
    (putParams index params data).at? key = data.at? key := by
  induction params generalizing index data with
  | nil => rfl
  | cons param params ih =>
    rw [putParams, ih, at?_put, if_neg hkey.symm]

theorem putParams_eq (index : Nat) (params : List (String × Data)) (data : Data) :
    putParams index params data = putItems "params" index (params.map fun param => Data.mk "" false [param] []) data := by
  induction params generalizing index data with
  | nil => rfl
  | cons param params ih => rw [putParams, List.map_cons, putItems, ih]

theorem paramItems_eq (index : Nat) (params : List (String × Data)) :
    paramItems index params = itemsFrom index (params.map fun param => Data.mk "" false [param] []) := by
  induction params generalizing index with
  | nil => rfl
  | cons param params ih => rw [paramItems, List.map_cons, itemsFrom, ih]

theorem typeOfNat_toNat (t : EventType) : typeOfNat (strToNat (toString t.toNat)) = t := by
  cases t <;> rfl

theorem at?_toData (e : Event) {key : String} (hkey : key ≠ "params") : (toData e).at? key = (fields e).at? key :=
  at?_putParams hkey 0 e.params (fields e)

theorem params_toData (e : Event) : ((toData e).at? "params").elim [] Data.array = paramItems 0 e.params := by
  rw [toData, putParams_eq, paramItems_eq]
  exact array_putItems "params" 0 _ (fields e) [] (List.forall_mem_nil _) (by simp [fields, at?_put]; rfl)

/-- Every field but the payload comes back, and the payload is what the assignment to itself leaves. -/
theorem fromData_toData (e : Event) : fromData (toData e) = { e with data := hiddenData } := by
  have hparams : ((toData e).at? "params").elim [] (fun v => v.array.filterMap fun item => item.2.compound.head?) =
      e.params := by
    have := filterMap_paramItems 0 e.params
    rw [← params_toData] at this
    cases h : (toData e).at? "params" <;> simpa [h] using this
  have hself : put "data" Data.empty Data.empty = hiddenData := rfl
  rw [fromData, hparams]
  simp only [at?_toData e (by decide : "data" ≠ "params"), at?_toData e (by decide : "raw" ≠ "params"),
    at?_toData e (by decide : "name" ≠ "params"), at?_toData e (by decide : "eventType" ≠ "params"),
    at?_toData e (by decide : "origin" ≠ "params"), at?_toData e (by decide : "origintype" ≠ "params"),
    at?_toData e (by decide : "sendid" ≠ "params"), at?_toData e (by decide : "hideSendId" ≠ "params"),
    at?_toData e (by decide : "invokeid" ≠ "params"), at?_toData e (by decide : "uuid" ≠ "params"),
    at?_toData e (by decide : "namelist" ≠ "params")]
  simpa [fields, at?_put, hself, ofText, Data.atom, Data.compound] using typeOfNat_toNat e.eventType

/-- An event survives the way through its data exactly when its payload is what stands there anyway. -/
theorem fromData_toData_same_iff (e : Event) : SameFields (fromData (toData e)) e ↔ e.data = hiddenData := by
  rw [fromData_toData, SameFields]
  constructor
  · rintro ⟨-, -, -, -, -, -, -, hdata, -⟩
    exact hdata.symm
  · intro hdata
    exact ⟨rfl, rfl, rfl, rfl, rfl, rfl, rfl, hdata.symm, rfl, rfl⟩

/-- A payload of plain text is lost. -/
theorem payload_lost :
    ¬ SameFields (fromData (toData { name := "e", data := ofText "payload" })) { name := "e", data := ofText "payload" } := by
  rintro ⟨-, -, -, -, -, -, -, hdata, -⟩
  rw [fromData_toData] at hdata
  simp [hiddenData, ofText] at hdata

end Event

end Uscxml
