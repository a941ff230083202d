import CallAtlas.Json.Value
import CallAtlas.Text.Bytes

/-! Records and plain values in JSON. A record is an object whose fields are found by name, or an array whose
items stand for the fields in order. -/
namespace CallAtlas.Json

/-- The values of the named fields, in the order of the names. Other fields are passed over; a field that
repeats and an item too many are refused. -/
def record? (names : List String) : Json → Option (List (Option Json))
  | object fields =>
    if names.any fun name => 1 < fields.countP fun field => field.1 == name then none
    else some (names.map fun name => (fields.find? fun field => field.1 == name).map (·.2))
  | array items =>
    if items.length ≤ names.length then
      some (items.map some ++ List.replicate (names.length - items.length) none)
    else none
  | _ => none

def string? : Json → Option String
  | string value => some value
  | _ => none

/-- A natural number of 64 bits. -/
def natural? : Json → Option Nat
  | natural value => if value < Text.wordLimit then some value else none
  | _ => none

def bool? : Json → Option Bool
  | bool value => some value
  | _ => none

def list? {α : Type} (item? : Json → Option α) : Json → Option (List α)
  | array items => items.mapM item?
  | _ => none

/-- A name out of a fixed set, as a string or as the only field of an object. -/
def choice? {α : Type} (ofTag? : String → Option α) : Json → Option α
  | string tag => ofTag? tag
  | object [(tag, null)] => ofTag? tag
  | _ => none

def required {α : Type} (read? : Json → Option α) (field : Option Json) : Option α := field.bind read?

/-- A field that may be missing or null. -/
def optional {α : Type} (read? : Json → Option α) : Option Json → Option (Option α)
  | none | some null => some none
  | some value => (read? value).map some

def listOrEmpty {α : Type} (item? : Json → Option α) : Option Json → Option (List α)
  | none => some []
  | some value => list? item? value

/-- A field of an object that is left out when there is nothing to say. -/
def fieldOf {α : Type} (name : String) (write : α → Json) : Option α → List (String × Json)
  | none => []
  | some value => [(name, write value)]

/-- A field of an object that is left out when the list is empty. -/
def fieldOfList {α : Type} (name : String) (write : α → Json) : List α → List (String × Json)
  | [] => []
  | values => [(name, array (values.map write))]

end CallAtlas.Json
