import CallAtlas.Text.Character

/-! JSON values. Fields keep their order and may repeat, as in a text. -/
namespace CallAtlas

inductive Json where
  | null
  | bool (value : Bool)
  | natural (value : Nat)
  /-- A number that is not natural, as it is written. -/
  | number (lexeme : String)
  | string (value : String)
  | array (items : List Json)
  | object (fields : List (String × Json))
  deriving Repr, Inhabited

namespace Json

/-- A whole number. -/
def integer (value : Int) : Json :=
  match value with
  | .ofNat value => natural value
  | .negSucc value => number ("-" ++ toString (value + 1))

def strings (values : List String) : Json := array (values.map string)

def naturals (values : List Nat) : Json := array (values.map natural)

/-- The last field with a given name. -/
def field? (value : Json) (name : String) : Option Json :=
  match value with
  | object fields => (fields.reverse.find? fun field => field.1 == name).map (·.2)
  | _ => none

mutual

/-- Whether two values are the same, with a companion for items and one for fields. -/
def same : Json → Json → Bool
  | null, null => true
  | bool first, bool second => first == second
  | natural first, natural second => first == second
  | number first, number second => first == second
  | string first, string second => first == second
  | array first, array second => sameItems first second
  | object first, object second => sameFields first second
  | _, _ => false

def sameItems : List Json → List Json → Bool
  | [], [] => true
  | first :: others, second :: more => same first second && sameItems others more
  | _, _ => false

def sameFields : List (String × Json) → List (String × Json) → Bool
  | [], [] => true
  | first :: others, second :: more =>
    first.1 == second.1 && same first.2 second.2 && sameFields others more
  | _, _ => false

end

mutual

theorem same_iff (first second : Json) : same first second = true ↔ first = second := by
  cases first <;> cases second <;> simp [same, sameItems_iff, sameFields_iff]

theorem sameItems_iff (first second : List Json) : sameItems first second = true ↔ first = second := by
  cases first <;> cases second <;> simp [sameItems, same_iff, sameItems_iff]

theorem sameFields_iff (first second : List (String × Json)) : sameFields first second = true ↔ first = second := by
  cases first <;> cases second <;> simp [sameFields, same_iff, sameFields_iff, Prod.ext_iff]

end

instance : DecidableEq Json := fun first second => decidable_of_iff _ (same_iff first second)

end Json
end CallAtlas
