import EndpointAtlas.Json.Value
import EndpointAtlas.Number.Decimal

set_option autoImplicit false

namespace EndpointAtlas

inductive Setting where
  | null
  | flag (value : Bool)
  | number (value : Number)
  | greatInteger (value : Int)
  | moment (spelling : String)
  | text (value : String)
  | list (items : List Setting)
  | table (fields : List (String × Setting))
  deriving Repr, Inhabited

namespace Setting

def kind : Setting → String
  | .null => "null"
  | .flag _ => "boolean"
  | .number .notANumber => "nan"
  | .number _ => "number"
  | .greatInteger _ => "bigint"
  | .moment _ => "date"
  | .text _ => "string"
  | .list _ => "array"
  | .table _ => "object"

def text? : Setting → Option String
  | .text s => some s
  | _ => none

def table? : Setting → Option (Entries Setting)
  | .table fields => some fields
  | _ => none

def asName : Setting → String
  | .text s => s
  | .flag b => if b then "true" else "false"
  | .number x => x.text
  | .greatInteger n => toString n
  | .moment s => s
  | .null | .list _ | .table _ => ""

/-- Are two values one and the same simple value? No list or table is the same as another, and
neither is what is not a number. -/
def sameSimple : Setting → Setting → Bool
  | .null, .null => true
  | .flag a, .flag b => a == b
  | .number a, .number b => decide (a = b ∧ a ≠ .notANumber)
  | .greatInteger a, .greatInteger b => a == b
  | .text a, .text b => a == b
  | _, _ => false

mutual

def ofJson : Json → Setting
  | .null => .null
  | .bool b => .flag b
  | .number x => .number x
  | .text s => .text s
  | .list items => .list (ofItems items)
  | .object fields => .table (ofFields fields)

def ofItems : List Json → List Setting
  | [] => []
  | item :: rest => ofJson item :: ofItems rest

def ofFields : List (String × Json) → List (String × Setting)
  | [] => []
  | (name, value) :: rest => (name, ofJson value) :: ofFields rest

end

theorem ofFields_eq_map (fields : List (String × Json)) :
    ofFields fields = fields.map fun (name, value) => (name, ofJson value) := by
  induction fields with
  | nil => rfl
  | cons field rest ih => obtain ⟨name, value⟩ := field; simp [ofFields, ih]

theorem ofItems_eq_map (items : List Json) : ofItems items = items.map ofJson := by
  induction items with
  | nil => rfl
  | cons item rest ih => simp [ofItems, ih]

end Setting

end EndpointAtlas
