import EndpointAtlas.Json.Entries
import EndpointAtlas.Number.Basic

set_option autoImplicit false

namespace EndpointAtlas

inductive Json where
  | null
  | bool (value : Bool)
  | number (value : Number)
  | text (value : String)
  | list (items : List Json)
  | object (fields : List (String × Json))
  deriving Repr, Inhabited

namespace Json

mutual

def same : Json → Json → Bool
  | .null, .null => true
  | .bool a, .bool b => a == b
  | .number a, .number b => decide (a = b)
  | .text a, .text b => a == b
  | .list a, .list b => sameItems a b
  | .object a, .object b => sameFields a b
  | _, _ => false

def sameItems : List Json → List Json → Bool
  | [], [] => true
  | a :: s, b :: t => same a b && sameItems s t
  | _, _ => false

def sameFields : List (String × Json) → List (String × Json) → Bool
  | [], [] => true
  | (k, a) :: s, (l, b) :: t => k == l && same a b && sameFields s t
  | _, _ => false

end

instance : BEq Json := ⟨same⟩

def int (n : Int) : Json := .number (.ofInt n)

def optionalText : Option String → Json
  | some s => .text s
  | none => .null

def fields? : Json → Option (Entries Json)
  | .object fields => some fields
  | _ => none

def field? (value : Json) (name : String) : Option Json := value.fields?.bind (·.get? name)

def items? : Json → Option (List Json)
  | .list items => some items
  | _ => none

def text? : Json → Option String
  | .text s => some s
  | _ => none

def bool? : Json → Option Bool
  | .bool b => some b
  | _ => none

def number? : Json → Option Number
  | .number x => some x
  | _ => none

/-- Truth of a value where a condition asks for it: null, false, zero and the empty text count as
false. -/
def holds : Json → Bool
  | .null => false
  | .bool b => b
  | .number (.finite q) => q != 0
  | .number .notANumber => false
  | .text s => s != ""
  | _ => true

end Json

end EndpointAtlas
