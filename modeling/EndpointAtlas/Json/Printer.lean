import EndpointAtlas.Json.Value
import EndpointAtlas.Number.Decimal

set_option autoImplicit false

namespace EndpointAtlas.Json

def hex4 (n : Nat) : List Char :=
  let digits := Nat.toDigits 16 n
  List.replicate (4 - digits.length) '0' ++ digits

def escape (c : Char) : List Char :=
  if c = '"' then ['\\', '"']
  else if c = '\\' then ['\\', '\\']
  else if c = '\n' then ['\\', 'n']
  else if c = '\r' then ['\\', 'r']
  else if c = '\t' then ['\\', 't']
  else if c.toNat = 8 then ['\\', 'b']
  else if c.toNat = 12 then ['\\', 'f']
  else if c.toNat < 32 then '\\' :: 'u' :: hex4 c.toNat
  else [c]

def quoted (s : String) : List Char := '"' :: s.toList.flatMap escape ++ ['"']

/-- A number; one that is not finite is written as null. -/
def numeral : Number → List Char
  | .finite q => (Number.finite q).text.toList
  | _ => "null".toList

def separated (separator : List Char) : List (List Char) → List Char
  | [] => []
  | [piece] => piece
  | piece :: rest => piece ++ separator ++ separated separator rest

mutual

def compact : Json → List Char
  | .null => "null".toList
  | .bool b => if b then "true".toList else "false".toList
  | .number x => numeral x
  | .text s => quoted s
  | .list items => '[' :: separated [','] (compactItems items) ++ [']']
  | .object fields => '{' :: separated [','] (compactFields fields) ++ ['}']

def compactItems : List Json → List (List Char)
  | [] => []
  | item :: rest => compact item :: compactItems rest

def compactFields : List (String × Json) → List (List Char)
  | [] => []
  | (name, value) :: rest => (quoted name ++ ':' :: compact value) :: compactFields rest

end

def lineStart (level : Nat) : List Char := '\n' :: List.replicate (2 * level) ' '

mutual

def indentedAt (level : Nat) : Json → List Char
  | .null => "null".toList
  | .bool b => if b then "true".toList else "false".toList
  | .number x => numeral x
  | .text s => quoted s
  | .list [] => ['[', ']']
  | .list (item :: rest) =>
    '[' :: separated [','] (indentedItems (level + 1) (item :: rest)) ++ lineStart level ++ [']']
  | .object [] => ['{', '}']
  | .object (field :: rest) =>
    '{' :: separated [','] (indentedFields (level + 1) (field :: rest)) ++ lineStart level ++ ['}']

def indentedItems (level : Nat) : List Json → List (List Char)
  | [] => []
  | item :: rest => (lineStart level ++ indentedAt level item) :: indentedItems level rest

def indentedFields (level : Nat) : List (String × Json) → List (List Char)
  | [] => []
  | (name, value) :: rest =>
    (lineStart level ++ quoted name ++ ':' :: ' ' :: indentedAt level value) ::
      indentedFields level rest

end

def render (value : Json) : String := String.ofList value.compact

def indented (value : Json) : String := String.ofList (indentedAt 0 value)

end EndpointAtlas.Json
