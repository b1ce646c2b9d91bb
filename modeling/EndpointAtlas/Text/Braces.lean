import EndpointAtlas.Text.Units

set_option autoImplicit false

namespace EndpointAtlas.Text

def closingFrom (offset : Nat) (depth : Int) : List Char → Option Nat
  | [] => none
  | c :: rest =>
    if c = '{' then closingFrom (offset + width c) (depth + 1) rest
    else if c = '}' then
      if depth = 1 then some offset else closingFrom (offset + width c) (depth - 1) rest
    else closingFrom (offset + width c) depth rest

def matchingBrace? (s : List Char) (opening : Nat) : Option Nat :=
  closingFrom (units (takeUnits opening s)) 0 (dropUnits opening s)

end EndpointAtlas.Text
