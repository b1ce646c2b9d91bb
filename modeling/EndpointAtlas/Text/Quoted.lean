import EndpointAtlas.Text.Blank
import EndpointAtlas.Text.Units

set_option autoImplicit false

namespace EndpointAtlas.Text

def isQuote (c : Char) : Bool := c == '"' || c == '\'' || c == '\x60'

def unquote (s : List Char) : List Char :=
  match trim s with
  | first :: middle =>
    if isQuote first && !middle.isEmpty && middle.getLast? == some first then middle.dropLast
    else first :: middle
  | [] => []

def interpolates (s : List Char) : Bool := contains ['$', '{'] s

def templateText? (s : List Char) : Option (List Char) :=
  if interpolates s then none else some (unquote s)

end EndpointAtlas.Text
