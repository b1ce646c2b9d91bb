import EndpointAtlas.Text.Blank

set_option autoImplicit false

namespace EndpointAtlas.Route

def startsName (c : Char) : Bool := Text.isAsciiLetter c || c == '_'

def continuesName (c : Char) : Bool := Text.isWordChar c || c == '-'

/-- Does a parameter name start here? -/
def nameAhead (s : List Char) : Bool := s.head?.any startsName

def bracedFrom : Bool → List Char → List Char
  | inName, [] => if inName then ['}'] else []
  | inName, c :: rest =>
    if inName && continuesName c then c :: bracedFrom true rest
    else
      let opened := c == ':' && nameAhead rest
      (if inName then ['}'] else []) ++ (if opened then '{' else c) :: bracedFrom opened rest

def braced (route : List Char) : List Char := bracedFrom false route

def normalize (route : String) : String := String.ofList (braced route.toList)

def namesFrom : Option (List Char) → List Char → List (List Char)
  | _, [] => []
  | none, c :: rest => namesFrom (if c = '{' then some [] else none) rest
  | some run, c :: rest =>
    if c = '/' then namesFrom none rest
    else if c = '}' then
      if run.isEmpty then namesFrom none rest else run.reverse :: namesFrom none rest
    else namesFrom (some (c :: run)) rest

def parameters (route : String) : List String :=
  (namesFrom none route.toList).map String.ofList

end EndpointAtlas.Route
