import EndpointAtlas.Text.Blank

set_option autoImplicit false

namespace EndpointAtlas.Route

def rooted (path : List Char) : List Char :=
  if path.head? = some '/' then path else '/' :: path

def withoutEndSlashes (path : List Char) : List Char :=
  (path.reverse.dropWhile (· == '/')).reverse

def singleSlashes : List Char → List Char
  | [] => []
  | c :: rest =>
    if c = '/' ∧ rest.head? = some '/' then singleSlashes rest else c :: singleSlashes rest

def joined (base path : List Char) : List Char :=
  let base := if base.isEmpty then ['/'] else base
  rooted (singleSlashes (withoutEndSlashes (rooted base) ++ rooted path))

def join (base path : Option String) : String :=
  String.ofList (joined ((base.getD "/").toList) ((path.getD "/").toList))

end EndpointAtlas.Route
