import EndpointAtlas.Endpoint.Basic
import EndpointAtlas.Path

set_option autoImplicit false

namespace EndpointAtlas

def padRight (width : Nat) (s : String) : String :=
  s ++ String.ofList (List.replicate (width - s.length) ' ')

def Endpoint.line (current root : String) (e : Endpoint) : String :=
  padRight 7 e.method.text ++ " " ++ e.route.getD "(unknown route)" ++ "  "
    ++ Path.relative current root e.filePath ++ ":" ++ toString e.lines.first ++ "-"
    ++ toString e.lines.last ++ " [" ++ e.tier.name ++ "]"

def progressLine (completed elapsed : Int) : String :=
  "Completed generating endpoint information for " ++ toString completed ++ " endpoints in "
    ++ toString (elapsed / 1000) ++ " seconds"

end EndpointAtlas
