import EndpointAtlas.Text.LetterCase
import EndpointAtlas.Text.Units

set_option autoImplicit false

namespace EndpointAtlas.Route

def registrarEndings : List String :=
  ["router", "routes", "route", "app", "server", "controller", "api"]

def registrarBeginnings : List String := ["app", "api"]

def lastPart (name : List Char) : List Char :=
  (name.reverse.takeWhile (· ≠ '.')).reverse

def isRegistrar (name : List Char) : Bool :=
  let low := Text.lower (Text.trim (lastPart name))
  registrarEndings.any (fun ending => ending.toList.isSuffixOf low) ||
    registrarBeginnings.any (fun beginning => beginning.toList.isPrefixOf low)

end EndpointAtlas.Route
