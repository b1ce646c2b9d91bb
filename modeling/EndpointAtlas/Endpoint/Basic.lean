import EndpointAtlas.Inventory.Basic
import EndpointAtlas.Json.Printer
import EndpointAtlas.Route.Method

set_option autoImplicit false

namespace EndpointAtlas

/-- How an endpoint was found: by a decorator in the tree, by a call in the tree, or in the text. -/
inductive Tier where
  | decorator | call | text
  deriving DecidableEq, Repr, Inhabited

namespace Tier

def every : List Tier := [decorator, call, text]

def name : Tier → String
  | decorator => "decorator"
  | call => "call"
  | text => "text"

def ofName? (s : String) : Option Tier := every.find? fun t => t.name = s

end Tier

/-- A route registered in a source file. The route is missing where it is not written out. -/
structure Endpoint where
  method : Method
  route : Option String
  filePath : String
  lines : LineRange
  tier : Tier
  handlerNames : List String
  deriving DecidableEq, Repr, Inhabited

namespace Endpoint

abbrev Identity := Method × Option String × Int

def identity (e : Endpoint) : Identity := (e.method, e.route, e.lines.first)

def keyOf (identity : Identity) : String :=
  (Json.list [.text identity.1.text, .optionalText identity.2.1, .int identity.2.2]).render

def key (e : Endpoint) : String := keyOf e.identity

def encode (e : Endpoint) : Json :=
  .object [
    ("method", .text e.method.text),
    ("route", .optionalText e.route),
    ("filePath", .text e.filePath),
    ("startLine", .int e.lines.first),
    ("endLine", .int e.lines.last),
    ("tier", .text e.tier.name),
    ("handlerNames", .list (e.handlerNames.map .text))]

end Endpoint

end EndpointAtlas
