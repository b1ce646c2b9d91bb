import EndpointAtlas.Endpoint.Basic
import EndpointAtlas.Json.Reader
import EndpointAtlas.OpenApi.Document

set_option autoImplicit false

namespace EndpointAtlas.Fragment

def operationKeys : List String :=
  ["get", "put", "post", "delete", "options", "head", "patch", "trace"]

def ownFields? (value : Json) : Option (Entries Json) :=
  value.fields?.map (Entries.erase "__proto__")

def operationsOf (item : Entries Json) : PathItem :=
  item.filterMap fun (key, value) =>
    if operationKeys.contains key then (ownFields? value).map fun fields => (key, .object fields)
    else none

/-- The fragment that a value spells: an object whose paths are objects. -/
def ofValue? (value : Json) : Option Fragment := do
  let paths ← (← value.field? "paths").fields?
  let items ← paths.mapM fun (path, item) => item.fields?.map fun fields => (path, fields)
  pure ⟨(Entries.erase "__proto__" items).map fun (path, fields) => (path, operationsOf fields)⟩

def outermost? (text : List Char) : Option (List Char) :=
  let opened := text.dropWhile (· ≠ '{')
  let closed := (opened.reverse.dropWhile (· ≠ '}')).reverse
  if opened.isEmpty ∨ closed.isEmpty then none else some closed

/-- What stands for a reply of no use: an empty path item, or nothing without a route. -/
def blank (route : Option String) : Fragment :=
  match route with
  | some route => ⟨[(route, [])]⟩
  | none => empty

def ofReply (text : String) (route : Option String) : Fragment :=
  (((outermost? text.toList).bind Json.read?).bind ofValue?).getD (blank route)

def pathParameter (name : String) : Json :=
  .object [("name", .text name), ("in", .text "path"), ("required", .bool true),
    ("schema", .object [("type", .text "string")])]

def plainOperation (method : Method) (route : String) : Json :=
  let parameters := Route.parameters route
  .object ([("summary", .text (method.text ++ " " ++ route)),
      ("responses", .object [("200", .object [("description", .text "Successful response")])])]
    ++ (if parameters.isEmpty then [] else [("parameters", .list (parameters.map pathParameter))]))

/-- The fragment made from an endpoint alone; none of its paths without a route. -/
def skeleton (method : Method) (route : Option String) : Fragment :=
  match route.map Route.normalize with
  | some route => ⟨[(route, [(method.operationKey, plainOperation method route)])]⟩
  | none => empty

end EndpointAtlas.Fragment
