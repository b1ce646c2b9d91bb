import EndpointAtlas.OpenApi.Document

/-!
The last pass over a merged document: wildcard paths go, paths with colons take their spelling with
braces, and the operations of the conventional `/{name}` and `/{name}/{id}` resources are put right.
-/

set_option autoImplicit false

namespace EndpointAtlas.Document

/-- Paths that stand for all paths. -/
def wildcards : List String := ["/*", "*"]

def withoutWildcards (paths : Paths) : Paths :=
  wildcards.foldl (fun acc path => acc.erase path) paths

def rekey (paths : Paths) (path : String) : Paths :=
  let route := Route.normalize path
  if route = path then paths
  else
    let item := (paths.get? path).getD []
    let rest := paths.erase path
    rest.put route (((rest.get? route).getD []).putAll item)

def rekeyAll (paths : Paths) : Paths := paths.keys.foldl rekey paths

/-- An operation that cannot hold responses, because it is not an object. -/
structure BareOperation where
  kind : String
  shown : String
  deriving DecidableEq, Repr

def BareOperation.message (e : BareOperation) : String :=
  "Cannot create property 'responses' on " ++ e.kind ++ " '" ++ e.shown ++ "'"

def objectField? (fields : Entries Json) (name : String) : Option (Entries Json) :=
  (fields.get? name).bind (·.fields?)

def schemaOf? (responses : Entries Json) (code : String) : Option Json := do
  let response ← objectField? responses code
  let content ← objectField? response "content"
  let body ← objectField? content "application/json"
  match body.get? "schema" with
  | some .null => none
  | found => found

def createdSchema : Json :=
  .object [
    ("type", .text "object"),
    ("properties", .object [("id", .object [("type", .text "string")])]),
    ("additionalProperties", .bool true)]

def createdResponses (schema : Json) : Json :=
  .object [
    ("201", .object [
      ("description", .text "Resource created successfully."),
      ("content", .object [("application/json", .object [("schema", schema)])])]),
    ("404", .object [("description", .text "Collection not found.")])]

/-- An operation that creates a resource: its body is optional, and its responses are the
conventional ones. -/
def repairedCreate (fields : Entries Json) : Entries Json :=
  let withBody := match objectField? fields "requestBody" with
    | some body => fields.put "requestBody" (.object (Entries.put "required" (.bool false) body))
    | none => fields
  let responses := (objectField? withBody "responses").getD []
  let schema := ((schemaOf? responses "201").or (schemaOf? responses "200")).getD createdSchema
  withBody.put "responses" (createdResponses schema)

def repairCreate (operation : Json) : Except BareOperation Json :=
  match operation with
  | .object fields => .ok (.object (repairedCreate fields))
  | .text s => if s = "" then .ok operation else .error ⟨"string", s⟩
  | .number x => if operation.holds then .error ⟨"number", x.text⟩ else .ok operation
  | .bool b => if b then .error ⟨"boolean", "true"⟩ else .ok operation
  | _ => .ok operation

def repairRead (operation : Json) : Json :=
  match operation with
  | .object fields =>
    match objectField? fields "responses" with
    | some responses =>
      .object (Entries.put "responses" (.object (Entries.erase "400" responses)) fields)
    | none => operation
  | _ => operation

def oneOrMany : Json :=
  .object [("oneOf", .list [
    .object [("type", .text "string")],
    .object [("type", .text "array"), ("items", .object [("type", .text "string")])]])]

def repairDependent : List Json → List Json
  | [] => []
  | parameter :: rest =>
    match parameter with
    | .object fields =>
      if (Entries.get? "name" fields).bind Json.text? = some "_dependent" then
        .object (Entries.put "schema" oneOrMany fields) :: rest
      else .object fields :: repairDependent rest
    | other => other :: repairDependent rest

def repairRemove (operation : Json) : Json :=
  match operation with
  | .object fields =>
    match Entries.get? "parameters" fields with
    | some (.list parameters) =>
      .object (Entries.put "parameters" (.list (repairDependent parameters)) fields)
    | _ => operation
  | _ => operation

def changeAt (paths : Paths) (path method : String) (change : Json → Json) : Paths :=
  match paths.get? path with
  | some item =>
    match Entries.get? method item with
    | some operation => paths.put path (Entries.put method (change operation) item)
    | none => paths
  | none => paths

/-- The last pass over a merged document. It reads what the paths and operations hold themselves,
not what all objects have come to share. -/
def finish (document : Document) : Except BareOperation Document := do
  let paths := rekeyAll (withoutWildcards document.paths)
  let paths ← match operation? paths "/{name}" "post" with
    | some operation => do
      let repaired ← repairCreate operation
      pure (changeAt paths "/{name}" "post" fun _ => repaired)
    | none => pure paths
  let paths := changeAt paths "/{name}" "get" repairRead
  let paths := changeAt paths "/{name}/{id}" "delete" repairRemove
  pure { document with paths := paths }

end EndpointAtlas.Document
