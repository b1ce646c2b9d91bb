import EndpointAtlas.Json.Printer
import EndpointAtlas.OpenApi.Timestamp
import EndpointAtlas.Route.Template

/-!
OpenAPI documents, and the fragments that are merged into them. Of two operations for one path and
method the one merged last stays.
-/

set_option autoImplicit false

namespace EndpointAtlas

abbrev PathItem := Entries Json

abbrev Paths := Entries PathItem

structure Fragment where
  paths : Paths
  deriving Repr, Inhabited

structure DocumentHead where
  title : String
  version : String
  description : String
  host : String
  commit : Option String
  repositoryUrl : Option String
  deriving DecidableEq, Repr, Inhabited

structure Document where
  head : DocumentHead
  generatedAt : String
  paths : Paths
  deriving Repr, Inhabited

namespace Fragment

def empty : Fragment := ⟨[]⟩

def encode (fragment : Fragment) : Json :=
  .object [("paths", .object (fragment.paths.map fun (path, item) => (path, .object item)))]

end Fragment

namespace Document

def create? (head : DocumentHead) (generatedAt : Int) : Option Document :=
  (Timestamp.iso? generatedAt).map fun moment => ⟨head, moment, []⟩

def operation? (paths : Paths) (path method : String) : Option Json :=
  (paths.get? path).bind fun item => Entries.get? method item

def encode (document : Document) : Json :=
  let head := document.head
  .object [
    ("openapi", .text "3.0.0"),
    ("info", .object [
      ("title", .text head.title),
      ("version", .text head.version),
      ("description", .text head.description),
      ("x-generated-at", .text document.generatedAt),
      ("x-commit-reference", .optionalText head.commit),
      ("x-repository-url", .optionalText head.repositoryUrl)]),
    ("servers", .list [.object [("url", .text head.host)]]),
    ("paths", .object (document.paths.map fun (path, item) => (path, .object item)))]

end Document

/-- A document while fragments are merged into it, and what all objects have come to share by
that. -/
structure Draft where
  document : Document
  shared : Paths
  deriving Repr, Inhabited

namespace Draft

/-- The name under which an object finds what all objects share. -/
def sharedName : String := "__proto__"

/-- The names under which an object finds something that it does not hold itself: what all objects
share, and functions. -/
def inheritedNames : List String :=
  [sharedName, "constructor", "hasOwnProperty", "isPrototypeOf", "propertyIsEnumerable", "toString",
    "toLocaleString", "valueOf", "__defineGetter__", "__defineSetter__", "__lookupGetter__",
    "__lookupSetter__"]

def of (document : Document) : Draft := ⟨document, []⟩

/-- An object takes no value under the name of what is shared, unless it has one there. -/
def assign (item : PathItem) (name : String) (operation : Json) : PathItem :=
  if name = sharedName ∧ (item.get? name).isNone then item else item.put name operation

def assignAll (item added : PathItem) : PathItem :=
  added.foldl (fun item entry => assign item entry.1 entry.2) item

/-- What the operation that all objects share under a name holds. -/
def lent? (draft : Draft) (name : String) : Option PathItem :=
  (Document.operation? draft.shared sharedName name).bind Json.fields?

/-- What takes the operations of a path: the item that is there, else an operation that is shared
under its name, else a new item. It is none of the document's under a name that all objects have. -/
def target? (draft : Draft) (route : String) : Option PathItem :=
  (draft.document.paths.get? route).or
    ((draft.lent? route).or (if inheritedNames.contains route then none else some []))

def mergePath (draft : Draft) (path : String) (item : PathItem) : Draft :=
  let route := Route.normalize path
  match draft.target? route with
  | some target =>
    let paths := draft.document.paths.put route (assignAll target item)
    { draft with document := { draft.document with paths := paths } }
  | none =>
    { draft with
        shared := draft.shared.put route (assignAll ((draft.shared.get? route).getD []) item) }

def merge (draft : Draft) (fragment : Fragment) : Draft :=
  fragment.paths.foldl (fun draft entry => draft.mergePath entry.1 entry.2) draft

end Draft

def Document.mergeAll (document : Document) (fragments : List Fragment) : Document :=
  (fragments.foldl Draft.merge (.of document)).document

end EndpointAtlas
