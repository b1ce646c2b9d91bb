import EndpointAtlas.Bundle.Build
import EndpointAtlas.Files.Sources
import EndpointAtlas.Inventory.Decoded
import EndpointAtlas.Json.Reader

/-!
Inventories kept in files of a directory that is removed in the end. An entry that cannot be read
back is passed over, with a warning unless its file is missing.
-/

set_option autoImplicit false

namespace EndpointAtlas

/-- The name of the file that keeps the inventory of a source file: its path with a mark for every
slash, and another extension. -/
def cacheFileName (path : String) : String :=
  let flat := String.ofList (path.toList.flatMap fun c =>
    if c = '/' ∨ c = '\\' then "_q_".toList else [c])
  let stem := flat.toList.take (flat.toList.length - (Path.extension flat).length)
  String.ofList stem ++ ".json"

structure Cache where
  directory : String
  deriving DecidableEq, Repr, Inhabited

namespace Cache

def of (root name : String) : Cache := ⟨Path.join [root, name]⟩

def pathFor (cache : Cache) (path : String) : String :=
  Path.join [cache.directory, cacheFileName path]

def prepare (cache : Cache) (tree : FileTree) : Except FileError FileTree :=
  tree.makeDirectory cache.directory

def keep (cache : Cache) (tree : FileTree) (path : String) (value : Json) :
    Except FileError FileTree := tree.write (cache.pathFor path) (.text value.indented)

def write (cache : Cache) (tree : FileTree) (inventory : Inventory) : Except FileError FileTree :=
  cache.keep tree inventory.filePath inventory.encode

def dispose (cache : Cache) (tree : FileTree) : FileTree := tree.remove cache.directory

inductive Entry where
  | missing
  | malformed (path : String)
  | invalid (path : String)
  | found (inventory : Inventory)
  deriving DecidableEq, Repr

def Entry.inventory? : Entry → Option Inventory
  | .found inventory => some inventory
  | _ => none

def Entry.warnings : Entry → List String
  | .malformed path => ["Ignoring malformed inventory cache entry: " ++ path]
  | .invalid path => ["Ignoring invalid inventory cache entry: " ++ path]
  | _ => []

def readEntry (tree : FileTree) (path : String) : Entry :=
  match tree.read path with
  | .error _ => .missing
  | .ok content =>
    match Json.parse? content.asText with
    | none => .malformed path
    | some value =>
      match Inventory.decode? isLineNumber value with
      | some inventory => .found inventory
      | none => .invalid path

def read (cache : Cache) (tree : FileTree) (path : String) : Entry :=
  readEntry tree (cache.pathFor path)

def entries (cache : Cache) (tree : FileTree) : List Entry :=
  match tree.namesIn cache.directory with
  | .error _ => []
  | .ok names =>
    ((Text.sorted names).filter fun name => Text.endsWith name ".json").map fun name =>
      readEntry tree (Path.join [cache.directory, name])

def snapshot (cache : Cache) (tree : FileTree) : Snapshot × List String :=
  let found := cache.entries tree
  (Snapshot.ofList (found.filterMap (·.inventory?)), found.flatMap (·.warnings))

end Cache

end EndpointAtlas
