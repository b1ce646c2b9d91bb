import EndpointAtlas.Inventory.Cache
import EndpointAtlas.Inventory.Extract

/-!
The pass that takes the inventory of every source file of a tree into the cache. A file that fails
is passed over with a warning; a file beyond the size bound is skipped without one.
-/

set_option autoImplicit false

namespace EndpointAtlas

inductive IndexFault where
  | file (cause : FileError)
  | parse (cause : ParseFailure)
  deriving DecidableEq, Repr

def IndexFault.message : IndexFault → String
  | .file cause => cause.message
  | .parse cause => cause.message

namespace Inventory

def ofFile (tree : FileTree) (options : ExtractOptions) (directory path : String) :
    ExceptT IndexFault (StateM Memory) Inventory := fun memory =>
  match tree.read path with
  | .error cause => (.error (.file cause), memory)
  | .ok content =>
    match (ofSource tree options directory path content.asText).run memory with
    | (.ok found, memory) => (.ok found, memory)
    | (.error cause, memory) => (.error (.parse cause), memory)

end Inventory

/-- A pass over the source files of a root directory: where it looks, its cache, what it remembers
of files, and the files that it saw last. -/
structure Indexer where
  root : String
  ignored : List String
  maxFileSize : Nat
  cache : Cache
  memory : Memory
  files : List String
  deriving Repr, Inhabited

structure IndexReport where
  files : List String
  indexed : List String
  skipped : List String
  failed : List (String × IndexFault)
  deriving DecidableEq, Repr, Inhabited

namespace IndexReport

def warning (failure : String × IndexFault) : String :=
  "Skipping inventory for " ++ failure.1 ++ ": " ++ failure.2.message

def warnings (report : IndexReport) : List String := report.failed.map warning

end IndexReport

namespace Indexer

def of (tree : FileTree) (root : String) (ignored : List String) (cacheDirName : String)
    (maxFileSize : Nat) : Indexer :=
  let root := tree.resolve root
  ⟨root, ignored ++ [cacheDirName], maxFileSize, Cache.of root cacheDirName, .empty, []⟩

def isTooLarge (indexer : Indexer) (tree : FileTree) (path : String) : Except FileError Bool :=
  if indexer.maxFileSize = 0 then .ok false
  else (tree.sizeOf path).map fun size => decide (indexer.maxFileSize < size)

def options (indexer : Indexer) : ExtractOptions := ⟨some indexer.root, []⟩

def indexFile (indexer : Indexer) (tree : FileTree) (path : String) :
    Except IndexFault Bool × Indexer × FileTree :=
  match indexer.isTooLarge tree path with
  | .error cause => (.error (.file cause), indexer, tree)
  | .ok true => (.ok false, indexer, tree)
  | .ok false =>
    let (found, memory) :=
      (Inventory.ofFile tree indexer.options (Path.parent path) path).run indexer.memory
    let indexer := { indexer with memory := memory }
    match found with
    | .error fault => (.error fault, indexer, tree)
    | .ok inventory =>
      match indexer.cache.write tree inventory with
      | .error cause => (.error (.file cause), indexer, tree)
      | .ok tree => (.ok true, indexer, tree)

def indexFiles (indexer : Indexer) (tree : FileTree) :
    List String → IndexReport × Indexer × FileTree
  | [] => (⟨[], [], [], []⟩, indexer, tree)
  | path :: rest =>
    let (result, indexer, tree) := indexer.indexFile tree path
    let (report, indexer, tree) := indexFiles indexer tree rest
    let report := match result with
      | .ok true => { report with indexed := path :: report.indexed }
      | .ok false => { report with skipped := path :: report.skipped }
      | .error fault => { report with failed := (path, fault) :: report.failed }
    ({ report with files := path :: report.files }, indexer, tree)

def indexDirectory (indexer : Indexer) (tree : FileTree) :
    Except FileError IndexReport × Indexer × FileTree :=
  match indexer.cache.prepare tree with
  | .error cause => (.error cause, indexer, tree)
  | .ok tree =>
    match tree.sources indexer.root indexer.ignored with
    | .error cause => (.error cause, indexer, tree)
    | .ok files =>
      let (report, indexer, tree) := { indexer with files := files }.indexFiles tree files
      (.ok report, indexer, tree)

def snapshot (indexer : Indexer) (tree : FileTree) : Snapshot × List String :=
  indexer.cache.snapshot tree

def close (indexer : Indexer) (tree : FileTree) : Indexer × FileTree :=
  ({ indexer with memory := .empty }, indexer.cache.dispose tree)

end Indexer

end EndpointAtlas
