import EndpointAtlas.Bundle.Dependency
import EndpointAtlas.Bundle.Responder
import EndpointAtlas.Files.Tree
import EndpointAtlas.Text.Lines

set_option autoImplicit false

namespace EndpointAtlas

structure DependencyBlock where
  dependency : Dependency
  lines : List String
  deriving DecidableEq, Repr

inductive DeclarationKind where
  | class_ | function | variable_
  deriving DecidableEq, Repr, Inhabited

def DeclarationKind.name : DeclarationKind → String
  | .class_ => "class"
  | .function => "function"
  | .variable_ => "variable"

structure ImportBlock where
  importedName : String
  source : String
  origin : String
  kind : DeclarationKind
  span : LineRange
  lines : List String
  deriving DecidableEq, Repr

structure Bundle where
  endpoint : Endpoint
  handlerLines : List String
  dependencyBlocks : List DependencyBlock
  importBlocks : List ImportBlock
  responderBlock : Option (List String)
  deriving DecidableEq, Repr

/-- Inventories by the path of their file; a later one takes the place of an earlier. -/
abbrev Snapshot := Entries Inventory

namespace Snapshot

def ofList (inventories : List Inventory) : Snapshot :=
  Entries.ofList (inventories.map fun i => (i.filePath, i))

def find? (snapshot : Snapshot) (path : String) : Option Inventory := Entries.get? path snapshot

end Snapshot

namespace Bundle

def linesOf (tree : FileTree) (path : String) : Option (List String) :=
  match tree.read path with
  | .ok content => some (Text.lineTexts content.asText)
  | .error _ => none

/-- An index into a list of `length` items as a cut takes it: a negative one counts from the end. -/
def cutIndex (length : Nat) (index : Int) : Nat :=
  if index < 0 then (index + length).toNat else index.toNat

def cut (lines : List String) (start stop : Int) : List String :=
  let first := cutIndex lines.length start
  (lines.drop first).take (cutIndex lines.length stop - first)

def spanIn (tree : FileTree) (path : String) (span : LineRange) : Option (List String) :=
  match linesOf tree path with
  | some lines =>
    if span.first < 1 ∨ lines.length < span.first ∨ span.last < span.first then none
    else some (cut lines (span.first - 1) span.last)
  | none => none

/-- The dependencies that do not lie in the handler's lines, each span once. -/
def outside (e : Endpoint) : List LineRange → List Dependency → List Dependency
  | _, [] => []
  | seen, d :: rest =>
    if d.filePath = e.filePath ∧ e.lines.covers d.lines then outside e seen rest
    else if seen.contains d.lines then outside e seen rest
    else d :: outside e (d.lines :: seen) rest

def blocksFor (tree : FileTree) (e : Endpoint) (dependencies : List Dependency) :
    List DependencyBlock :=
  (outside e [] dependencies).filterMap fun d => (spanIn tree d.filePath d.lines).map (⟨d, ·⟩)

/-- The declaration of a name in a file: a class, else a function, else a variable. -/
def declaration? (inventory : Inventory) (name : String) : Option (DeclarationKind × Declaration) :=
  let first (kind : DeclarationKind) (declarations : List Declaration) :=
    (declarations.find? (·.name = name)).map fun d => (kind, d)
  (first .class_ inventory.classes).or
    ((first .function inventory.functions).or (first .variable_ inventory.vars))

def importBlock? (tree : FileTree) (snapshot : Snapshot) (i : Import) : Option ImportBlock := do
  let path ← if i.importedName = wholeModule then none else i.origin.text?
  let inventory ← snapshot.find? path
  let (kind, declared) ← declaration? inventory i.importedName
  let lines ← spanIn tree path declared.lines
  pure ⟨i.importedName, i.source, path, kind, declared.lines, lines⟩

def of (tree : FileTree) (snapshot : Snapshot) (e : Endpoint) : Bundle :=
  let file := (linesOf tree e.filePath).getD []
  let handler := cut file (e.lines.first - 1) e.lines.last
  let responder := Responder.block? file
  match snapshot.find? e.filePath with
  | none => ⟨e, handler, [], [], responder⟩
  | some inventory =>
    let dependencies := Dependency.all inventory e
    let imports := Import.relevant inventory e dependencies
    ⟨e, handler, blocksFor tree e dependencies,
      imports.filterMap (importBlock? tree snapshot), responder⟩

/-- The blocks around the handler: dependencies, imports, and the registration that catches the
rest. -/
def blocks (bundle : Bundle) : List (List String) :=
  bundle.dependencyBlocks.map (·.lines) ++ bundle.importBlocks.map (·.lines)
    ++ bundle.responderBlock.toList

end Bundle

end EndpointAtlas
