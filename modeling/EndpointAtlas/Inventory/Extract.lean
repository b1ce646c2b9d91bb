import EndpointAtlas.Inventory.Findings
import EndpointAtlas.Inventory.Resolver

/-!
The inventory of a source file: what its syntax tree shows, with the modules of its imports looked
up. The structure query of a dialect can be replaced by one that does not compile; a typed file is
then read as a plain script.
-/

set_option autoImplicit false

namespace EndpointAtlas

def inventoryQuery (dialect : Dialect) : String :=
  let typed (line : String) : List String := if dialect.isTyped then [line] else []
  String.intercalate "\n" <|
    ["(class_declaration name: (_) @class.name) @class"]
    ++ typed "(abstract_class_declaration name: (_) @class.name) @class"
    ++ ["(function_declaration name: (identifier) @function.name) @function",
      "(generator_function_declaration name: (identifier) @function.name) @function",
      "(variable_declarator name: (_) @declarator.name) @declarator",
      "(call_expression function: (identifier) @call.name) @call",
      "(call_expression function: (member_expression property: (_) @method.name)) @method",
      "(import_statement source: (string) @import.source) @import"]
    ++ typed "(import_require_clause) @import_require"
    ++ ["(identifier) @reference", "(shorthand_property_identifier) @reference"]
    ++ typed "(type_identifier) @reference"

structure ParseFailure where
  filePath : String
  dialect : Dialect
  deriving DecidableEq, Repr

def queryFault : String := "Query error of type TSQueryErrorNodeType at position 1"

def ParseFailure.message (e : ParseFailure) : String :=
  "Failed to parse " ++ e.filePath ++ " as " ++ e.dialect.name ++ ": " ++ queryFault

/-- How files are read into inventories: the topmost directory in which packages are looked for, and
the dialects whose query was replaced by one that does not compile. A query put in its place that
compiles is not modelled: a file is read with the query of its dialect or not at all. -/
structure ExtractOptions where
  root : Option String
  broken : List Dialect
  deriving Repr

namespace Inventory

def lookUp (tree : FileTree) (options : ExtractOptions) (directory : String)
    (mentions : List Mention) (arrival : Arrival) : StateM Memory Import := do
  let origin ← Resolver.resolve tree arrival.source directory options.root
  pure {
    importedName := arrival.importedName
    localName := arrival.localName
    source := arrival.source
    form := arrival.form
    origin := origin
    line := arrival.lines.first
    pathExists := Resolver.originExists tree origin
    usageLines := arrival.usageLines mentions }

def ofFindings (tree : FileTree) (options : ExtractOptions) (directory filePath : String)
    (dialect : Dialect) (found : Findings) : StateM Memory Inventory := do
  let imports ← found.arrivals.mapM (lookUp tree options directory found.mentions)
  pure {
    filePath := filePath
    dialect := dialect
    classes := found.classes
    functions := found.functions
    vars := found.vars
    calls := found.calls
    imports := imports }

/-- The dialect that a file is read in: its own if that one's query compiles, else the plain
script. -/
def readingDialect (options : ExtractOptions) (filePath : String) : Except ParseFailure Dialect :=
  let own := Dialect.ofPath filePath
  if !options.broken.contains own then .ok own
  else if own.isTyped ∧ !options.broken.contains .javascript then .ok .javascript
  else .error ⟨filePath, .javascript⟩

/-- The inventory of a source text, its relative imports looked up from a directory, with `read` as
the reading of texts. -/
def reading (read : Dialect → List Char → Tree) (tree : FileTree) (options : ExtractOptions)
    (directory filePath source : String) : ExceptT ParseFailure (StateM Memory) Inventory := do
  let dialect ← readingDialect options filePath
  let text := source.toList
  ofFindings tree options directory filePath dialect (.ofTree text (read dialect text))

def ofSource (tree : FileTree) (options : ExtractOptions) (directory filePath source : String) :
    ExceptT ParseFailure (StateM Memory) Inventory :=
  reading parse tree options directory filePath source

end Inventory

end EndpointAtlas
