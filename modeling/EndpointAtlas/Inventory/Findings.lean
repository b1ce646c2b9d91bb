import EndpointAtlas.Inventory.Basic
import EndpointAtlas.Syntax.Parse
import EndpointAtlas.Text.Quoted

/-!
What a syntax tree shows of a file's inventory, before its imports are looked up: declarations,
calls, names brought in, and every mention of a name.
-/

set_option autoImplicit false

namespace EndpointAtlas

/-- A name brought in from a module, with the lines of the statement that does so. -/
structure Arrival where
  importedName : String
  localName : Option String
  source : String
  form : ImportForm
  lines : LineRange
  deriving DecidableEq, Repr

structure Mention where
  name : String
  line : Int
  deriving DecidableEq, Repr

structure Findings where
  classes : List Declaration
  functions : List Declaration
  vars : List Declaration
  calls : List Call
  arrivals : List Arrival
  mentions : List Mention
  deriving Repr

namespace Tree

def text (source : List Char) (tree : Tree) : String := String.ofList (tree.textIn source)

def lines (source : List Char) (tree : Tree) : LineRange :=
  ⟨tree.firstLine source, tree.lastLine source⟩

def literal (source : List Char) (tree : Tree) : String :=
  String.ofList (Text.unquote (tree.textIn source))

def declaration? (source : List Char) (tree : Tree) : Option Declaration :=
  (tree.child? .name).map fun name => ⟨name.text source, tree.lines source⟩

def isClass (tree : Tree) : Bool := tree.kind = .classDeclaration || tree.kind = .abstractClass

def class? (source : List Char) (tree : Tree) : Option (Nat × Declaration) :=
  if tree.isClass then
    (tree.child? .name).map fun name =>
      (name.span.start, ⟨name.text source, tree.lines source⟩)
  else none

def isFunction (tree : Tree) : Bool :=
  tree.kind = .functionDeclaration || tree.kind = .generatorDeclaration

def isFunctionValue (tree : Tree) : Bool :=
  [Kind.arrowFunction, .functionExpression, .generatorExpression].contains tree.kind

def plainVariable? (source : List Char) (tree : Tree) : Option Declaration :=
  if tree.kind = .declarator ∧ (tree.child? .name).any (·.kind = .identifier) then
    tree.declaration? source
  else none

def function? (source : List Char) (tree : Tree) : Option Declaration :=
  if tree.isFunction then tree.declaration? source
  else if (tree.child? .value).any isFunctionValue then tree.plainVariable? source
  else none

def call? (source : List Char) (tree : Tree) : Option (Nat × Call) :=
  if tree.kind = .call then
    match tree.child? .callee with
    | some callee =>
      if callee.kind = .identifier then
        some (callee.span.start, ⟨callee.text source, tree.lines source, .function⟩)
      else if callee.kind = .member then
        (callee.child? .property).map fun property =>
          (property.span.start, ⟨property.text source, tree.lines source, .method⟩)
      else none
    | none => none
  else none

def required? (source : List Char) (tree : Tree) : Option String :=
  if tree.kind = .call ∧ (tree.child? .callee).any (fun callee =>
      callee.kind = .identifier ∧ callee.text source = "require") then
    match (tree.child? .arguments).bind (·.children.head?) with
    | some first => if first.kind = .string then some (first.literal source) else none
    | none => none
  else none

/-- The names that a pattern binds to what `require` gives: a plain name, or the names in braces
that stand without a default value. -/
def requiredNames (source : List Char) (pattern : Tree) : List (String × Option String) :=
  if pattern.kind = .identifier then [(pattern.text source, some (pattern.text source))]
  else if pattern.kind = .objectPattern then
    pattern.children.filterMap fun item =>
      if item.kind = .shorthandTarget then some (item.text source, some (item.text source))
      else if item.kind = .pairPattern then
        match item.child? .key, item.child? .value with
        | some key, some value =>
          if value.kind = .identifier then some (key.text source, some (value.text source))
          else none
        | _, _ => none
      else none
  else []

def clauseNames (source : List Char) (clause : Tree) : List (String × Option String) :=
  clause.children.flatMap fun item =>
    if item.kind = .identifier then [(item.text source, some (item.text source))]
    else if item.kind = .namespaceImport then
      [(wholeModule, (item.children.find? (·.kind = .identifier)).map (·.text source))]
    else if item.kind = .namedImports then
      item.children.filterMap fun specifier =>
        if specifier.kind = .importSpecifier then
          (specifier.child? .name).map fun name =>
            (name.literal source, some (((specifier.child? .newName).getD name).text source))
        else none
    else []

/-- The names that an import statement binds; one without a clause brings in the whole module under
no name. -/
def importedNames (source : List Char) (statement : Tree) : List (String × Option String) :=
  match statement.children.find? (·.kind = .importClause) with
  | some clause => clause.clauseNames source
  | none => [(wholeModule, none)]

def arriving (form : ImportForm) (module : String) (lines : LineRange)
    (names : List (String × Option String)) : List Arrival :=
  names.map fun (imported, here) => ⟨imported, here, module, form, lines⟩

def arrivals (source : List Char) (visit : Visit) : List Arrival :=
  let tree := visit.tree
  let around := (visit.parent.getD tree).lines source
  if tree.kind = .importStatement then
    match tree.child? .source with
    | some module =>
      arriving .statement (module.literal source) (tree.lines source) (tree.importedNames source)
    | none => []
  else if tree.kind = .importRequire then
    match tree.children.find? (·.kind = .identifier), tree.children.find? (·.kind = .string) with
    | some name, some module =>
      arriving .require (module.literal source) around [(name.text source, some (name.text source))]
    | _, _ => []
  else if tree.kind = .declarator then
    match tree.child? .name, (tree.child? .value).bind (·.required? source) with
    | some name, some module => arriving .require module around (name.requiredNames source)
    | _, _ => []
  else []

def mention? (source : List Char) (tree : Tree) : Option Mention :=
  if tree.kind = .identifier ∨ tree.kind = .shorthand ∨ tree.kind = .typeName then
    some ⟨tree.text source, tree.firstLine source⟩
  else none

end Tree

namespace Findings

def byOffset {α : Type} (values : List (Nat × α)) : List α :=
  (values.mergeSort fun a b => a.1 ≤ b.1).map (·.2)

/-- What a syntax tree shows. Classes and calls are listed by where their name stands, all else by
where the node starts. -/
def ofTree (source : List Char) (tree : Tree) : Findings :=
  let visits := tree.visits
  let nodes := visits.map (·.tree)
  { classes := byOffset (nodes.filterMap (·.class? source))
    functions := nodes.filterMap (·.function? source)
    vars := nodes.filterMap (·.plainVariable? source)
    calls := byOffset (nodes.filterMap (·.call? source))
    arrivals := visits.flatMap (Tree.arrivals source)
    mentions := nodes.filterMap (·.mention? source) }

end Findings

def ascending (numbers : List Int) : List Int :=
  (numbers.mergeSort (· ≤ ·)).eraseDups

/-- The lines outside the import itself that mention the name that it binds. -/
def Arrival.usageLines (arrival : Arrival) (mentions : List Mention) : List Int :=
  match arrival.localName with
  | none => []
  | some name =>
    ascending ((mentions.filter fun m =>
      m.name = name ∧ !arrival.lines.contains m.line).map (·.line))

end EndpointAtlas
