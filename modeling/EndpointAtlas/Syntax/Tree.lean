import EndpointAtlas.Syntax.Span

/-!
Syntax trees. A node has a kind, the role that it plays in its parent, a span and its children in
the order of the text; comments are nodes among the others, and what could not be read is a node of
kind `error`. Main statement: `visits` and the walk with a stack, `walk`, list the same nodes in the
same order.
-/

set_option autoImplicit false

namespace EndpointAtlas

/-- What a node of a syntax tree is, as far as anything asks. -/
inductive Kind where
  | program | comment | error | other
  | identifier | propertyName | privateName | shorthand | shorthandTarget | typeName
  | string | template | call | member | arguments | object | array
  | arrowFunction | functionExpression | generatorExpression
  | functionDeclaration | generatorDeclaration | classDeclaration | abstractClass
  | classBody | method | field | decorator
  | declaration | declarator | objectPattern | pairPattern
  | importStatement | importClause | namedImports | importSpecifier | namespaceImport
  | importRequire | exportStatement
  deriving DecidableEq, Repr, Inhabited

/-- What a node is to its parent, as far as anything asks. -/
inductive Role where
  | plain | name | value | callee | arguments | object | property | body | source | newName | key
  | fallback
  deriving DecidableEq, Repr, Inhabited

inductive Tree where
  | node (kind : Kind) (role : Role) (span : Span) (children : List Tree)
  deriving Repr

namespace Tree

instance : Inhabited Tree := ⟨.node .other .plain (.between 0 0) []⟩

def kind : Tree → Kind
  | .node kind _ _ _ => kind

def role : Tree → Role
  | .node _ role _ _ => role

def span : Tree → Span
  | .node _ _ span _ => span

def children : Tree → List Tree
  | .node _ _ _ children => children

def inRole (role : Role) : Tree → Tree
  | .node kind _ span children => .node kind role span children

def ofKind (kind : Kind) : Tree → Tree
  | .node _ role span children => .node kind role span children

def child? (role : Role) (tree : Tree) : Option Tree := tree.children.find? (·.role = role)

def textIn (tree : Tree) (source : List Char) : List Char := tree.span.textIn source

def firstLine (tree : Tree) (source : List Char) : Nat := tree.span.firstLine source

def lastLine (tree : Tree) (source : List Char) : Nat := tree.span.lastLine source

/-- A node as met on a walk: with its parent, if it has one, and the siblings before it, nearest
first. -/
structure Visit where
  tree : Tree
  parent : Option Tree
  earlier : List Tree

mutual

def visitsFrom (parent : Option Tree) (earlier : List Tree) : Tree → List Visit
  | .node kind role span children =>
    ⟨.node kind role span children, parent, earlier⟩ ::
      visitsAmong (.node kind role span children) [] children

def visitsAmong (parent : Tree) (earlier : List Tree) : List Tree → List Visit
  | [] => []
  | first :: rest =>
    visitsFrom (some parent) earlier first ++ visitsAmong parent (first :: earlier) rest

end

/-- Every node of a tree, each before its children and these from left to right. -/
def visits (tree : Tree) : List Visit := visitsFrom none [] tree

mutual

def nodes : Tree → List Tree
  | .node kind role span children => .node kind role span children :: nodesAmong children

def nodesAmong : List Tree → List Tree
  | [] => []
  | first :: rest => nodes first ++ nodesAmong rest

end

mutual

def size : Tree → Nat
  | .node _ _ _ children => sizeAmong children + 1

def sizeAmong : List Tree → Nat
  | [] => 0
  | first :: rest => size first + sizeAmong rest

end

theorem sizeAmong_append (s t : List Tree) : sizeAmong (s ++ t) = sizeAmong s + sizeAmong t := by
  induction s <;> simp_all [sizeAmong, Nat.add_assoc]

/-- Takes nodes off a stack, listing each and putting its children in its place. -/
def walkStack : List Tree → List Tree
  | [] => []
  | .node kind role span children :: rest =>
    .node kind role span children :: walkStack (children ++ rest)
termination_by stack => sizeAmong stack
decreasing_by simp [sizeAmong, sizeAmong_append, size]

def walk (tree : Tree) : List Tree := walkStack [tree]

def hasErrors (tree : Tree) : Bool := tree.walk.any (·.kind = .error)

end Tree

end EndpointAtlas
