import EndpointAtlas.Syntax.Dialect

set_option autoImplicit false

namespace EndpointAtlas

/-- Lines of a file, counted from 1, both ends included. -/
structure LineRange where
  first : Int
  last : Int
  deriving DecidableEq, Repr, Inhabited

namespace LineRange

def contains (range : LineRange) (line : Int) : Bool := range.first ≤ line && line ≤ range.last

def covers (outer inner : LineRange) : Bool := outer.first ≤ inner.first && inner.last ≤ outer.last

end LineRange

structure Declaration where
  name : String
  lines : LineRange
  deriving DecidableEq, Repr, Inhabited

inductive CallKind where
  | function | method
  deriving DecidableEq, Repr, Inhabited

structure Call where
  name : String
  lines : LineRange
  kind : CallKind
  deriving DecidableEq, Repr, Inhabited

/-- Whether a name comes in by an import statement or by a call of `require`. -/
inductive ImportForm where
  | statement | require
  deriving DecidableEq, Repr, Inhabited

def externalText : String := "<node_builtin_or_external>"

/-- Where a module was found: nowhere, outside of what is looked into, or at an absolute path. -/
inductive Origin where
  | unresolved
  | external
  | file (path : String) (named : path ≠ externalText)
  deriving DecidableEq, Repr, Inhabited

namespace Origin

def ofText (text : String) : Origin :=
  if h : text = externalText then .external else .file text h

def text? : Origin → Option String
  | .unresolved => none
  | .external => some externalText
  | .file path _ => some path

def ofText? : Option String → Origin
  | none => .unresolved
  | some text => ofText text

@[simp] theorem ofText?_text? (origin : Origin) : ofText? origin.text? = origin := by
  cases origin with
  | unresolved => rfl
  | external => simp [text?, ofText?, ofText]
  | file path named => simp [text?, ofText?, ofText, named]

def path? : Origin → Option String
  | .file path _ => some path
  | _ => none

end Origin

/-- The name under which a whole module is recorded. -/
def wholeModule : String := "*"

/-- A name that a file imports, where it comes from, and the lines that use it. -/
structure Import where
  importedName : String
  localName : Option String
  source : String
  form : ImportForm
  origin : Origin
  line : Int
  pathExists : Bool
  usageLines : List Int
  deriving DecidableEq, Repr, Inhabited

structure Inventory where
  filePath : String
  dialect : Dialect
  classes : List Declaration
  functions : List Declaration
  vars : List Declaration
  calls : List Call
  imports : List Import
  deriving DecidableEq, Repr, Inhabited

end EndpointAtlas
