import EndpointAtlas.Text.LetterCase

set_option autoImplicit false

namespace EndpointAtlas

/-- The dialects of source text: the plain script, and two with types, of which the second has
markup elements in the place of type assertions in angle brackets. -/
inductive Dialect where
  | javascript | typescript | tsx
  deriving DecidableEq, Repr, Inhabited

namespace Dialect

def every : List Dialect := [javascript, typescript, tsx]

def name : Dialect → String
  | javascript => "javascript"
  | typescript => "typescript"
  | tsx => "tsx"

def ofName? (s : String) : Option Dialect := every.find? fun d => d.name = s

@[simp] theorem ofName?_name (d : Dialect) : ofName? d.name = some d := by cases d <;> decide

def isTyped : Dialect → Bool
  | javascript => false
  | _ => true

def hasMarkup : Dialect → Bool
  | typescript => false
  | _ => true

/-- The extension of a file name in small letters with its dot: what follows the last dot, if that
is not empty and holds no slash of either kind. -/
def extensionOf (path : String) : String :=
  let tail := (path.toList.reverse.takeWhile fun c => c ≠ '.' ∧ c ≠ '/' ∧ c ≠ '\\').reverse
  let before := path.toList.take (path.toList.length - tail.length)
  if !tail.isEmpty ∧ before.getLast? = some '.' then String.ofList (Text.lower ('.' :: tail))
  else ""

def sourceExtensions : List String := [".js", ".cjs", ".mjs", ".ts", ".tsx", ".cts", ".mts"]

def ofPath (path : String) : Dialect :=
  let extension := extensionOf path
  if extension = ".tsx" then tsx
  else if extension = ".ts" ∨ extension = ".cts" ∨ extension = ".mts" then typescript
  else javascript

def isSource (path : String) : Bool := sourceExtensions.contains (extensionOf path)

end Dialect

end EndpointAtlas
