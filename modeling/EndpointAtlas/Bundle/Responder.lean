import EndpointAtlas.Text.Blank

/-!
The registration that catches all routes left over: `app.use('/:name', …)`, with the lines of its
body.
-/

set_option autoImplicit false

namespace EndpointAtlas.Responder

def useHere (s : List Char) : Bool :=
  ".use".toList.isPrefixOf s &&
    match (s.drop 4).dropWhile Text.isBlank with
    | '(' :: inside =>
      match inside.dropWhile Text.isBlank with
      | quote :: '/' :: ':' :: _ => quote == '"' || quote == '\''
      | _ => false
    | _ => false

def matchesLine : List Char → Bool
  | [] => false
  | c :: rest => useHere (c :: rest) || matchesLine rest

def balance (opening closing : Char) (line : List Char) : Int :=
  line.count opening - line.count closing

/-- Lines up to the first after which all marks opened are closed, `started` telling whether one has
been opened yet. -/
def balancedFrom (opening closing : Char) (started : Bool) (depth : Int) :
    List String → List String
  | [] => []
  | line :: rest =>
    let text := line.toList
    let depth := depth + balance opening closing text
    let started := started || text.contains opening
    if started ∧ depth ≤ 0 then [line] else line :: balancedFrom opening closing started depth rest

/-- The lines from `start` on up to the one that closes what was opened; a negative start counts
from the end. -/
def balanced (opening closing : Char) (lines : List String) (start : Int) : List String :=
  let index := if start < 0 then (start + lines.length).toNat else start.toNat
  balancedFrom opening closing false 0 (lines.drop index)

def braceBlock (lines : List String) (start : Int) : List String := balanced '{' '}' lines start

/-- The lines of the first registration that catches all routes left over: up to the end of its body
if one opens on the first line, else up to the end of the call. -/
def block? (lines : List String) : Option (List String) :=
  match lines.findIdx? fun line => matchesLine line.toList with
  | some index =>
    let opens := ((lines[index]?).getD "").toList.contains '{'
    some (if opens then braceBlock lines index else balanced '(' ')' lines index)
  | none => none

end EndpointAtlas.Responder
