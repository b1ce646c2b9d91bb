import EndpointAtlas.Syntax.Dialect
import EndpointAtlas.Syntax.Token
import EndpointAtlas.Syntax.Tree

/-!
Reading source text token by token. A reading that fails changes nothing, so another one can be
tried in its place. Rules refer to each other only through the phrases they ask for.
-/

set_option autoImplicit false

namespace EndpointAtlas

/-- A place in a source text of `length` characters: the token that comes next, where what was
passed last ended, the text from there on, and the comments found so far, last first. -/
structure Cursor where
  dialect : Dialect
  length : Nat
  token : Token
  last : Nat
  left : List Char
  comments : List Span

abbrev Reading (α : Type) := StateT Cursor Option α

/-- What one rule can ask another to read. In an expression `noIn` tells that the word `in` ends it,
and `plainArrow` that an arrow function in parentheses has no result type; of an operand `joined`
tells that an operator stands before it. -/
inductive Phrase where
  | statement
  | block
  | expression (noIn : Bool)
  | assignment (noIn plainArrow : Bool)
  | operand (joined : Bool)
  | newCallee
  | target
  | binding
  | parameters
  | arguments
  | classBody
  | decorator
  | type
  | typeOperand
  | typeParameters
  | typeArguments
  | element
  deriving DecidableEq, Repr

abbrev Rules := Phrase → Reading Tree

namespace Reading

variable {α β : Type}

def fail : Reading α := fun _ => none

def token : Reading Token := fun c => some (c.token, c)

def dialect : Reading Dialect := fun c => some (c.dialect, c)

def here : Reading Nat := fun c => some (c.token.start, c)

def moveTo (offset : Nat) (text : List Char) : Reading Unit := fun c =>
  let (comments, token) := Token.scan offset text
  some ((),
    { c with token := token, last := offset, left := text, comments := comments ++ c.comments })

/-- Passes `count` characters of raw text. What looked like comments in them, or after them, was
read as tokens are. -/
def skip (count : Nat) : Reading Unit := fun c =>
  moveTo (c.last + Text.units (c.left.take count)) (c.left.drop count)
    { c with comments := c.comments.dropWhile fun span => c.last ≤ span.start }

def left : Reading (List Char) := fun c => some (c.left, c)

def advance : Reading Unit := fun c => moveTo c.token.stop c.token.rest c

def advanceBy (lexeme : Token.Lexeme) (count : Nat) : Reading Unit := fun c =>
  let cut := Token.cut lexeme c.token.start c.token.afterBreak c.token.here count
  moveTo cut.stop cut.rest c

def atMark (mark : String) : Reading Bool := fun c =>
  some (c.token.lexeme == .punctuator mark, c)

def atWord (word : String) : Reading Bool := fun c => some (c.token.lexeme == .word word, c)

def afterBreak : Reading Bool := fun c => some (c.token.afterBreak, c)

def acceptMark (mark : String) : Reading Bool := do
  if ← atMark mark then advance; pure true else pure false

def acceptWord (word : String) : Reading Bool := do
  if ← atWord word then advance; pure true else pure false

def mark (mark : String) : Reading Unit := do
  if ← atMark mark then advance else fail

def word (word : String) : Reading Unit := do
  if ← atWord word then advance else fail

def check (test : Bool) : Reading Unit := if test then pure () else fail

def attempt (reading : Reading α) : Reading (Option α) := fun c =>
  match reading c with
  | some (value, next) => some (some value, next)
  | none => some (none, c)

/-- Does a reading succeed from here? Nothing is passed. -/
def ahead (reading : Reading α) : Reading Bool := fun c => some ((reading c).isSome, c)

def either (first second : Reading α) : Reading α := fun c =>
  match first c with
  | some result => some result
  | none => second c

def node (kind : Kind) (start : Nat) (children : List Tree) : Reading Tree := fun c =>
  some (.node kind .plain (.between start c.last) children, c)

def leaf (kind : Kind) : Reading Tree := do
  let start ← here
  advance
  node kind start []

def repeated (reading : Reading (Option α)) : Nat → Reading (List α)
  | 0 => pure []
  | count + 1 => do
    match ← reading with
    | none => pure []
    | some value => do
      let rest ← repeated reading count
      pure (value :: rest)

/-- Repeats a reading as long as it gives something. Each round passes a character at least, so the
text's length bounds their number. -/
def many (reading : Reading (Option α)) : Reading (List α) := fun c =>
  repeated reading (c.length + 1) c

def steps (reading : α → Reading (Option α)) : Nat → α → Reading α
  | 0, value => pure value
  | count + 1, value => do
    match ← reading value with
    | none => pure value
    | some next => steps reading count next

/-- Carries a value through readings as long as they go on; the text's length bounds their
number. -/
def iterate (reading : α → Reading (Option α)) (value : α) : Reading α := fun c =>
  steps reading (c.length + 1) value c

def listUntil (close separator : String) (item : Reading (List α)) : Reading (List α) := do
  let items ← many do
    if ← atMark close then pure none
    else do
      let found ← item
      if ← atMark close then pure (some found)
      else do
        mark separator
        pure (some found)
  mark close
  pure items.flatten

def reserved : List String :=
  ["break", "case", "catch", "class", "const", "continue", "debugger", "default", "delete", "do",
    "else", "enum", "export", "extends", "false", "finally", "for", "function", "if",
    "import", "in",
    "instanceof", "new", "null", "return", "super", "switch", "this", "throw", "true", "try",
    "typeof", "var", "void", "while", "with", "yield", "await"]

def atName : Reading Bool := fun c =>
  match c.token.lexeme with
  | .word w => some (!reserved.contains w, c)
  | _ => some (false, c)

def atAnyWord : Reading Bool := fun c =>
  match c.token.lexeme with
  | .word _ => some (true, c)
  | _ => some (false, c)

def name (kind : Kind) : Reading Tree := do
  if ← atName then leaf kind else fail

def anyWord (kind : Kind) : Reading Tree := do
  if ← atAnyWord then leaf kind else fail

def quoted : Reading Tree := do
  if (← token).lexeme = .string then leaf .string else fail

/-- Passes a closing angle bracket, also where it is the first character of a longer punctuator. -/
def closeAngle : Reading Unit := do
  match (← token).here with
  | '>' :: _ => advanceBy (.punctuator ">") 1
  | _ => fail

/-- Punctuation that goes on with an expression on the line before. -/
def continues (typed : Bool) (text : List Char) : Bool :=
  match text with
  | '+' :: rest => rest.head? ≠ some '+'
  | '-' :: rest => rest.head? ≠ some '-'
  | '!' :: rest => rest.head? = some '='
  | '.' :: rest => typed || !rest.head?.any Text.isAsciiDigit
  | c :: _ => "\x60,:;*%><=[(?^|&/".toList.contains c
  | [] => false

/-- Passes the end of a statement: a semicolon, or nothing where a line, a block or the text
ends. -/
def semicolon : Reading Unit := do
  if ← acceptMark ";" then pure ()
  else
    let next ← token
    let typed := (← dialect).isTyped
    if next.lexeme = .stop ∨ next.lexeme = .punctuator "\x7d" then pure ()
    else if next.afterBreak ∧ !continues typed next.here then pure ()
    else fail

end Reading

end EndpointAtlas
