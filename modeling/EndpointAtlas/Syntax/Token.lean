import EndpointAtlas.Syntax.Span
import EndpointAtlas.Text.Blank

/-!
Tokens of source text. Each function here measures what stands at the start of a text; what a slash
or an angle bracket begins depends on where it stands, so those are read again by the grammar where
needed.
-/

set_option autoImplicit false

namespace EndpointAtlas.Token

def isGap (c : Char) : Bool :=
  Text.isBlank c || c.toNat == 0x2060 || c.toNat == 0x200B

def isLineEnd (c : Char) : Bool :=
  c == '\n' || c.toNat == 0x2028 || c.toNat == 0x2029

def isPunctuation (c : Char) : Bool :=
  ":;\x60\"'@#.,|^&<=>+-*/\\%?!~()[]\x7b\x7d".toList.contains c

def isNamePart (c : Char) : Bool := 0x20 ≤ c.toNat && !isGap c && !isPunctuation c

def isNameHead (c : Char) : Bool := isNamePart c && !Text.isAsciiDigit c

def isHexDigit (c : Char) : Bool :=
  Text.isAsciiDigit c || ('a' ≤ c && c ≤ 'f') || ('A' ≤ c && c ≤ 'F')

/-- Where the reading of a name stands: between characters, or inside an escape. -/
inductive NameState where
  | plain | braces | digits (left : Nat)

def nameLength : NameState → List Char → Nat
  | _, [] => 0
  | .braces, c :: rest => nameLength (if c = '}' then .plain else .braces) rest + 1
  | .digits (left + 1), c :: rest =>
    if isHexDigit c then nameLength (if left = 0 then .plain else .digits left) rest + 1
    else if c = '{' then nameLength .braces rest + 1
    else 0
  | _, c :: rest =>
    if isNamePart c then nameLength .plain rest + 1
    else if c = '\\' ∧ rest.head? = some 'u' then
      match rest with
      | _ :: more => nameLength (.digits 4) more + 2
      | [] => 0
    else 0

/-- Where the reading of a quoted text stands: between characters, after a backslash, after a
carriage return that follows one, or inside an escape of hexadecimal digits. -/
inductive QuoteState where
  | plain | escaped | afterReturn | unicode | braces | digits (left : Nat)

/-- The length of a quoted text's rest with its closing quote; none if the text does not close on
its line or holds a bad escape. -/
def quotedLength (quote : Char) : QuoteState → List Char → Option Nat
  | _, [] => none
  | .escaped, c :: rest =>
    (quotedLength quote
      (if c = 'x' then .digits 2 else if c = 'u' then .unicode else if c = '\r' then .afterReturn
        else .plain) rest).map (· + 1)
  | .unicode, c :: rest =>
    if c = '{' then (quotedLength quote .braces rest).map (· + 1)
    else if isHexDigit c then (quotedLength quote (.digits 3) rest).map (· + 1)
    else none
  | .braces, c :: rest =>
    if c = '}' then (quotedLength quote .plain rest).map (· + 1)
    else if isHexDigit c then (quotedLength quote .braces rest).map (· + 1)
    else none
  | .digits (left + 1), c :: rest =>
    if isHexDigit c then
      (quotedLength quote (if left = 0 then .plain else .digits left) rest).map (· + 1)
    else none
  | state, c :: rest =>
    if c = quote then some 1
    else if c = '\\' then (quotedLength quote .escaped rest).map (· + 1)
    else if c = '\n' then
      match state with
      | .afterReturn => (quotedLength quote .plain rest).map (· + 1)
      | _ => none
    else if c = '\r' then none
    else (quotedLength quote .plain rest).map (· + 1)

/-- The length of a pattern's rest between slashes with the closing one; none if it does not close
on its line. -/
def patternLength : Bool → Bool → List Char → Option Nat
  | _, _, [] => none
  | inClass, escaped, c :: rest =>
    if c = '\n' then none
    else if escaped then (patternLength inClass false rest).map (· + 1)
    else if c = '\\' then (patternLength inClass true rest).map (· + 1)
    else if c = '[' then (patternLength true false rest).map (· + 1)
    else if c = ']' then (patternLength false false rest).map (· + 1)
    else if c = '/' ∧ !inClass then some 1
    else (patternLength inClass false rest).map (· + 1)

inductive ChunkEnd where
  | closed | hole
  deriving DecidableEq

def chunkLength : Bool → List Char → Option (Nat × ChunkEnd)
  | _, [] => none
  | escaped, c :: rest =>
    if escaped then (chunkLength false rest).map fun (n, e) => (n + 1, e)
    else if c = '\\' then (chunkLength true rest).map fun (n, e) => (n + 1, e)
    else if c = '\x60' then some (1, .closed)
    else if c = '$' ∧ rest.head? = some '{' then some (2, .hole)
    else (chunkLength false rest).map fun (n, e) => (n + 1, e)

def runLength (test : Char → Bool) (s : List Char) : Nat := (s.takeWhile test).length

def isDigitPart (c : Char) : Bool := Text.isAsciiDigit c || c == '_'

def exponentLength : List Char → Nat
  | e :: sign :: rest =>
    if e = 'e' ∨ e = 'E' then
      if sign = '+' ∨ sign = '-' then
        let digits := runLength isDigitPart rest
        if digits = 0 then 0 else digits + 2
      else
        let digits := runLength isDigitPart (sign :: rest)
        if digits = 0 then 0 else digits + 1
    else 0
  | _ => 0

def bigMark (s : List Char) : Nat := if s.head? = some 'n' then 1 else 0

def numberLength (s : List Char) : Nat :=
  let based (isDigit : Char → Bool) (rest : List Char) : Nat :=
    let digits := runLength (fun c => isDigit c || c == '_') rest
    2 + digits + bigMark (rest.drop digits)
  match s with
  | '0' :: 'x' :: rest => based isHexDigit rest
  | '0' :: 'X' :: rest => based isHexDigit rest
  | '0' :: 'o' :: rest => based Text.isAsciiDigit rest
  | '0' :: 'O' :: rest => based Text.isAsciiDigit rest
  | '0' :: 'b' :: rest => based Text.isAsciiDigit rest
  | '0' :: 'B' :: rest => based Text.isAsciiDigit rest
  | s =>
    let whole := runLength isDigitPart s
    let rest := s.drop whole
    match rest with
    | '.' :: more =>
      let fraction := runLength isDigitPart more
      whole + 1 + fraction + exponentLength (more.drop fraction)
    | rest =>
      let exponent := exponentLength rest
      if exponent = 0 then whole + bigMark rest else whole + exponent

def longPunctuators : List (List Char) :=
  [">>>=", "...", "===", "!==", "**=", "<<=", ">>=", ">>>", "&&=", "||=", "??=",
    "=>", "==", "!=", "<=", ">=", "&&", "||", "??", "?.", "++", "--", "+=", "-=", "*=", "/=", "%=",
    "&=", "|=", "^=", "<<", ">>", "**"].map String.toList

def punctuatorLength (s : List Char) : Nat :=
  match s with
  | '?' :: '.' :: c :: _ => if Text.isAsciiDigit c then 1 else 2
  | s =>
    match longPunctuators.find? (fun p => p.isPrefixOf s) with
    | some p => p.length
    | none => 1

/-- Where the reading between tokens stands: between comments, in a comment up to the line's end, or
in a comment up to its closing mark, each with the offset where the comment started. -/
inductive GapState where
  | open_ | line (start : Nat) | block (start : Nat) (star : Bool)

structure Gap where
  comments : List Span
  afterBreak : Bool
  unclosed : Bool
  offset : Nat
  rest : List Char

def gap (state : GapState) (offset : Nat) (afterBreak : Bool) (comments : List Span) :
    List Char → Gap
  | [] =>
    match state with
    | .open_ => ⟨comments, afterBreak, false, offset, []⟩
    | .line start => ⟨.between start offset :: comments, afterBreak, false, offset, []⟩
    | .block _ _ => ⟨comments, afterBreak, true, offset, []⟩
  | c :: rest =>
    let next := offset + Text.width c
    match state with
    | .line start =>
      if isLineEnd c ∨ c = '\r' then
        gap .open_ next (afterBreak || isLineEnd c) (.between start offset :: comments) rest
      else gap (.line start) next afterBreak comments rest
    | .block start star =>
      if star ∧ c = '/' then gap .open_ next afterBreak (.between start next :: comments) rest
      else gap (.block start (c == '*')) next (afterBreak || isLineEnd c) comments rest
    | .open_ =>
      if isGap c then gap .open_ next (afterBreak || isLineEnd c) comments rest
      else if c = '/' ∧ rest.head? = some '/' then gap (.line offset) next afterBreak comments rest
      else if c = '/' ∧ rest.head? = some '*' then
        match rest with
        | star :: more =>
          gap (.block offset false) (next + Text.width star) afterBreak comments more
        | [] => ⟨comments, afterBreak, false, offset, c :: rest⟩
      else ⟨comments, afterBreak, false, offset, c :: rest⟩

inductive Lexeme where
  | word (text : String)
  | privateName
  | punctuator (text : String)
  | number
  | string
  | stop
  | stray
  deriving DecidableEq, Repr, Inhabited

end Token

/-- A token: what it is, where it starts and ends, whether a line ends before it, and the text from
its start and from its end. -/
structure Token where
  lexeme : Token.Lexeme
  start : Nat
  stop : Nat
  afterBreak : Bool
  here : List Char
  rest : List Char

namespace Token

def cut (lexeme : Lexeme) (offset : Nat) (afterBreak : Bool) (here : List Char) (count : Nat) :
    Token :=
  ⟨lexeme, offset, offset + Text.units (here.take count), afterBreak, here, here.drop count⟩

def scanHere (offset : Nat) (afterBreak : Bool) (here : List Char) : Token :=
  match here with
  | [] => cut .stop offset afterBreak [] 0
  | c :: rest =>
    if isNameHead c ∨ (c = '\\' ∧ rest.head? = some 'u') then
      let count := nameLength .plain here
      cut (.word (String.ofList (here.take count))) offset afterBreak here count
    else if c = '#' ∧ rest.head?.any isNameHead then
      cut .privateName offset afterBreak here (nameLength .plain rest + 1)
    else if Text.isAsciiDigit c ∨ (c = '.' ∧ rest.head?.any Text.isAsciiDigit) then
      cut .number offset afterBreak here (numberLength here)
    else if c = '"' ∨ c = '\'' then
      match quotedLength c .plain rest with
      | some count => cut .string offset afterBreak here (count + 1)
      | none => cut .stray offset afterBreak here 1
    else if isPunctuation c then
      let count := punctuatorLength here
      cut (.punctuator (String.ofList (here.take count))) offset afterBreak here count
    else cut .stray offset afterBreak here 1

def scan (offset : Nat) (text : List Char) : List Span × Token :=
  let found := gap .open_ offset false [] text
  if found.unclosed then (found.comments, ⟨.stray, offset, found.offset, true, text, []⟩)
  else (found.comments, scanHere found.offset found.afterBreak found.rest)

end EndpointAtlas.Token
