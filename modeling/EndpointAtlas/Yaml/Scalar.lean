import EndpointAtlas.Number.Literal
import EndpointAtlas.Settings.Value
import EndpointAtlas.Text.Units

set_option autoImplicit false

namespace EndpointAtlas.Yaml

def isGap (c : Char) : Bool := c == ' ' || c == '\t'

def isFlowMark (c : Char) : Bool := c == ',' || c == '[' || c == ']' || c == '\x7b' || c == '\x7d'

def atBlank (s : List Char) : Bool := !s.head?.any fun c => !(isGap c || c == '\n')

def trimGaps (s : List Char) : List Char := s.dropWhile isGap

def trimGapsEnd (s : List Char) : List Char := (s.reverse.dropWhile isGap).reverse

def nullWords : List String := ["", "~", "null", "Null", "NULL"]

def trueWords : List String := ["true", "True", "TRUE"]

def falseWords : List String := ["false", "False", "FALSE"]

def endlessWords : List String := [".inf", ".Inf", ".INF"]

def notANumberWords : List String := [".nan", ".NaN", ".NAN"]

def number? (s : List Char) : Option Number :=
  match s with
  | '0' :: 'o' :: digits => Number.ofDigits? 8 digits
  | '0' :: 'x' :: digits => Number.ofDigits? 16 digits
  | _ =>
    let (negative, body) := Number.spanSign s
    if endlessWords.contains (String.ofList body) then some (.infinite negative)
    else if notANumberWords.contains (String.ofList s) then some .notANumber
    else match Number.readDecimal body with
      | some (x, []) => some (Number.signed negative x)
      | _ => none

def plainValue (s : List Char) : Setting :=
  let word := String.ofList s
  if nullWords.contains word then .null
  else if trueWords.contains word then .flag true
  else if falseWords.contains word then .flag false
  else match number? s with
    | some x => .number x
    | none => .text word

def spellsInteger (s : List Char) : Bool :=
  match s with
  | '0' :: 'o' :: _ => true
  | '0' :: 'x' :: _ => true
  | _ => (Number.spanSign s).2.all Text.isAsciiDigit

/-- What a plain scalar with a tag means: the tag's kind if it spells one of that kind, else its
text. Octets are no text, but a value of their own. -/
def taggedValue (tag : String) (s : List Char) : Setting :=
  let value := plainValue s
  let fits := match value with
    | .null => tag == "!!null"
    | .flag _ => tag == "!!bool"
    | .number _ => tag == (if spellsInteger s then "!!int" else "!!float")
    | _ => false
  if fits then value
  else if tag == "!!timestamp" then .moment (String.ofList s)
  else if tag == "!!binary" then .table []
  else .text (String.ofList s)

def foldRest (separator : Char) : List (List Char) → List Char
  | [] => []
  | [last] => separator :: trimGaps last
  | line :: rest =>
    match trimGaps (trimGapsEnd line) with
    | [] => if separator = '\n' then '\n' :: foldRest '\n' rest else foldRest '\n' rest
    | body => separator :: body ++ foldRest ' ' rest

/-- A scalar of several lines as one text. -/
def folded (s : List Char) : List Char :=
  match Text.splitOn (· == '\n') s with
  | first :: second :: rest => trimGapsEnd first ++ foldRest ' ' (second :: rest)
  | _ => s

def escaped? (c : Char) : Option Char :=
  match c with
  | '0' => some (Char.ofNat 0)
  | 'a' => some (Char.ofNat 7)
  | 'b' => some (Char.ofNat 8)
  | 'e' => some (Char.ofNat 0x1B)
  | 'f' => some (Char.ofNat 0x0C)
  | 'n' => some '\n'
  | 'r' => some '\r'
  | 't' => some '\t'
  | 'v' => some (Char.ofNat 0x0B)
  | 'N' => some (Char.ofNat 0x85)
  | '_' => some (Char.ofNat 0xA0)
  | 'L' => some (Char.ofNat 0x2028)
  | 'P' => some (Char.ofNat 0x2029)
  | ' ' => some ' '
  | '"' => some '"'
  | '/' => some '/'
  | '\\' => some '\\'
  | '\t' => some '\t'
  | _ => none

def digitsAfter? (c : Char) : Option Nat :=
  match c with
  | 'x' => some 2
  | 'u' => some 4
  | 'U' => some 8
  | _ => none

/-- The character of a code in hexadecimal digits; half a pair stands for the replacement
character. -/
def coded? (digits : List Char) : Option Char :=
  if digits.all (Number.isDigitOf 16) then
    let code := Number.ofDigits 16 digits
    if 0x10FFFF < code then none
    else if 0xD800 ≤ code ∧ code ≤ 0xDFFF then some (Char.ofNat 0xFFFD)
    else some (Char.ofNat code)
  else none

def doubleQuoted : Nat → List Char → Option (List Char)
  | 0, _ => none
  | _, [] => some []
  | fuel + 1, '\\' :: rest =>
    match rest with
    | [] => none
    | '\n' :: more => doubleQuoted fuel (trimGaps more)
    | c :: more =>
      match escaped? c, digitsAfter? c with
      | some d, _ => (doubleQuoted fuel more).map (d :: ·)
      | none, some count =>
        if more.length < count then none
        else do
          let d ← coded? (more.take count)
          let body ← doubleQuoted fuel (more.drop count)
          pure (d :: body)
      | none, none => none
  | fuel + 1, '\n' :: rest =>
    let blanks := rest.takeWhile fun c => isGap c || c == '\n'
    let breaks := blanks.filter (· == '\n')
    (doubleQuoted fuel (rest.drop blanks.length)).map
      ((if breaks.isEmpty then [' '] else breaks) ++ ·)
  | fuel + 1, c :: rest =>
    if isGap c then
      let gap := c :: rest.takeWhile isGap
      let after := rest.dropWhile isGap
      if after.head? = some '\n' then doubleQuoted fuel after
      else (doubleQuoted fuel after).map (gap ++ ·)
    else (doubleQuoted fuel rest).map (c :: ·)

/-- The content of a scalar in single quotes, in which a quote is written twice. -/
def singleQuoted : List Char → List Char
  | '\'' :: '\'' :: rest => '\'' :: singleQuoted rest
  | c :: rest => c :: singleQuoted rest
  | [] => []

inductive Chomp where
  | strip | clip | keep
  deriving DecidableEq, Repr

/-- The first line of a block scalar: folded or not, what is kept at the end, and its indentation if
that is given. -/
structure BlockHeader where
  folded : Bool
  chomp : Chomp
  indent : Option Nat
  deriving Repr

def blockMarks (header : BlockHeader) (chomped : Bool) : List Char → Option BlockHeader
  | [] => some header
  | c :: rest =>
    if c = '-' ∨ c = '+' then
      if chomped then none
      else blockMarks { header with chomp := if c = '-' then .strip else .keep } true rest
    else if '1' ≤ c ∧ c ≤ '9' ∧ header.indent.isNone then
      blockMarks { header with indent := some (c.toNat - '0'.toNat) } chomped rest
    else none

/-- A line of a block scalar: how many spaces it starts with, and what follows. -/
abbrev BlockLine := Nat × List Char

def blockLine (line : List Char) : BlockLine :=
  ((line.takeWhile (· == ' ')).length, line.dropWhile (· == ' '))

def BlockLine.beyond (line : BlockLine) (indent : Nat) : List Char :=
  List.replicate (line.1 - indent) ' ' ++ line.2

/-- The lines of a folded block scalar, with what separates the next line from those before it.
Lines that are indented further keep their line ends. -/
def foldBlock (indent : Nat) (separator : List Char) (deeper : Bool) : List BlockLine → List Char
  | [] => []
  | line :: rest =>
    if indent < line.1 ∨ line.2.head? = some '\t' then
      let separator :=
        if separator = [' '] then ['\n']
        else if !deeper ∧ separator = ['\n'] then ['\n', '\n']
        else separator
      separator ++ line.beyond indent ++ foldBlock indent ['\n'] true rest
    else if line.2.isEmpty then
      if separator = ['\n'] then '\n' :: foldBlock indent separator deeper rest
      else foldBlock indent ['\n'] deeper rest
    else separator ++ line.2 ++ foldBlock indent [' '] false rest

def joinBlock (indent : Nat) (lines : List BlockLine) : List Char :=
  ['\n'].intercalate (lines.map (·.beyond indent))

def splitAfterLast (test : BlockLine → Bool) (lines : List BlockLine) :
    List BlockLine × List BlockLine :=
  let after := (lines.reverse.takeWhile (!test ·)).reverse
  (lines.take (lines.length - after.length), after)

def blockValue (header : BlockHeader) (base : Nat) (lines : List BlockLine) : Option (List Char) :=
  let isFull (line : BlockLine) : Bool := !line.2.isEmpty
  match lines.find? isFull with
  | none =>
    some (if header.chomp = .keep ∧ !lines.isEmpty then
      List.replicate (max 1 (lines.length - 1)) '\n'
      else [])
  | some first =>
    let leading := lines.takeWhile (!isFull ·)
    let least := match header.indent with
      | some n => base + n
      | none => leading.foldl (fun least line => max least line.1) base
    if first.1 < least then none
    else
      let indent := match header.indent with
        | some _ => least
        | none => first.1
      let body := lines.drop leading.length
      let (content, trailing) := splitAfterLast (fun line => isFull line || indent < line.1) body
      if content.any fun line => isFull line && line.1 < indent then none
      else
        let start := leading.flatMap fun line => line.beyond indent ++ ['\n']
        let text := start ++ if header.folded then foldBlock indent [] false content
          else joinBlock indent content
        some <| match header.chomp with
          | .strip => text
          | .clip => text ++ ['\n']
          | .keep =>
            let whole := text ++ trailing.flatMap fun line => '\n' :: line.beyond indent
            if whole.getLast? = some '\n' then whole else whole ++ ['\n']

end EndpointAtlas.Yaml
