import EndpointAtlas.Number.Literal
import EndpointAtlas.Settings.Value

set_option autoImplicit false

namespace EndpointAtlas.Toml

def isGap (c : Char) : Bool := c == ' ' || c == '\t'

def isSpace (c : Char) : Bool := isGap c || c == '\n' || c == '\r'

def atWordEnd (s : List Char) : Bool :=
  !s.head?.any fun c => !(isSpace c || c == '#' || c == ',' || c == ']' || c == '\x7d')

def isControl (multiline : Bool) (c : Char) : Bool :=
  c.toNat = 0x7F || (c.toNat < 0x20 && c ≠ '\t' && !(multiline && (c = '\n' || c = '\r')))

def escaped? (c : Char) : Option Char :=
  match c with
  | 'b' => some (Char.ofNat 8)
  | 't' => some '\t'
  | 'n' => some '\n'
  | 'f' => some (Char.ofNat 0x0C)
  | 'r' => some '\r'
  | '"' => some '"'
  | '\\' => some '\\'
  | _ => none

def coded? (digits : List Char) : Option Char :=
  if digits.all (Number.isDigitOf 16) then
    let code := Number.ofDigits 16 digits
    if 0x10FFFF < code ∨ (0xD800 ≤ code ∧ code ≤ 0xDFFF) then none else some (Char.ofNat code)
  else none

def readEscape : List Char → Option (Char × List Char)
  | 'u' :: rest =>
    if rest.length < 4 then none else (coded? (rest.take 4)).map fun c => (c, rest.drop 4)
  | 'U' :: rest =>
    if rest.length < 8 then none else (coded? (rest.take 8)).map fun c => (c, rest.drop 8)
  | c :: rest => (escaped? c).map fun d => (d, rest)
  | [] => none

def readLine (quote : Char) : Nat → List Char → Option (List Char × List Char)
  | 0, _ => none
  | _, [] => none
  | fuel + 1, c :: rest =>
    if c = quote then some ([], rest)
    else if c = '\\' ∧ quote = '"' then do
      let (d, rest) ← readEscape rest
      let (body, after) ← readLine quote fuel rest
      pure (d :: body, after)
    else if isControl false c then none
    else do
      let (body, after) ← readLine quote fuel rest
      pure (c :: body, after)

/-- Reads a text over several lines up to three closing quotes. A backslash at the end of a line
passes all blanks after it. -/
def readLines (quote : Char) : Nat → List Char → Option (List Char × List Char)
  | 0, _ => none
  | _, [] => none
  | fuel + 1, c :: rest =>
    if c = quote ∧ [quote, quote].isPrefixOf rest then some ([], rest.drop 2)
    else if c = '\\' ∧ quote = '"' then
      let gap := rest.takeWhile isGap
      match rest.drop gap.length with
      | next :: more =>
        if next = '\n' ∨ next = '\r' then readLines quote fuel (more.dropWhile isSpace)
        else do
          let (d, rest) ← readEscape rest
          let (body, after) ← readLines quote fuel rest
          pure (d :: body, after)
      | [] => none
    else if isControl true c then none
    else do
      let (body, after) ← readLines quote fuel rest
      pure (c :: body, after)

def afterOpening (s : List Char) : List Char :=
  let body := s.dropWhile (· == '\r')
  match body with
  | '\n' :: rest => rest
  | _ => body

def readText (quote : Char) (s : List Char) : Option (List Char × List Char) :=
  match s with
  | a :: b :: rest =>
    if a = quote ∧ b = quote then readLines quote s.length (afterOpening rest)
    else if a = quote then some ([], b :: rest)
    else readLine quote s.length s
  | [a] => if a = quote then some ([], []) else none
  | [] => none

def readDigits (base : Nat) : Nat → List Char → Option (List Char × List Char)
  | 0, _ => none
  | fuel + 1, s =>
    let digits := s.takeWhile (Number.isDigitOf base)
    match s.drop digits.length with
    | '_' :: rest =>
      if !digits.isEmpty && rest.head?.any (Number.isDigitOf base) then do
        let (more, after) ← readDigits base fuel rest
        pure (digits ++ more, after)
      else none
    | rest => some (digits, rest)

/-- The greatest whole number below which all are held exactly. -/
def exactLimit : Nat := 0x1FFFFFFFFFFFFF

def integer (n : Int) : Setting :=
  if n.natAbs ≤ exactLimit then .number (.ofInt n) else .greatInteger n

/-- A value, with the word by which items of one list have to agree. -/
structure Typed where
  value : Setting
  type : String

def readBased (base : Nat) (s : List Char) : Option (Typed × List Char) := do
  let (digits, rest) ← readDigits base s.length s
  if digits.isEmpty then none
  else pure (⟨integer (Number.ofDigits base digits), "integer"⟩, rest)

def readPower (s : List Char) : Option (Int × List Char) := do
  let (negative, body) := Number.spanSign s
  let (digits, rest) ← readDigits 10 (body.length + 1) body
  if digits.isEmpty then none
  else
    let n : Int := Number.ofDigits 10 digits
    pure (if negative then -n else n, rest)

def readNumber (negative : Bool) (s : List Char) : Option (Typed × List Char) := do
  let (whole, rest) ← match s with
    | '0' :: rest => some (['0'], rest)
    | _ => readDigits 10 s.length s
  if whole.isEmpty then none
  else
    let (isFloat, fraction, rest) ← match rest with
      | '.' :: more => do
        let (digits, after) ← readDigits 10 (more.length + 1) more
        if digits.isEmpty then none else some (true, digits, after)
      | _ => some (false, [], rest)
    let (isFloat, power, rest) ← match rest with
      | e :: more =>
        if e = 'e' ∨ e = 'E' then (readPower more).map fun (power, after) => (true, power, after)
        else some (isFloat, 0, rest)
      | [] => some (isFloat, 0, [])
    if isFloat then
      pure (⟨.number (Number.signed negative (Number.scaled whole fraction power)), "float"⟩, rest)
    else
      let n : Int := Number.ofDigits 10 whole
      pure (⟨integer (if negative then -n else n), "integer"⟩, rest)

def readCount (count : Nat) (s : List Char) : Option (List Char × List Char) :=
  let digits := s.take count
  if digits.length = count ∧ digits.all Text.isAsciiDigit then some (digits, s.drop count) else none

def readPair (greatest : Nat) (s : List Char) : Option (List Char × List Char) := do
  let (digits, rest) ← readCount 2 s
  if Number.ofDigits 10 digits ≤ greatest then pure (digits, rest) else none

def readMark (mark : Char) : List Char → Option (List Char)
  | c :: rest => if c = mark then some rest else none
  | [] => none

def readTime (s : List Char) : Option (List Char × List Char) := do
  let (hour, rest) ← readPair 24 s
  let rest ← readMark ':' rest
  let (minute, rest) ← readPair 59 rest
  let rest ← readMark ':' rest
  let (second, rest) ← readPair 59 rest
  let time := hour ++ ':' :: minute ++ ':' :: second
  match rest with
  | '.' :: more => do
    let digits := more.takeWhile Text.isAsciiDigit
    if digits.isEmpty then none
    else pure (time ++ '.' :: digits, more.drop digits.length)
  | _ => pure (time, rest)

def readZone (s : List Char) : Option (List Char × List Char) :=
  match s with
  | 'Z' :: rest => some (['Z'], rest)
  | sign :: rest =>
    if sign = '+' ∨ sign = '-' then do
      let (hour, rest) ← readPair 24 rest
      let rest ← readMark ':' rest
      let (minute, rest) ← readPair 59 rest
      pure (sign :: hour ++ ':' :: minute, rest)
    else some ([], s)
  | [] => some ([], [])

def readDay (s : List Char) : Option (Typed × List Char) := do
  let (year, rest) ← readCount 4 s
  let rest ← readMark '-' rest
  let (month, rest) ← readPair 12 rest
  let rest ← readMark '-' rest
  let (day, rest) ← readPair 31 rest
  if month = ['0', '0'] ∨ day = ['0', '0'] then none
  else
    let date := year ++ '-' :: month ++ '-' :: day
    let found (spelling : List Char) (rest : List Char) : Option (Typed × List Char) :=
      some (⟨.moment (String.ofList spelling), "datetime"⟩, rest)
    match rest with
    | c :: more =>
      if c = 'T' ∨ (c = ' ' ∧ more.head?.any Text.isAsciiDigit) then do
        let (time, rest) ← readTime more
        let (zone, rest) ← readZone rest
        found (date ++ 'T' :: time ++ zone) rest
      else if atWordEnd rest then found date rest
      else none
    | [] => found date []

def readOnlyTime (s : List Char) : Option (Typed × List Char) := do
  let (time, rest) ← readTime s
  pure (⟨.moment (String.ofList time), "datetime"⟩, rest)

def readWord (word : String) (value : Typed) (s : List Char) : Option (Typed × List Char) :=
  if word.toList.isPrefixOf s then some (value, s.drop word.length) else none

def readSigned (negative : Bool) (s : List Char) : Option (Typed × List Char) :=
  match s.head? with
  | some 'i' => readWord "inf" ⟨.number (.infinite negative), "number"⟩ s
  | some 'n' => readWord "nan" ⟨.number .notANumber, "number"⟩ s
  | _ => readNumber negative s

def readScalar (s : List Char) : Option (Typed × List Char) :=
  let quoted (quote : Char) (rest : List Char) : Option (Typed × List Char) :=
    (readText quote rest).map fun (body, after) => (⟨.text (String.ofList body), "string"⟩, after)
  match s with
  | '"' :: rest => quoted '"' rest
  | '\'' :: rest => quoted '\'' rest
  | '-' :: rest => readSigned true rest
  | '+' :: rest => readSigned false rest
  | 't' :: _ => readWord "true" ⟨.flag true, "boolean"⟩ s
  | 'f' :: _ => readWord "false" ⟨.flag false, "boolean"⟩ s
  | 'i' :: _ => readSigned false s
  | 'n' :: _ => readSigned false s
  | '0' :: 'x' :: rest => readBased 16 rest
  | '0' :: 'o' :: rest => readBased 8 rest
  | '0' :: 'b' :: rest => readBased 2 rest
  | _ =>
    let digits := s.takeWhile Text.isAsciiDigit
    match s.drop digits.length with
    | '-' :: _ => readDay s
    | ':' :: _ => readOnlyTime s
    | _ => readNumber false s

end EndpointAtlas.Toml
