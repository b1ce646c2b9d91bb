import EndpointAtlas.Json.Value
import EndpointAtlas.Number.Literal

/-!
Reading JSON. Blanks are space, tab, line feed and carriage return; nothing may follow the value.
Half a character pair in an escape stands for the replacement character.
-/

set_option autoImplicit false

namespace EndpointAtlas.Json

def isSpace (c : Char) : Bool := c == ' ' || c == '\t' || c == '\n' || c == '\r'

def skipSpace (s : List Char) : List Char := s.dropWhile isSpace

def readHex4 : List Char → Option (Nat × List Char)
  | a :: b :: c :: d :: rest =>
    let digits := [a, b, c, d]
    if digits.all (Number.isDigitOf 16) then some (Number.ofDigits 16 digits, rest) else none
  | _ => none

def escaped? (c : Char) : Option Char :=
  if c = '"' ∨ c = '\\' ∨ c = '/' then some c
  else if c = 'b' then some (Char.ofNat 8)
  else if c = 'f' then some (Char.ofNat 12)
  else if c = 'n' then some '\n'
  else if c = 'r' then some '\r'
  else if c = 't' then some '\t'
  else none

def readUnit (s : List Char) : Option (Char × List Char) := do
  let (high, rest) ← readHex4 s
  if 0xD800 ≤ high ∧ high < 0xDC00 then
    match rest with
    | '\\' :: 'u' :: more =>
      let (low, after) ← readHex4 more
      if 0xDC00 ≤ low ∧ low < 0xE000 then
        pure (Char.ofNat (0x10000 + (high - 0xD800) * 0x400 + (low - 0xDC00)), after)
      else pure (Char.ofNat 0xFFFD, rest)
    | _ => pure (Char.ofNat 0xFFFD, rest)
  else if 0xDC00 ≤ high ∧ high < 0xE000 then pure (Char.ofNat 0xFFFD, rest)
  else pure (Char.ofNat high, rest)

def readText : Nat → List Char → Option (List Char × List Char)
  | 0, _ => none
  | _, [] => none
  | fuel + 1, c :: rest =>
    if c = '"' then some ([], rest)
    else if c = '\\' then
      match rest with
      | 'u' :: more => do
        let (d, after) ← readUnit more
        let (s, last) ← readText fuel after
        pure (d :: s, last)
      | e :: more => do
        let d ← escaped? e
        let (s, last) ← readText fuel more
        pure (d :: s, last)
      | [] => none
    else if c.toNat < 32 then none
    else do
      let (s, last) ← readText fuel rest
      pure (c :: s, last)

def readFraction (s : List Char) : Option (List Char × List Char) :=
  match s with
  | '.' :: more =>
    let (digits, after) := Number.spanDigits more
    if digits.isEmpty then none else some (digits, after)
  | _ => some ([], s)

/-- Reads a number without its sign: its digits before the point start with no zero but a single
one. -/
def readUnsigned (s : List Char) : Option (Number × List Char) := do
  let (whole, rest) := Number.spanDigits s
  if whole.isEmpty ∨ (whole.head? = some '0' ∧ whole.length ≠ 1) then none
  else
    let (fraction, rest) ← readFraction rest
    let (exponent, rest) ← Number.readExponent rest
    pure (Number.scaled whole fraction exponent, rest)

def readNumber (s : List Char) : Option (Number × List Char) :=
  match s with
  | '-' :: more => (readUnsigned more).map fun (x, rest) => (x.negate, rest)
  | _ => readUnsigned s

def readWord (word : String) (value : Json) (s : List Char) : Option (Json × List Char) :=
  if word.toList.isPrefixOf s then some (value, s.drop word.length) else none

mutual

def readValue : Nat → List Char → Option (Json × List Char)
  | 0, _ => none
  | _, [] => none
  | fuel + 1, c :: rest =>
    if c = '"' then do
      let (s, after) ← readText rest.length.succ rest
      pure (.text (String.ofList s), after)
    else if c = '[' then
      match skipSpace rest with
      | ']' :: after => some (.list [], after)
      | body => do
        let (items, after) ← readItems fuel body
        pure (.list items, after)
    else if c = '{' then
      match skipSpace rest with
      | '}' :: after => some (.object [], after)
      | body => do
        let (fields, after) ← readFields fuel body
        pure (.object (Entries.ofList fields), after)
    else if c = 't' then readWord "true" (.bool true) (c :: rest)
    else if c = 'f' then readWord "false" (.bool false) (c :: rest)
    else if c = 'n' then readWord "null" .null (c :: rest)
    else do
      let (x, after) ← readNumber (c :: rest)
      pure (.number x, after)

def readItems : Nat → List Char → Option (List Json × List Char)
  | 0, _ => none
  | fuel + 1, s => do
    let (item, rest) ← readValue fuel s
    match skipSpace rest with
    | ',' :: more => do
      let (items, after) ← readItems fuel (skipSpace more)
      pure (item :: items, after)
    | ']' :: after => pure ([item], after)
    | _ => none

def readFields : Nat → List Char → Option (List (String × Json) × List Char)
  | 0, _ => none
  | fuel + 1, s =>
    match s with
    | '"' :: rest => do
      let (name, rest) ← readText rest.length.succ rest
      match skipSpace rest with
      | ':' :: more => do
        let (value, rest) ← readValue fuel (skipSpace more)
        match skipSpace rest with
        | ',' :: more => do
          let (fields, after) ← readFields fuel (skipSpace more)
          pure ((String.ofList name, value) :: fields, after)
        | '}' :: after => pure ([(String.ofList name, value)], after)
        | _ => none
      | _ => none
    | _ => none

end

def read? (s : List Char) : Option Json :=
  match readValue (2 * s.length + 2) (skipSpace s) with
  | some (value, rest) => if (skipSpace rest).isEmpty then some value else none
  | none => none

def parse? (s : String) : Option Json := read? s.toList

end EndpointAtlas.Json
