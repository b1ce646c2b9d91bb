import EndpointAtlas.Number.Literal
import EndpointAtlas.Text.LetterCase
import EndpointAtlas.Text.Units

/-!
Which texts are complete addresses: a scheme, and a host where the scheme asks for one. Of a host in
letters outside ASCII only the characters that no name can hold are refused.
-/

set_option autoImplicit false

namespace EndpointAtlas.Url

def hostSchemes : List String := ["http", "https", "ws", "wss", "ftp"]

def isSchemeChar (c : Char) : Bool :=
  Text.isAsciiLetter c || Text.isAsciiDigit c || c == '+' || c == '-' || c == '.'

/-- An address without spaces and controls at its ends, and without tabs and line ends anywhere. -/
def cleaned (s : List Char) : List Char :=
  let isEdge (c : Char) : Bool := c.toNat ≤ 0x20
  let inner := ((s.dropWhile isEdge).reverse.dropWhile isEdge).reverse
  inner.filter fun c => c ≠ '\t' && c ≠ '\n' && c ≠ '\r'

def isForbidden (c : Char) : Bool :=
  c.toNat = 0 || "\t\n\r #/:<>?@[\\]^|".toList.contains c

/-- Characters that no host name holds: besides those above, controls, the percent sign, spaces
outside ASCII and the replacement character. -/
def isForbiddenInName (c : Char) : Bool :=
  isForbidden c || c.toNat < 0x20 || c = '%' || c.toNat = 0x7F ||
    (Text.isBlank c && c.toNat ≠ 0xFEFF) || c.toNat = 0xFFFD

def isIgnored (c : Char) : Bool :=
  c.toNat = 0xAD || c.toNat = 0x200B || c.toNat = 0x2060 || c.toNat = 0xFEFF
    || (0xFE00 ≤ c.toNat && c.toNat ≤ 0xFE0F)

/-- The plain form of a character of a host name: full-width forms are ASCII, other full stops are
dots. -/
def plainForm (c : Char) : Char :=
  if 0xFF01 ≤ c.toNat ∧ c.toNat ≤ 0xFF5E then Char.ofNat (c.toNat - 0xFEE0)
  else if c.toNat = 0x3002 ∨ c.toNat = 0xFF61 then '.'
  else c

def unescaped : List Char → List Char
  | '%' :: a :: b :: rest =>
    if Number.isDigitOf 16 a ∧ Number.isDigitOf 16 b then
      let octet := Number.ofDigits 16 [a, b]
      (if octet < 0x80 then Char.ofNat octet else 'é') :: unescaped rest
    else '%' :: unescaped (a :: b :: rest)
  | c :: rest => c :: unescaped rest
  | [] => []

/-- The value of one part of an address in numbers: decimal, octal after a zero, hexadecimal after
`0x`. -/
def numberPart? (s : List Char) : Option Nat :=
  let read (base : Nat) (digits : List Char) : Option Nat :=
    if digits.all (Number.isDigitOf base) then some (Number.ofDigits base digits) else none
  match s with
  | [] => none
  | '0' :: 'x' :: digits => read 16 digits
  | '0' :: 'X' :: digits => read 16 digits
  | '0' :: d :: digits => read 8 (d :: digits)
  | digits => read 10 digits

/-- The parts of a host name; an empty one at the end does not count. -/
def nameParts (host : List Char) : List (List Char) :=
  let parts := Text.splitOn (· == '.') host
  if 1 < parts.length ∧ parts.getLast? = some [] then parts.dropLast else parts

/-- Does a host name end in a number, so that it has to be an address in numbers? -/
def endsInNumber (host : List Char) : Bool :=
  match (nameParts host).getLast? with
  | some last => (!last.isEmpty && last.all Text.isAsciiDigit) || (numberPart? last).isSome
  | none => false

/-- Is the host an address in up to four numbers? All but the last are below 256, and the last fills
the octets that are left. -/
def isNumeric (host : List Char) : Bool :=
  let parts := nameParts host
  match parts.mapM numberPart? with
  | some values =>
    values.length ≤ 4 && values.dropLast.all (· < 256) &&
      values.getLast?.any (· < Nat.pow 256 (5 - values.length))
  | none => false

def isOctet (s : List Char) : Bool :=
  !s.isEmpty && s.all Text.isAsciiDigit && (s.length = 1 || s.head? ≠ some '0') &&
    Number.ofDigits 10 s < 256

/-- How many of the eight pieces of an address in brackets these take; four octets, which only the
last can be, take two. -/
def countPieces : List (List Char) → Option Nat
  | [] => some 0
  | [last] =>
    if last.contains '.' then
      let octets := Text.splitOn (· == '.') last
      if octets.length = 4 ∧ octets.all isOctet then some 2 else none
    else if !last.isEmpty ∧ last.length ≤ 4 ∧ last.all (Number.isDigitOf 16) then some 1
    else none
  | piece :: rest =>
    if !piece.isEmpty ∧ piece.length ≤ 4 ∧ piece.all (Number.isDigitOf 16) then
      (countPieces rest).map (· + 1)
    else none

def splitAtGap : List Char → Option (List Char × List Char)
  | ':' :: ':' :: rest => some ([], rest)
  | c :: rest => (splitAtGap rest).map fun (before, after) => (c :: before, after)
  | [] => none

def colonPieces (s : List Char) : List (List Char) :=
  if s.isEmpty then [] else Text.splitOn (· == ':') s

/-- Is this the inside of a host in brackets: eight pieces, or fewer with a double colon for the
zeros? -/
def isBracketed (s : List Char) : Bool :=
  match splitAtGap s with
  | some (before, after) =>
    match countPieces (colonPieces before), countPieces (colonPieces after) with
    | some m, some n => m + n ≤ 7 && !before.contains '.'
    | _, _ => false
  | none => countPieces (colonPieces s) == some 8

/-- Is this a host? Outside the schemes with a host name it is any text without forbidden
characters. -/
def isHost (named : Bool) (host : List Char) : Bool :=
  match host with
  | '[' :: rest => rest.getLast? = some ']' && isBracketed rest.dropLast
  | _ =>
    if named then
      let name := ((unescaped host).filter (!isIgnored ·)).map plainForm
      !name.isEmpty && !name.any isForbiddenInName && (!endsInNumber name || isNumeric name)
    else !host.any isForbidden

def splitPort (inBrackets : Bool) : List Char → List Char × Option (List Char)
  | [] => ([], none)
  | c :: rest =>
    if c = ':' ∧ !inBrackets then ([], some rest)
    else
      let inside := if c = '[' then true else if c = ']' then false else inBrackets
      let (host, port) := splitPort inside rest
      (c :: host, port)

def isPort (port : List Char) : Bool :=
  port.all Text.isAsciiDigit && Number.ofDigits 10 port < 65536

def withoutUser (s : List Char) : Bool × List Char :=
  (s.contains '@', (s.reverse.takeWhile (· ≠ '@')).reverse)

/-- Is this what stands between the slashes of an address and its path: a host, maybe with a user
before and a port after it? -/
def isAuthority (named : Bool) (rest : List Char) : Bool :=
  let ends (c : Char) : Bool := c = '/' || c = '?' || c = '#' || (named && c = '\\')
  let (hasUser, body) := withoutUser (rest.takeWhile (!ends ·))
  match splitPort false body with
  | ([], none) => !named && !hasUser
  | ([], some _) => false
  | (host, port) => isHost named host && port.all isPort

def isFilePart (rest : List Char) : Bool :=
  let isSlash (c : Char) : Bool := c = '/' || c = '\\'
  match rest with
  | a :: b :: more =>
    if isSlash a ∧ isSlash b then
      let host := more.takeWhile fun c => !isSlash c && c ≠ '?' && c ≠ '#'
      match host with
      | [] => true
      | [drive, mark] =>
        (Text.isAsciiLetter drive && (mark = ':' || mark = '|')) || isHost true host
      | _ => isHost true host
    else true
  | _ => true

def isComplete (s : List Char) : Bool :=
  let s := cleaned s
  match s.dropWhile isSchemeChar with
  | ':' :: rest =>
    let scheme := String.ofList ((s.takeWhile isSchemeChar).map Text.smallAscii)
    if !s.head?.any Text.isAsciiLetter then false
    else if scheme = "file" then isFilePart rest
    else if hostSchemes.contains scheme then
      isAuthority true (rest.dropWhile fun c => c = '/' || c = '\\')
    else match rest with
      | '/' :: '/' :: more => isAuthority false more
      | _ => true
  | _ => false

end EndpointAtlas.Url
