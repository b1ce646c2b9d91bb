import EndpointAtlas.Number.Basic
import EndpointAtlas.Text.Blank

set_option autoImplicit false

namespace EndpointAtlas.Number

def digit? (c : Char) : Option Nat :=
  if '0' ≤ c && c ≤ '9' then some (c.toNat - '0'.toNat)
  else if 'a' ≤ c && c ≤ 'z' then some (c.toNat - 'a'.toNat + 10)
  else if 'A' ≤ c && c ≤ 'Z' then some (c.toNat - 'A'.toNat + 10)
  else none

def isDigitOf (base : Nat) (c : Char) : Bool := (digit? c).any (· < base)

def ofDigits (base : Nat) (digits : List Char) : Nat :=
  digits.foldl (fun sum c => sum * base + (digit? c).getD 0) 0

def spanDigits (s : List Char) : List Char × List Char :=
  (s.takeWhile Text.isAsciiDigit, s.dropWhile Text.isAsciiDigit)

def spanSign : List Char → Bool × List Char
  | '-' :: rest => (true, rest)
  | '+' :: rest => (false, rest)
  | rest => (false, rest)

def readExponent (s : List Char) : Option (Int × List Char) :=
  match s with
  | e :: rest =>
    if e = 'e' ∨ e = 'E' then
      let (negative, body) := spanSign rest
      let (digits, after) := spanDigits body
      if digits.isEmpty then none
      else some (if negative then -(ofDigits 10 digits : Int) else ofDigits 10 digits, after)
    else some (0, s)
  | [] => some (0, [])

/-- The number that digits before and after the point and an exponent give. An exponent far outside
the format's range is cut off, which changes nothing after rounding. -/
def scaled (whole fraction : List Char) (exponent : Int) : Number :=
  let digits := ofDigits 10 (whole ++ fraction)
  let power := exponent - fraction.length
  let size : Int := (whole ++ fraction).length
  if digits = 0 then .finite 0
  else if 400 < power then .infinite false
  else if power + size < -400 then .finite 0
  else round ((digits : Rat) * tenPow power)

def negate : Number → Number
  | .finite q => .finite (-q)
  | .infinite negative => .infinite (!negative)
  | .notANumber => .notANumber

def signed (negative : Bool) (x : Number) : Number := if negative then x.negate else x

def readDecimal (s : List Char) : Option (Number × List Char) := do
  let (whole, rest) := spanDigits s
  let (fraction, rest) := match rest with
    | '.' :: more => spanDigits more
    | more => ([], more)
  if whole.isEmpty ∧ fraction.isEmpty then none
  else
    let (exponent, rest) ← readExponent rest
    pure (scaled whole fraction exponent, rest)

/-- The number that digits spell to a base; none if another character is among them, or no digit. -/
def ofDigits? (base : Nat) (digits : List Char) : Option Number :=
  if digits.isEmpty ∨ !digits.all (isDigitOf base) then none
  else some (round (ofDigits base digits))

def ofSigned? (s : List Char) : Option Number :=
  let (negative, body) := spanSign s
  if body = "Infinity".toList then some (.infinite negative)
  else match readDecimal body with
    | some (x, []) => some (signed negative x)
    | _ => none

/-- The number that a text spells between blanks. No digits at all spell zero; what spells no number
gives the one that is not a number. -/
def ofText (s : String) : Number :=
  let body := Text.trim s.toList
  let found : Option Number := match body with
    | [] => some (.finite 0)
    | '0' :: mark :: digits =>
      if mark = 'x' ∨ mark = 'X' then ofDigits? 16 digits
      else if mark = 'o' ∨ mark = 'O' then ofDigits? 8 digits
      else if mark = 'b' ∨ mark = 'B' then ofDigits? 2 digits
      else ofSigned? body
    | _ => ofSigned? body
  found.getD .notANumber

end EndpointAtlas.Number
