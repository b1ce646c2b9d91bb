import EndpointAtlas.Number.Basic

set_option autoImplicit false

namespace EndpointAtlas

structure Decimal where
  digits : Nat
  exponent : Int
  deriving DecidableEq, Repr

namespace Decimal

def value (d : Decimal) : Rat := (d.digits : Rat) * Number.tenPow d.exponent

def countDigits (n : Nat) : Nat := (Nat.toDigits 10 n).length

def leading (q : Rat) : Int :=
  let guess : Int := (countDigits q.num.natAbs : Int) - (countDigits q.den : Int)
  if q < Number.tenPow guess then guess - 1 else guess

/-- The neighbours of a positive fraction among the decimals of `count` digits that read back as
`x`, the nearer first. -/
def neighbours (x : Number) (q : Rat) (count : Nat) : List Decimal :=
  let exponent := leading q - count + 1
  let scaled := q * Number.tenPow (-exponent)
  let low : Decimal := ⟨scaled.floor.toNat, exponent⟩
  let high : Decimal := ⟨scaled.floor.toNat + 1, exponent⟩
  let ordered := if scaled - scaled.floor ≤ 1/2 then [low, high] else [high, low]
  ordered.filter fun d => Number.round d.value = x

def exact (q : Rat) : Decimal :=
  let places := q.den.log2
  ⟨q.num.natAbs * Nat.pow 5 places, -places⟩

def trimZeros : Nat → Decimal → Decimal
  | 0, d => d
  | fuel + 1, d =>
    if d.digits ≠ 0 ∧ d.digits % 10 = 0 then trimZeros fuel ⟨d.digits / 10, d.exponent + 1⟩ else d

/-- The shortest decimal that reads back as the positive number of value `q`. -/
def shortest (q : Rat) : Decimal :=
  let found := (List.range 17).findSome? fun k => (neighbours (.finite q) q (k + 1)).head?
  let d := found.getD (exact q)
  trimZeros (countDigits d.digits) d

end Decimal

namespace Number

def zeros (count : Nat) : List Char := List.replicate count '0'

def decimalText (d : Decimal) : List Char :=
  let digits := Nat.toDigits 10 d.digits
  let count : Int := digits.length
  let point := count + d.exponent
  if count ≤ point ∧ point ≤ 21 then digits ++ zeros (point - count).toNat
  else if 0 < point ∧ point ≤ 21 then digits.take point.toNat ++ '.' :: digits.drop point.toNat
  else if -6 < point ∧ point ≤ 0 then '0' :: '.' :: zeros (-point).toNat ++ digits
  else
    let power := point - 1
    let sign := if power < 0 then '-' else '+'
    let scale := 'e' :: sign :: Nat.toDigits 10 power.natAbs
    match digits with
    | [one] => one :: scale
    | first :: rest => first :: '.' :: rest ++ scale
    | [] => scale

def text : Number → String
  | .finite q =>
    if q = 0 then "0"
    else if 0 < q then String.ofList (decimalText (Decimal.shortest q))
    else String.ofList ('-' :: decimalText (Decimal.shortest (-q)))
  | .infinite negative => if negative then "-Infinity" else "Infinity"
  | .notANumber => "NaN"

end Number

end EndpointAtlas
