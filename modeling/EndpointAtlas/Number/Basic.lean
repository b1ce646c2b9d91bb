/-!
Numbers of the 64-bit binary floating format, held by their exact values: a finite number is a
fraction. Reading a decimal rounds it to the nearest such number, and to the one with an even last
place on a tie.
-/

set_option autoImplicit false

namespace EndpointAtlas

/-- A number of the 64-bit binary floating format. Both zeros are the fraction zero. -/
inductive Number where
  | finite (value : Rat)
  | infinite (negative : Bool)
  | notANumber
  deriving DecidableEq, Repr, Inhabited

namespace Number

def ofInt (n : Int) : Number := .finite n

def ofNat (n : Nat) : Number := .finite n

def toInt? : Number → Option Int
  | .finite q => if q.den = 1 then some q.num else none
  | _ => none

def isWhole (x : Number) : Bool := x.toInt?.isSome

/-- A number is at least `bound`; no number that is not one is. -/
def atLeast (bound : Int) : Number → Bool
  | .finite q => (bound : Rat) ≤ q
  | .infinite negative => !negative
  | .notANumber => false

def atMost (bound : Int) : Number → Bool
  | .finite q => q ≤ (bound : Rat)
  | .infinite negative => negative
  | .notANumber => false

def twoPow (e : Int) : Rat :=
  if 0 ≤ e then (Nat.pow 2 e.toNat : Rat) else mkRat 1 (Nat.pow 2 (-e).toNat)

def tenPow (e : Int) : Rat :=
  if 0 ≤ e then (Nat.pow 10 e.toNat : Rat) else mkRat 1 (Nat.pow 10 (-e).toNat)

/-- The whole number nearest to a fraction, the even one on a tie. -/
def nearest (q : Rat) : Int :=
  let low := q.floor
  let rest := q - low
  if rest < 1/2 then low
  else if 1/2 < rest then low + 1
  else if low % 2 = 0 then low else low + 1

/-- The power of two that the last place of a positive fraction stands for: places are counted so
that 53 of them are used, or fewer below the least power of the format. -/
def lastPlace (q : Rat) : Int :=
  let guess : Int := (q.num.natAbs.log2 : Int) - (q.den.log2 : Int) - 52
  let e := if q < twoPow (guess + 52) then guess - 1 else guess
  max e (-1074)

def greatest : Rat := (0x1FFFFFFFFFFFFF : Nat) * twoPow 971

def roundPositive (q : Rat) : Number :=
  let e := lastPlace q
  let rounded := (nearest (q * twoPow (-e)) : Rat) * twoPow e
  if greatest < rounded then .infinite false else .finite rounded

def round (q : Rat) : Number :=
  if q = 0 then .finite 0
  else if 0 < q then roundPositive q
  else match roundPositive (-q) with
    | .finite r => .finite (-r)
    | _ => .infinite true

def truncated : Number → Int
  | .finite q => if 0 ≤ q then q.floor else q.ceil
  | _ => 0

end Number

end EndpointAtlas
