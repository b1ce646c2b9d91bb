set_option autoImplicit false

namespace EndpointAtlas

inductive Content where
  | text (value : String)
  | octets (value : List Nat)
  deriving DecidableEq, Repr, Inhabited

namespace Content

def octetCount (c : Char) : Nat :=
  if c.toNat < 0x80 then 1 else if c.toNat < 0x800 then 2 else if c.toNat < 0x10000 then 3 else 4

def size : Content → Nat
  | .text s => s.toList.foldl (fun size c => size + octetCount c) 0
  | .octets b => b.length

/-- What the first octet of a character tells: how many follow, its own bits, and the range in which
the next octet has to lie. -/
def lead? (b : Nat) : Option (Nat × Nat × Nat × Nat) :=
  if 0xC2 ≤ b ∧ b ≤ 0xDF then some (1, b % 0x20, 0x80, 0xBF)
  else if b = 0xE0 then some (2, 0, 0xA0, 0xBF)
  else if b = 0xED then some (2, 0xD, 0x80, 0x9F)
  else if 0xE1 ≤ b ∧ b ≤ 0xEF then some (2, b % 0x10, 0x80, 0xBF)
  else if b = 0xF0 then some (3, 0, 0x90, 0xBF)
  else if b = 0xF4 then some (3, 4, 0x80, 0x8F)
  else if 0xF1 ≤ b ∧ b ≤ 0xF3 then some (3, b % 0x08, 0x80, 0xBF)
  else none

/-- A character that has begun: how many octets it still needs, its bits so far, and the range of
the next octet. -/
structure Begun where
  needed : Nat
  bits : Nat
  low : Nat
  high : Nat

def replacement : Char := Char.ofNat 0xFFFD

def start (b : Nat) : List Char × Option Begun :=
  if b < 0x80 then ([Char.ofNat b], none)
  else match lead? b with
    | some (needed, bits, low, high) => ([], some ⟨needed, bits, low, high⟩)
    | none => ([replacement], none)

def take (b : Nat) : Option Begun → List Char × Option Begun
  | none => start b
  | some c =>
    if c.low ≤ b ∧ b ≤ c.high then
      let bits := c.bits * 0x40 + b % 0x40
      if c.needed = 1 then ([Char.ofNat bits], none)
      else ([], some ⟨c.needed - 1, bits, 0x80, 0xBF⟩)
    else
      let (chars, begun) := start b
      (replacement :: chars, begun)

def decode (begun : Option Begun) : List Nat → List Char
  | [] => if begun.isSome then [replacement] else []
  | b :: rest =>
    let (chars, next) := take b begun
    chars ++ decode next rest

def asText : Content → String
  | .text s => s
  | .octets b => String.ofList (decode none b)

end Content

end EndpointAtlas
