/-!
Text measured in 16-bit units. A character outside the basic plane counts as two units, so an offset
in units can fall inside such a character; it then counts the whole character.
-/

set_option autoImplicit false

namespace EndpointAtlas.Text

def width (c : Char) : Nat := if c.toNat < 0x10000 then 1 else 2

theorem width_pos (c : Char) : 0 < width c := by
  unfold width; split <;> omega

def units : List Char → Nat
  | [] => 0
  | c :: rest => width c + units rest

@[simp] theorem units_nil : units [] = 0 := rfl

@[simp] theorem units_cons (c : Char) (rest : List Char) :
    units (c :: rest) = width c + units rest := rfl

@[simp] theorem units_append (s t : List Char) : units (s ++ t) = units s + units t := by
  induction s <;> simp_all [Nat.add_assoc]

def takeUnits : Nat → List Char → List Char
  | _, [] => []
  | n, c :: rest => if n = 0 then [] else c :: takeUnits (n - width c) rest

def dropUnits : Nat → List Char → List Char
  | _, [] => []
  | n, c :: rest => if n = 0 then c :: rest else dropUnits (n - width c) rest

theorem takeUnits_append_dropUnits (n : Nat) (s : List Char) :
    takeUnits n s ++ dropUnits n s = s := by
  induction s generalizing n with
  | nil => rfl
  | cons c rest ih => by_cases h : n = 0 <;> simp [takeUnits, dropUnits, h, ih]

@[simp] theorem dropUnits_units (s t : List Char) : dropUnits (units s) (s ++ t) = t := by
  induction s with
  | nil => cases t <;> simp [dropUnits]
  | cons c rest ih =>
    have := width_pos c
    have : width c + units rest ≠ 0 := by omega
    simp only [units_cons, List.cons_append, dropUnits, this, if_false, Nat.add_sub_cancel_left, ih]

/-- The part of a text from unit `start` up to unit `stop`. -/
def slice (s : List Char) (start stop : Nat) : List Char :=
  takeUnits (stop - start) (dropUnits start s)

def unitsOf (c : Char) : List Nat :=
  if c.toNat < 0x10000 then [c.toNat]
  else [0xD800 + (c.toNat - 0x10000) / 0x400, 0xDC00 + (c.toNat - 0x10000) % 0x400]

/-- The order of two unit sequences: by the first difference, a proper beginning first. -/
def unitsBefore : List Nat → List Nat → Bool
  | [], _ => true
  | _ :: _, [] => false
  | a :: s, b :: t => a < b || (a == b && unitsBefore s t)

def atMost (s t : String) : Bool :=
  unitsBefore (s.toList.flatMap unitsOf) (t.toList.flatMap unitsOf)

def sorted (names : List String) : List String := names.mergeSort atMost

def startsWith (s t : String) : Bool := t.toList.isPrefixOf s.toList

def endsWith (s t : String) : Bool := t.toList.isSuffixOf s.toList

def contains (part : List Char) : List Char → Bool
  | [] => part.isEmpty
  | c :: rest => part.isPrefixOf (c :: rest) || contains part rest

def splitOn (isBreak : Char → Bool) : List Char → List (List Char)
  | [] => [[]]
  | c :: rest =>
    match splitOn isBreak rest with
    | [] => [[c]]
    | piece :: pieces => if isBreak c then [] :: piece :: pieces else (c :: piece) :: pieces

theorem splitOn_ne_nil (isBreak : Char → Bool) (s : List Char) : splitOn isBreak s ≠ [] := by
  cases s with
  | nil => simp [splitOn]
  | cons c rest => rw [splitOn]; split <;> (try split) <;> simp

end EndpointAtlas.Text
