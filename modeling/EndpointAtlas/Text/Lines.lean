import EndpointAtlas.Text.Units

set_option autoImplicit false

namespace EndpointAtlas.Text

/-- The number of the line, counted from 1, on which the unit at `offset` stands. -/
def lineAt : List Char → Nat → Nat
  | [], _ => 1
  | c :: rest, offset =>
    if offset = 0 then 1
    else if c = '\n' then lineAt rest (offset - width c) + 1
    else lineAt rest (offset - width c)

theorem one_le_lineAt (s : List Char) (offset : Nat) : 1 ≤ lineAt s offset := by
  induction s generalizing offset with
  | nil => simp [lineAt]
  | cons c rest ih => rw [lineAt]; split <;> (try split) <;> simp [ih]

theorem lineAt_mono (s : List Char) {a b : Nat} (h : a ≤ b) : lineAt s a ≤ lineAt s b := by
  induction s generalizing a b with
  | nil => simp [lineAt]
  | cons c rest ih =>
    have step := ih (show a - width c ≤ b - width c by omega)
    have one := one_le_lineAt rest (b - width c)
    simp only [lineAt]
    split <;> split <;> (try split) <;> omega

def lineCount (s : List Char) : Nat := s.count '\n' + 1

theorem lineAt_le_lineCount (s : List Char) (offset : Nat) : lineAt s offset ≤ lineCount s := by
  induction s generalizing offset with
  | nil => simp [lineAt, lineCount]
  | cons c rest ih =>
    have step := ih (offset - width c)
    simp only [lineAt, lineCount, List.count_cons, beq_iff_eq] at *
    split <;> (try split) <;> omega

def withoutReturn (line : List Char) : List Char :=
  if line.getLast? = some '\r' then line.dropLast else line

/-- Drops the line ends of all pieces but the last, which no line feed ends. -/
def withoutReturns : List (List Char) → List (List Char)
  | [] => []
  | [last] => [last]
  | line :: rest => withoutReturn line :: withoutReturns rest

@[simp] theorem length_withoutReturns (pieces : List (List Char)) :
    (withoutReturns pieces).length = pieces.length := by
  fun_induction withoutReturns pieces <;> simp_all

/-- The lines of a text without their ends; a text that ends with a line end has an empty last
line. -/
def lines (s : List Char) : List (List Char) := withoutReturns (splitOn (· == '\n') s)

def lineTexts (s : String) : List String := (lines s.toList).map String.ofList

end EndpointAtlas.Text
