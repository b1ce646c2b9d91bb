import EndpointAtlas.Text.Units

set_option autoImplicit false

namespace EndpointAtlas.Similar

def farthest : Nat := 3

/-- The next row of distances: for the beginnings of `word`, the next letter of the other word being
`c`. The rows before are those without that letter and, for swaps, without the letter `before` as
well. -/
def nextRow (c : Char) (before : Option Char) (row older : List Nat)
    (word : List Char) : List Nat :=
  let rec go : Nat → Option Char → List Char → List Nat → List Nat → List Nat
    | _, _, [], _, _ => []
    | left, previous, d :: word, diagonal :: above :: row, older =>
      let cost := if c = d then 0 else 1
      let plain := min (min (above + 1) (left + 1)) (diagonal + cost)
      let swapped := match older with
        | distance :: _ =>
          if previous = some c ∧ before = some d then min plain (distance + 1) else plain
        | [] => plain
      let older := if previous.isSome then older.drop 1 else older
      swapped :: go swapped (some d) word (above :: row) older
    | _, _, _, _, _ => []
  let first := (row.head?.getD 0) + 1
  first :: go first none word row older

def rows (word : List Char) : Option Char → List Nat → List Nat → List Char → List Nat
  | _, row, _, [] => row
  | before, row, older, c :: rest => rows word (some c) (nextRow c before row older word) row rest

/-- How many letters to change, add, drop or swap turn one word into another. Words whose lengths
differ by too much are as far apart as the longer one is long. -/
def distance (a b : List Char) : Nat :=
  if farthest < a.length - b.length ∨ farthest < b.length - a.length then max a.length b.length
  else ((rows a none (List.range (a.length + 1)) [] b).getLast?).getD 0

def nearest (word : List Char) : Nat → List (List Char) → List (List Char) → List (List Char)
  | _, found, [] => found
  | best, found, known :: rest =>
    let far := distance word known
    let length := max word.length known.length
    if known.length ≤ 1 ∨ 10 * (length - far) ≤ 4 * length ∨
      best < far then nearest word best found rest
    else if far < best then nearest word far [known] rest
    else nearest word best (found ++ [known]) rest

def distinct : List String → List String
  | [] => []
  | word :: rest => word :: (distinct rest).filter (· ≠ word)

/-- The line that suggests known words for an unknown one; empty if none is near. Long options are
compared without their dashes. -/
def suggestion (word : String) (known : List String) : String :=
  let isOption := Text.startsWith word "--"
  let bare (s : String) : List Char := if isOption then s.toList.drop 2 else s.toList
  let found := nearest (bare word) farthest [] ((distinct known).map bare)
  let shown := (Text.sorted (found.map String.ofList)).map fun s =>
    if isOption then "--" ++ s else s
  match shown with
  | [] => ""
  | [one] => "\n(Did you mean " ++ one ++ "?)"
  | several => "\n(Did you mean one of " ++ String.intercalate ", " several ++ "?)"

end EndpointAtlas.Similar
