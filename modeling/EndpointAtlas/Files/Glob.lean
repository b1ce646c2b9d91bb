import EndpointAtlas.Text.LetterCase
import EndpointAtlas.Text.Units

/-!
Patterns for the names of files and directories, matched in any letter case: a star stands for any
characters of a name, a question mark for one, brackets for one of several, braces for one of
several texts, and two stars for any directories.
-/

set_option autoImplicit false

namespace EndpointAtlas.Glob

inductive Piece where
  | exactly (c : Char)
  | one
  | some_
  | oneOf (negated : Bool) (ranges : List (Char × Char))
  deriving DecidableEq, Repr

/-- A pattern for one name, or for any names one below the other. -/
inductive Part where
  | name (pieces : List Piece)
  | anyDepth
  deriving DecidableEq, Repr

def sameLetter (a b : Char) : Bool := Text.caseless a == Text.caseless b

def inRange (c : Char) (range : Char × Char) : Bool :=
  let within (d : Char) : Bool := range.1 ≤ d && d ≤ range.2
  within c || (Text.small c).any within || (Text.capital c).any within

def endings {α : Type} : List α → List (List α)
  | [] => [[]]
  | a :: rest => (a :: rest) :: endings rest

def matchPieces : List Piece → List Char → Bool
  | [], s => s.isEmpty
  | .some_ :: pieces, s => (endings s).any (matchPieces pieces)
  | .exactly c :: pieces, d :: rest => sameLetter c d && matchPieces pieces rest
  | .one :: pieces, _ :: rest => matchPieces pieces rest
  | .oneOf negated ranges :: pieces, d :: rest =>
    (ranges.any (inRange d) != negated) && matchPieces pieces rest
  | _ :: _, [] => false

/-- Does a pattern name its last directory only by how that starts? Something has to lie below such
a one. -/
def endsOpen : List Part → Bool
  | [] => false
  | .anyDepth :: parts => endsOpen parts
  | .name pieces :: parts =>
    if parts.all (· == .anyDepth) then pieces.getLast? == some .some_ else endsOpen parts

/-- Do names match the parts of a pattern, from the first to the last? With `below`, the names that
its last stars stand for may not be missing. -/
def matchAll (below : Bool) : List Part → List (List Char) → Bool
  | [], names => names.isEmpty
  | .anyDepth :: parts, names =>
    if parts.isEmpty then !below || !names.isEmpty else (endings names).any (matchAll below parts)
  | .name pieces :: parts, first :: rest =>
    !first.isEmpty && matchPieces pieces first && matchAll below parts rest
  | .name _ :: _, [] => false

def readRanges : List Char → Option (List (Char × Char) × List Char)
  | [] => none
  | ']' :: rest => some ([], rest)
  | a :: '-' :: b :: rest =>
    if b = ']' then some ([(a, a), ('-', '-')], rest)
    else (readRanges rest).map fun (ranges, after) => ((a, b) :: ranges, after)
  | a :: rest => (readRanges rest).map fun (ranges, after) => ((a, a) :: ranges, after)

def readPieces : Nat → List Char → List Piece
  | 0, _ => []
  | _, [] => []
  | fuel + 1, c :: rest =>
    if c = '*' then .some_ :: readPieces fuel rest
    else if c = '?' then .one :: readPieces fuel rest
    else if c = '\\' then
      match rest with
      | d :: more => .exactly d :: readPieces fuel more
      | [] => [.exactly c]
    else if c = '[' then
      let (negated, inside) := match rest with
        | '!' :: more => (true, more)
        | '^' :: more => (true, more)
        | more => (false, more)
      match readRanges inside with
      | some (ranges, after) =>
        if ranges.isEmpty then .exactly c :: readPieces fuel rest
        else .oneOf negated ranges :: readPieces fuel after
      | none => .exactly c :: readPieces fuel rest
    else .exactly c :: readPieces fuel rest

/-- The texts between the commas of braces, and what follows the closing one; `depth` counts braces
inside. -/
def readChoices (depth : Nat) (current : List Char) :
    List Char → Option (List (List Char) × List Char)
  | [] => none
  | c :: rest =>
    if c = '}' then
      if depth = 0 then some ([current.reverse], rest)
      else readChoices (depth - 1) (c :: current) rest
    else if c = ',' ∧ depth = 0 then
      (readChoices depth [] rest).map fun (choices, after) => (current.reverse :: choices, after)
    else readChoices (if c = '{' then depth + 1 else depth) (c :: current) rest

def expand : Nat → List Char → List (List Char)
  | 0, s => [s]
  | _, [] => [[]]
  | fuel + 1, c :: rest =>
    let plain := (expand fuel rest).map (c :: ·)
    if c = '{' then
      match readChoices 0 [] rest with
      | some (choices, after) =>
        if 1 < choices.length then choices.flatMap fun choice => expand fuel (choice ++ after)
        else plain
      | none => plain
    else plain

def parts (pattern : List Char) : List Part :=
  ((Text.splitOn (· == '/') pattern).filter fun name => !name.isEmpty).map fun name =>
    if name = ['*', '*'] then .anyDepth else .name (readPieces name.length name)

def accepts (pattern : String) (names : List (List Char)) : Bool :=
  (expand pattern.length pattern.toList).any fun choice =>
    matchAll (endsOpen (parts choice)) (parts choice) names

end EndpointAtlas.Glob
