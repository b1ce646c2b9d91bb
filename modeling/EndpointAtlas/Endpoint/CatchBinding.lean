import EndpointAtlas.Text.Blank

set_option autoImplicit false

namespace EndpointAtlas.CatchBinding

def binding : List Char := " (__unusedError)".toList

def bareCatch (s : List Char) : Bool :=
  "catch".toList.isPrefixOf s && ((s.drop 5).dropWhile Text.isBlank).head? = some '{'

/-- Copies a text, `copied` characters of a word found before being left, and puts the binding after
the last of them. -/
def bindFrom : Nat → Bool → List Char → List Char
  | _, _, [] => []
  | copied, inWord, c :: rest =>
    match copied with
    | 1 => c :: binding ++ bindFrom 0 true rest
    | n + 2 => c :: bindFrom (n + 1) true rest
    | 0 =>
      if !inWord && bareCatch (c :: rest) then c :: bindFrom 4 true rest
      else c :: bindFrom 0 (Text.isWordChar c) rest

def countFrom : Bool → List Char → Nat
  | _, [] => 0
  | inWord, c :: rest =>
    (if !inWord && bareCatch (c :: rest) then 1 else 0) + countFrom (Text.isWordChar c) rest

def bind (source : List Char) : List Char := bindFrom 0 false source

def count (source : List Char) : Nat := countFrom false source

end EndpointAtlas.CatchBinding
