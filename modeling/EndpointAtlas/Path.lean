import EndpointAtlas.Text.Units

set_option autoImplicit false

namespace EndpointAtlas.Path

def pieces (path : String) : List String :=
  (Text.splitOn (· == '/') path.toList).map String.ofList

def isAbsolute (path : String) : Bool := path.toList.head? = some '/'

def endsInSlash (path : String) : Bool := path.toList.getLast? = some '/'

/-- Takes one more piece: a double dot takes the last piece away, or stays where `above` allows it.
The pieces so far come last first. -/
def step (above : Bool) (done : List String) (piece : String) : List String :=
  if piece = "" ∨ piece = "." then done
  else if piece = ".." then
    match done with
    | [] => if above then [".."] else []
    | last :: rest => if last = ".." then ".." :: last :: rest else rest
  else piece :: done

def simplified (above : Bool) (path : String) : List String :=
  ((pieces path).foldl (step above) []).reverse

/-- Pieces with slashes between them. -/
def glue (parts : List String) : String := String.intercalate "/" parts

/-- A path in its simplest spelling; a slash at the end stays. -/
def normalize (path : String) : String :=
  if path = "" then "."
  else
    let absolute := isAbsolute path
    let body := glue (simplified (!absolute) path)
    if body = "" then if absolute then "/" else if endsInSlash path then "./" else "."
    else (if absolute then "/" else "") ++ body ++ (if endsInSlash path then "/" else "")

def join (parts : List String) : String :=
  let parts := parts.filter (· ≠ "")
  if parts.isEmpty then "." else normalize (glue parts)

def resolve (current path : String) : String :=
  let whole := if isAbsolute path then path else current ++ "/" ++ path
  "/" ++ glue (simplified false whole)

def withoutEndSlashes (path : List Char) : List Char :=
  (path.reverse.dropWhile (· == '/')).reverse

def baseName (path : String) : String :=
  String.ofList ((withoutEndSlashes path.toList).reverse.takeWhile (· ≠ '/')).reverse

def parent (path : String) : String :=
  let body := (withoutEndSlashes path.toList).reverse.dropWhile (· ≠ '/')
  match body with
  | [] => if isAbsolute path then "/" else "."
  | _ :: rest =>
    if rest.isEmpty then "/" else String.ofList rest.reverse

/-- The extension of a path's last piece, from its last dot on; a piece that only starts with a dot
has none. -/
def extension (path : String) : String :=
  let name := (baseName path).toList
  let tail := (name.reverse.takeWhile (· ≠ '.')).reverse
  let stem := name.take (name.length - tail.length - 1)
  if !name.contains '.' ∨ stem.isEmpty ∨ name = ['.', '.'] then "" else String.ofList ('.' :: tail)

def dropShared : List String → List String → List String × List String
  | a :: s, b :: t => if a = b then dropShared s t else (a :: s, b :: t)
  | s, t => (s, t)

def relative (current start target : String) : String :=
  let (up, down) :=
    dropShared (simplified false (resolve current start))
      (simplified false (resolve current target))
  glue (up.map (fun _ => "..") ++ down)

def beginnings {α : Type} : List α → List (List α)
  | [] => [[]]
  | a :: rest => [] :: (beginnings rest).map (a :: ·)

end EndpointAtlas.Path
