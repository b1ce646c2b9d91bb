import EndpointAtlas.Files.Content
import EndpointAtlas.Path

/-!
A tree of files and directories, by location. Main statements: what a write and a removal do to the
content at every location.
-/

set_option autoImplicit false

namespace EndpointAtlas

/-- A place in a file tree: the names that lead to it from the root. -/
abbrev Location := List String

inductive FileError where
  | noEntry (action path : String)
  | isDirectory (action path : String)
  | notDirectory (action path : String)
  | exists_ (action path : String)
  | nameTooLong (action path : String)
  deriving DecidableEq, Repr

namespace FileError

def code : FileError → String
  | .noEntry _ _ => "ENOENT"
  | .isDirectory _ _ => "EISDIR"
  | .notDirectory _ _ => "ENOTDIR"
  | .exists_ _ _ => "EEXIST"
  | .nameTooLong _ _ => "ENAMETOOLONG"

def reason : FileError → String
  | .noEntry _ _ => "no such file or directory"
  | .isDirectory _ _ => "illegal operation on a directory"
  | .notDirectory _ _ => "not a directory"
  | .exists_ _ _ => "file already exists"
  | .nameTooLong _ _ => "name too long"

def subject : FileError → String × String
  | .noEntry action path => (action, path)
  | .isDirectory action path => (action, path)
  | .notDirectory action path => (action, path)
  | .exists_ action path => (action, path)
  | .nameTooLong action path => (action, path)

def message (e : FileError) : String :=
  let (action, path) := e.subject
  e.code ++ ": " ++ e.reason ++ ", " ++ action ++
    (if path = "" then "" else " '" ++ path ++ "'")

end FileError

/-- Files and directories, and the directory that relative paths start from. The root is a directory
without being listed. -/
structure FileTree where
  current : String
  files : List (Location × Content)
  directories : List Location
  deriving DecidableEq, Repr, Inhabited

namespace FileTree

def empty (current : String) : FileTree := ⟨current, [], []⟩

def resolve (tree : FileTree) (path : String) : String := Path.resolve tree.current path

def locate (tree : FileTree) (path : String) : Location :=
  Path.simplified false (tree.resolve path)

def content? (tree : FileTree) (location : Location) : Option Content := tree.files.lookup location

def hasDirectory (tree : FileTree) (location : Location) : Bool :=
  location.isEmpty || tree.directories.contains location

def hasFile (tree : FileTree) (location : Location) : Bool := (tree.content? location).isSome

/-- Is there a regular file at a path? A path that ends in a slash names none. -/
def isFile (tree : FileTree) (path : String) : Bool :=
  !Path.endsInSlash path && tree.hasFile (tree.locate path)

def isDirectory (tree : FileTree) (path : String) : Bool := tree.hasDirectory (tree.locate path)

def exists_ (tree : FileTree) (path : String) : Bool := tree.isFile path || tree.isDirectory path

def blocked (tree : FileTree) (location : Location) : Bool :=
  (Path.beginnings location).dropLast.any tree.hasFile

/-- Is a name on the way longer than file systems take? -/
def tooLong (location : Location) : Bool :=
  location.any fun name => 255 < (Content.text name).size

def absence (tree : FileTree) (action path : String) : FileError :=
  if tooLong (tree.locate path) then .nameTooLong action path
  else if tree.blocked (tree.locate path) then .notDirectory action path
  else .noEntry action path

def read (tree : FileTree) (path : String) : Except FileError Content :=
  if tree.isDirectory path then .error (.isDirectory "read" "")
  else if Path.endsInSlash path && tree.hasFile (tree.locate path) then
    .error (.notDirectory "open" path)
  else match tree.content? (tree.locate path) with
    | some content => .ok content
    | none => .error (tree.absence "open" path)

def sizeOf (tree : FileTree) (path : String) : Except FileError Nat :=
  if tree.isDirectory path then .ok 4096
  else match tree.content? (tree.locate path) with
    | some content => .ok content.size
    | none => .error (tree.absence "stat" path)

def putAt (location : Location) (content : Content) :
    List (Location × Content) → List (Location × Content)
  | [] => [(location, content)]
  | (key, old) :: rest =>
    if key = location then (key, content) :: rest else (key, old) :: putAt location content rest

def put (tree : FileTree) (location : Location) (content : Content) : FileTree :=
  { tree with files := putAt location content tree.files }

def write (tree : FileTree) (path : String) (content : Content) : Except FileError FileTree :=
  let location := tree.locate path
  if tree.isDirectory path then .error (.isDirectory "open" path)
  else if tooLong location || !tree.hasDirectory location.dropLast then
    .error (tree.absence "open" path)
  else .ok (tree.put location content)

def addDirectory (tree : FileTree) (location : Location) : FileTree :=
  if tree.hasDirectory location then tree
  else { tree with directories := tree.directories ++ [location] }

def makeDirectory (tree : FileTree) (path : String) : Except FileError FileTree :=
  let location := tree.locate path
  if tree.hasFile location then .error (.exists_ "mkdir" path)
  else if tree.blocked location then .error (.notDirectory "mkdir" path)
  else if tooLong location then .error (.nameTooLong "mkdir" path)
  else .ok ((Path.beginnings location).foldl addDirectory tree)

def removeAt (tree : FileTree) (location : Location) : FileTree :=
  { tree with
    files := tree.files.filter fun entry => !location.isPrefixOf entry.1
    directories := tree.directories.filter fun directory => !location.isPrefixOf directory }

def remove (tree : FileTree) (path : String) : FileTree := tree.removeAt (tree.locate path)

def namesIn (tree : FileTree) (path : String) : Except FileError (List String) :=
  let location := tree.locate path
  if !tree.hasDirectory location then
    .error (if tree.hasFile location then .notDirectory "scandir" path
      else tree.absence "scandir" path)
  else
    let child? (other : Location) : Option String :=
      if location.isPrefixOf other ∧ other.length = location.length + 1 then other.getLast?
      else none
    .ok (tree.files.filterMap (fun entry => child? entry.1) ++ tree.directories.filterMap child?)

/-- Everything below a directory, as paths from there in listing order; directories end in a
slash. -/
def listing (tree : FileTree) (path : String) : Except FileError (List String) :=
  let location := tree.locate path
  if !tree.hasDirectory location then
    .error (if tree.hasFile location then .notDirectory "scandir" path
      else tree.absence "scandir" path)
  else
    let below (other : Location) (ending : String) : Option String :=
      if location.isPrefixOf other ∧ location.length < other.length then
        some (Path.glue (other.drop location.length) ++ ending)
      else none
    .ok (Text.sorted (tree.files.filterMap (fun entry => below entry.1 "")
      ++ tree.directories.filterMap fun directory => below directory "/"))

theorem lookup_putAt (location other : Location) (content : Content)
    (files : List (Location × Content)) :
    (putAt location content files).lookup other =
      if other = location then some content else files.lookup other := by
  induction files with
  | nil =>
    by_cases h : other = location
    · simp [putAt, h]
    · simp [putAt, List.lookup_cons, h, show (other == location) = false by simpa using h]
  | cons entry rest ih =>
    obtain ⟨key, old⟩ := entry
    by_cases hk : key = location
    · subst hk
      by_cases ho : other = key
      · simp [putAt, ho]
      · simp [putAt, List.lookup_cons, ho, show (other == key) = false by simpa using ho]
    · by_cases ho : other = key
      · subst ho
        simp [putAt, hk]
      · simp only [putAt, hk, if_false, List.lookup_cons,
          show (other == key) = false by simpa using ho, ih]

theorem content?_put (tree : FileTree) (location other : Location) (content : Content) :
    (tree.put location content).content? other =
      if other = location then some content else tree.content? other :=
  lookup_putAt location other content tree.files

theorem content?_removeAt (tree : FileTree) (location other : Location) :
    (tree.removeAt location).content? other =
      if location.isPrefixOf other then none else tree.content? other := by
  unfold content? removeAt
  induction tree.files with
  | nil => simp
  | cons entry rest ih =>
    obtain ⟨key, old⟩ := entry
    cases hp : location.isPrefixOf key with
    | true =>
      simp only [List.filter, hp, Bool.not_true, List.lookup_cons]
      rw [ih]
      by_cases ho : other = key
      · simp [ho, hp]
      · simp [show (other == key) = false by simpa using ho]
    | false =>
      simp only [List.filter, hp, Bool.not_false, List.lookup_cons]
      by_cases ho : other = key
      · simp [ho, hp]
      · simp only [show (other == key) = false by simpa using ho]
        exact ih

end FileTree

end EndpointAtlas
