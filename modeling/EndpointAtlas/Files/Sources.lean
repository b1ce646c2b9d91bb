import EndpointAtlas.Files.Glob
import EndpointAtlas.Files.Tree
import EndpointAtlas.Syntax.Dialect

/-!
The source files of a directory tree.
-/

set_option autoImplicit false

namespace EndpointAtlas

def isIgnored (ignored : List String) (path : String) : Bool :=
  (Text.splitOn (fun c => c == '/' || c == '\\') path.toList).any fun piece =>
    ignored.contains (String.ofList piece)

def sourcePattern : String :=
  "**/*.\x7b" ++ String.intercalate "," (Dialect.sourceExtensions.map fun extension =>
    String.ofList (extension.toList.drop 1)) ++ "\x7d"

def ignorePattern (name : String) : String := "**/" ++ name ++ "/**"

/-- A reading of patterns: does a pattern name what some names lead to? -/
abbrev Matcher := String → List (List Char) → Bool

namespace FileTree

def pathOf (location : Location) : String := "/" ++ Path.glue location

/-- Is a file below a root directory, at these names from there, a source file that no ignored name
leaves out, neither as a pattern nor as a piece of the path? -/
def isWantedBy (accepts : Matcher) (ignored : List String) (names : Location) : Bool :=
  accepts sourcePattern (names.map String.toList)
    && !ignored.any (fun name => accepts (ignorePattern name) (names.map String.toList))
    && !isIgnored ignored (Path.glue names)

/-- The source files below a location, in order, by a reading of patterns. -/
def walkBelow (accepts : Matcher) (tree : FileTree) (top : Location) (ignored : List String) :
    List String :=
  Text.sorted <| tree.files.filterMap fun (location, _) =>
    if top.isPrefixOf location && isWantedBy accepts ignored (location.drop top.length) then
      some (pathOf location)
    else none

/-- The paths of all source files below a directory, in order, by a reading of patterns; none if the
directory is missing. -/
def walk (accepts : Matcher) (tree : FileTree) (root : String) (ignored : List String) :
    Except FileError (List String) :=
  let top := tree.locate root
  if tree.hasFile top then .error (.notDirectory "scandir" (tree.resolve root))
  else .ok (walkBelow accepts tree top ignored)

def isWanted (ignored : List String) (names : Location) : Bool :=
  isWantedBy Glob.accepts ignored names

def sourcesBelow (tree : FileTree) (top : Location) (ignored : List String) : List String :=
  walkBelow Glob.accepts tree top ignored

def sources (tree : FileTree) (root : String) (ignored : List String) :
    Except FileError (List String) :=
  walk Glob.accepts tree root ignored

end FileTree

end EndpointAtlas
