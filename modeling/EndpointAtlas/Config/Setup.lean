import EndpointAtlas.Config.Files
import EndpointAtlas.Text.Lines

set_option autoImplicit false

namespace EndpointAtlas

namespace IgnoreList

def heading : List Char := "# routescribe inventory cache\n".toList

/-- Does some line name a directory, with or without a slash after it? -/
def names (name : List Char) (content : List Char) : Bool :=
  (Text.lines content).any fun line =>
    let entry := Text.trim line
    entry == name ++ ['/'] || entry == name

def add? (name : List Char) : Option (List Char) → Option (List Char)
  | none => some (heading ++ name ++ ['/', '\n'])
  | some content =>
    if names name content then none
    else some (Text.trimEnd content ++ ['\n', '\n'] ++ heading ++ name ++ ['/', '\n'])

def fileName : String := ".gitignore"

def update (tree : FileTree) (project name : String) : Except FileError (Bool × FileTree) := do
  let path := Path.join [project, fileName]
  let content ← if tree.exists_ path then (tree.read path).map some else .ok none
  match add? name.toList (content.map (·.asText.toList)) with
  | none => pure (false, tree)
  | some changed => do
    let tree ← tree.write path (.text (String.ofList changed))
    pure (true, tree)

end IgnoreList

inductive SetupError where
  | alreadyThere
  | file (cause : FileError)
  deriving DecidableEq, Repr

namespace Config

def starterName : String := "routescribe.config.json"

def starter : String := default.encode.indented ++ "\n"

def writeStarter (tree : FileTree) (project : String) (force : Bool) :
    Except SetupError (String × FileTree) :=
  let path := Path.join [project, starterName]
  if tree.exists_ path && !force then .error .alreadyThere
  else match tree.write path (.text starter) with
    | .ok tree => .ok (path, tree)
    | .error cause => .error (.file cause)

end Config

def SetupError.message : SetupError → String
  | .alreadyThere => Config.starterName ++ " already exists (use --force to overwrite)"
  | .file cause => cause.message

end EndpointAtlas
