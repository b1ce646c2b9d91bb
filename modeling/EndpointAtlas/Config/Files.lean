import EndpointAtlas.Config.Check
import EndpointAtlas.Files.Tree
import EndpointAtlas.Json.Reader
import EndpointAtlas.Text.LetterCase
import EndpointAtlas.Toml.Reader
import EndpointAtlas.Yaml.Reader

/-!
Configuration files. From a directory on, and then in each directory above it, the first file with
one of six names counts, or else the field of its name in the package file.
-/

set_option autoImplicit false

namespace EndpointAtlas

inductive SettingsFormat where
  | json | yaml | toml
  deriving DecidableEq, Repr

namespace SettingsFormat

def name : SettingsFormat → String
  | json => "JSON"
  | yaml => "YAML"
  | toml => "TOML"

def ofPath (path : String) : SettingsFormat :=
  match String.ofList (Text.lower (Path.extension path).toList) with
  | ".yaml" => yaml
  | ".yml" => yaml
  | ".toml" => toml
  | _ => json

def read? (format : SettingsFormat) (text : String) : Option Setting :=
  match format with
  | json => (Json.parse? text).map .ofJson
  | yaml => Yaml.read? text
  | toml => Toml.read? text

end SettingsFormat

inductive ConfigError where
  | notFound (path : String)
  | unreadable (cause : FileError)
  | malformed (format : SettingsFormat) (path : String)
  | invalid (faults : List ConfigFault)
  deriving DecidableEq, Repr

def ConfigError.message : ConfigError → String
  | .notFound path => "Config file not found: " ++ path
  | .unreadable cause => cause.message
  | .malformed format path => "Invalid " ++ format.name ++ " in config file: " ++ path
  | .invalid faults => ConfigFault.report faults

namespace Config

def orError : Checked Config → Except ConfigError Config
  | .ok config => .ok config
  | .error faults => .error (.invalid faults)

def load (tree : FileTree) (path : String) : Except ConfigError Config :=
  let path := tree.resolve path
  if !tree.exists_ path then .error (.notFound path)
  else match tree.read path with
    | .error cause => .error (.unreadable cause)
    | .ok content =>
      let format := SettingsFormat.ofPath path
      match format.read? content.asText with
      | none => .error (.malformed format path)
      | some value => orError (ofSetting (some value))

def fileNames : List String :=
  ["routescribe.config.json", "routescribe.config.yaml", "routescribe.config.yml",
    "routescribe.config.toml", ".routescriberc.json", ".routescriberc"]

def packageField : String := "routescribe"

inductive Found where
  | file (path : String)
  | field (value : Setting)
  | unreadable (path : String)
  | nothing

def inPackage (tree : FileTree) (directory : String) : Found :=
  let path := Path.join [directory, "package.json"]
  if !tree.exists_ path then .nothing
  else match (tree.read path).toOption.bind fun content => Json.parse? content.asText with
    | none => .unreadable path
    | some value =>
      match value.field? packageField with
      | some field => .field (.ofJson field)
      | none => .nothing

def inDirectory (tree : FileTree) (directory : String) : Found :=
  match (fileNames.map fun name => Path.join [directory, name]).find? tree.exists_ with
  | some path => .file path
  | none => inPackage tree directory

def upwards (tree : FileTree) (directory : String) : List String :=
  (Path.beginnings (tree.locate directory)).reverse.map fun chain => "/" ++ Path.glue chain

/-- The first configuration in some directories, and the package files that could not be read before
it. -/
def firstIn (tree : FileTree) : List String → Except ConfigError (Option Config) × List String
  | [] => (.ok none, [])
  | directory :: rest =>
    match inDirectory tree directory with
    | .file path => ((load tree path).map some, [])
    | .field value => ((orError (ofSetting (some value))).map some, [])
    | .unreadable path =>
      let (config, unreadable) := firstIn tree rest
      (config, path :: unreadable)
    | .nothing => firstIn tree rest

def unreadableWarning (path : String) : String := "Ignoring unreadable " ++ path

def find (tree : FileTree) (directory : String) :
    Except ConfigError (Option Config) × List String :=
  let (config, unreadable) := firstIn tree (upwards tree directory)
  (config, unreadable.map unreadableWarning)

def findOrDefault (tree : FileTree) (directory : String) :
    Except ConfigError Config × List String :=
  let (config, warnings) := find tree directory
  (config.map (·.getD default), warnings)

/-- The configuration of a run in a directory: of a file that is named, or else the first one
found. -/
def forRun (tree : FileTree) (directory : String) (path : Option String) :
    Except ConfigError Config × List String :=
  match path with
  | none => findOrDefault tree directory
  | some "" => findOrDefault tree directory
  | some path => (load tree path, [])

end Config

end EndpointAtlas
