import EndpointAtlas.Config.Basic
import EndpointAtlas.Settings.Value
import EndpointAtlas.Url

/-!
Configurations out of settings: every field that is set is checked by itself, the others have their
defaults, and unknown fields are dropped. All faults are reported, in the order of the fields.
-/

set_option autoImplicit false

namespace EndpointAtlas

inductive SettingFault where
  | kind (expected received : String)
  | empty
  | notAddress
  | notOneName
  | notWhole
  | below (least : Nat)
  | above (greatest : Nat)
  deriving DecidableEq, Repr

def SettingFault.message : SettingFault → String
  | .kind expected received => "Expected " ++ expected ++ ", received " ++ received
  | .empty => "String must contain at least 1 character(s)"
  | .notAddress => "Invalid url"
  | .notOneName => "must be a single directory name"
  | .notWhole => "Expected integer, received float"
  | .below least => "Number must be greater than or equal to " ++ toString least
  | .above greatest => "Number must be less than or equal to " ++ toString greatest

/-- What is wrong with a configuration, and where: the names and numbers that lead to the
setting. -/
structure ConfigFault where
  place : List String
  fault : SettingFault
  deriving DecidableEq, Repr

namespace ConfigFault

def line (f : ConfigFault) : String :=
  "  - " ++ String.intercalate "." f.place ++ ": " ++ f.fault.message

def report (faults : List ConfigFault) : String :=
  "Invalid configuration:\n" ++ String.intercalate "\n" (faults.map line)

end ConfigFault

abbrev Checked (α : Type) := Except (List ConfigFault) α

namespace Checked

variable {α β : Type}

def faults : Checked α → List ConfigFault
  | .ok _ => []
  | .error faults => faults

def both (first : Checked α) (second : Checked β) : Checked (α × β) :=
  match first, second with
  | .ok a, .ok b => .ok (a, b)
  | first, second => .error (first.faults ++ second.faults)

def flawless (place : List String) (value : α) (faults : List SettingFault) : Checked α :=
  if faults.isEmpty then .ok value else .error (faults.map (⟨place, ·⟩))

def wrongKind (place : List String) (expected : String) (value : Setting) : Checked α :=
  .error [⟨place, .kind expected value.kind⟩]

end Checked

namespace Config

def emptiness (s : String) : List SettingFault := if s = "" then [.empty] else []

def checkText (test : String → List SettingFault) (place : List String) : Setting → Checked String
  | .text s => Checked.flawless place s (test s)
  | other => Checked.wrongKind place "string" other

def addressFaults (s : String) : List SettingFault :=
  if Url.isComplete s.toList then [] else [.notAddress]

/-- The faults of a text that does not name one directory. -/
def nameFaults (s : String) : List SettingFault :=
  emptiness s ++
    if s = "" ∨ s.toList.contains '/' ∨ s.toList.contains '\\' then [.notOneName] else []

def boundFaults (least : Nat) (greatest : Option Nat) (x : Number) : List SettingFault :=
  (if x.isWhole then [] else [.notWhole])
    ++ (if x.atLeast least then [] else [.below least])
    ++ match greatest with
      | some n => if x.atMost n then [] else [.above n]
      | none => []

def checkCount (least : Nat) (greatest : Option Nat) (place : List String) : Setting → Checked Nat
  | .number .notANumber => Checked.wrongKind place "number" (.number .notANumber)
  | .number x =>
    Checked.flawless place ((x.toInt?.getD 0).toNat) (boundFaults least greatest x)
  | other => Checked.wrongKind place "number" other

def checkNamesFrom (place : List String) (index : Nat) : List Setting → Checked (List String)
  | [] => .ok []
  | item :: rest =>
    ((checkText emptiness (place ++ [toString index]) item).both
      (checkNamesFrom place (index + 1) rest)).map fun (name, names) => name :: names

def checkNames (place : List String) : Setting → Checked (List String)
  | .list items => checkNamesFrom place 0 items
  | other => Checked.wrongKind place "array" other

def checkField {α : Type} (fields : Entries Setting) (name : String) (default : α)
    (check : List String → Setting → Checked α) : Checked α :=
  match fields.get? name with
  | some value => check [name] value
  | none => .ok default

def ofFields (fields : Entries Setting) : Checked Config :=
  let ignored := checkField fields "ignoredDirs" default.ignoredDirs checkNames
  let host := checkField fields "host" default.host (checkText addressFaults)
  let title := checkField fields "title" default.title fun place value =>
    (checkText emptiness place value).map some
  let version := checkField fields "version" default.version (checkText emptiness)
  let description :=
    checkField fields "description" default.description (checkText fun _ => [])
  let cache := checkField fields "cacheDirName" default.cacheDirName (checkText nameFaults)
  let workers :=
    checkField fields "maxWorkers" default.maxWorkers (checkCount 1 (some workersLimit))
  let size := checkField fields "maxFileSize" default.maxFileSize (checkCount 0 none)
  (ignored.both (host.both (title.both (version.both (description.both (cache.both
    (workers.both size))))))).map
    fun (ignoredDirs, host, title, version, description, cacheDirName, maxWorkers, maxFileSize) =>
      { ignoredDirs, host, title, version, description, cacheDirName, maxWorkers, maxFileSize }

def ofSetting : Option Setting → Checked Config
  | none => ofFields []
  | some .null => ofFields []
  | some (.table fields) => ofFields fields
  | some other => Checked.wrongKind [] "object" other

def settings (config : Config) : Entries Setting := Setting.ofFields config.fields

def replaced (settings : Entries Setting) (changes : List (String × Option Setting)) :
    Entries Setting :=
  changes.foldl (fun settings (name, value) =>
    match value with
    | some value => Entries.put name value settings
    | none => settings) settings

def override (settings : Entries Setting) (changes : List (String × Option Setting)) :
    Checked Config := ofFields (replaced settings changes)

end Config

end EndpointAtlas
