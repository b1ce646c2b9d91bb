import EndpointAtlas.CommandLine.Arguments
import EndpointAtlas.Config.Setup
import EndpointAtlas.Generation
import EndpointAtlas.Progress

/-!
What the command line does: `init`, `generate`, `endpoints` and `inventory`, each on a tree of
files.
-/

set_option autoImplicit false

namespace EndpointAtlas.CommandLine

inductive Output where
  | lines (lines : List String)
  | document (document : Document)

def Output.texts : Output → List String
  | .lines found => found
  | .document made => [made.encode.indented]

/-- How a command has ended: its exit code, its output, its messages and warnings, and the tree
after it. -/
structure Outcome where
  exit : Nat
  output : Output
  messages : List String
  warnings : List String
  tree : FileTree

/-- What a command needs to know besides the tree: the moment, and where the repository stands. -/
structure Surroundings where
  now : Int
  commit : Option String
  repositoryUrl : Option String

namespace Outcome

def done (tree : FileTree) (lines : List String) (warnings : List String) : Outcome :=
  ⟨0, .lines lines, [], warnings, tree⟩

def failed (tree : FileTree) (lines warnings : List String) (message : String) : Outcome :=
  ⟨1, .lines lines, ["Error: " ++ message], warnings, tree⟩

def refused (tree : FileTree) (e : UsageError) : Outcome := ⟨1, .lines [], [e.message], [], tree⟩

end Outcome

def configOption : CommandOption := ⟨some "-c", "--config", some "path"⟩

def program : Command := ⟨"routescribe", [⟨some "-V", "--version", none⟩], none, false⟩

def version : String := "0.1.0"

def initCommand : Command :=
  ⟨"init", [⟨some "-f", "--force", none⟩, ⟨none, "--no-gitignore", none⟩], some "directory", false⟩

def generateCommand : Command :=
  ⟨"generate",
    [configOption, ⟨none, "--host", some "url"⟩, ⟨none, "--title", some "title"⟩,
      ⟨none, "--workers", some "n"⟩, ⟨none, "--quiet", none⟩],
    some "directory", false⟩

def endpointsCommand : Command :=
  ⟨"endpoints", [configOption, ⟨none, "--json", none⟩], some "directory", false⟩

def inventoryCommand : Command :=
  ⟨"inventory", [⟨none, "--base", some "dir"⟩], some "file", true⟩

def marked (color : String) (mark message : String) : String :=
  let escape := String.ofList [Char.ofNat 0x1B]
  escape ++ "[" ++ color ++ "m" ++ mark ++ escape ++ "[0m " ++ message

def success (message : String) : String := marked "32" "✓" message

def notice (message : String) : String := marked "34" "ℹ" message

def shownPath (tree : FileTree) (path : String) : String :=
  let relative := Path.relative tree.current tree.current path
  if relative = "" then path else relative

/-- Writes a configuration file with the defaults, and an entry for the cache in the list of files
that version control ignores. -/
def runInit (tree : FileTree) (directory : String) (given : Sorted) : Outcome :=
  let project := tree.resolve directory
  match Config.writeStarter tree project (given.has "--force") with
  | .error e => .failed tree [] [] e.message
  | .ok (path, tree) =>
    let created := success ("Created " ++ shownPath tree path)
    let entry := Config.default.cacheDirName
    if given.has "--no-gitignore" then .done tree [created] []
    else match IgnoreList.update tree project entry with
      | .error e => .failed tree [created] [] e.message
      | .ok (true, tree) =>
        .done tree [created, success ("Added " ++ entry ++ "/ to .gitignore")] []
      | .ok (false, tree) =>
        .done tree [created, notice (entry ++ "/ already in .gitignore")] []

def runGenerate (tree : FileTree) (surroundings : Surroundings) (directory : String)
    (given : Sorted) : Outcome :=
  let root := tree.resolve directory
  let (config, warnings) := Config.forRun tree root (given.value? "--config")
  match config with
  | .error e => .failed tree [] warnings e.message
  | .ok config =>
    let changes := [
      ("host", (given.value? "--host").map Setting.text),
      ("title", (given.value? "--title").map Setting.text),
      ("maxWorkers", (given.value? "--workers").map fun n => Setting.number (Number.ofText n))]
    match Config.override config.settings changes with
    | .error faults => .failed tree [] warnings (ConfigFault.report faults)
    | .ok config =>
      let options : RunOptions :=
        ⟨surroundings.commit, surroundings.repositoryUrl, surroundings.now, .plain, fun _ =>
          .ok (), []⟩
      let run := Run.generate tree root config options
      let warnings := warnings ++ run.warnings
      match run.outcome with
      | .error e => .failed run.tree [] warnings e.message
      | .ok document =>
        let messages := if given.has "--quiet" then []
          else (run.progress.getLast?.toList).map fun (completed, _) => progressLine completed 0
        ⟨0, .document document, messages, warnings, run.tree⟩

def runEndpoints (tree : FileTree) (directory : String) (given : Sorted) : Outcome :=
  let root := tree.resolve directory
  let (config, warnings) := Config.forRun tree root (given.value? "--config")
  match config with
  | .error e => .failed tree [] warnings e.message
  | .ok config =>
    match tree.sources root config.passedOver with
    | .error e => .failed tree [] warnings e.message
    | .ok files =>
      let endpoints := Endpoint.discover tree files
      if given.has "--json" then
        .done tree [(Json.list (endpoints.map Endpoint.encode)).indented] warnings
      else
        .done tree (endpoints.map (Endpoint.line tree.current root)
          ++ ["\n" ++ toString endpoints.length ++ " endpoint(s) found"]) warnings

def runInventory (tree : FileTree) (file : String) (given : Sorted) : Outcome :=
  let path := tree.resolve file
  let directory := match given.value? "--base" with
    | none => Path.parent path
    | some "" => Path.parent path
    | some base => tree.resolve base
  match ((Inventory.ofFile tree ⟨none, []⟩ directory path).run .empty).1 with
  | .error fault => .failed tree [] [] fault.message
  | .ok inventory => .done tree [inventory.encode.indented] []

def commands : List (Command × (FileTree → Surroundings → String → Sorted → Outcome)) :=
  [(initCommand, fun tree _ directory given => runInit tree directory given),
    (generateCommand, runGenerate),
    (endpointsCommand, fun tree _ directory given => runEndpoints tree directory given),
    (inventoryCommand, fun tree _ file given => runInventory tree file given)]

def usage (command : Command) : String :=
  let name :=
    if command.name = program.name then program.name else program.name ++ " " ++ command.name
  let operand := match command.operand with
    | some word => if command.required then " <" ++ word ++ ">" else " [" ++ word ++ "]"
    | none => " [command]"
  "Usage: " ++ name ++ " [options]" ++ operand

def asksForHelp (unknown : List String) : Bool := unknown.contains "-h" || unknown.contains "--help"

def longNames (command : Command) : List String := command.options.map (·.long) ++ ["--help"]

def runCommand (tree : FileTree) (surroundings : Surroundings) (command : Command)
    (act : FileTree → Surroundings → String → Sorted → Outcome) (operands unknown : List String) :
    Outcome :=
  match command.sorted unknown with
  | .error e => .refused tree e
  | .ok given =>
    if asksForHelp given.unknown then .done tree [usage command] []
    else match given.unknown with
      | argument :: _ =>
        .refused tree (.unknownOption argument (longNames command ++ longNames program))
      | [] =>
        match (operands ++ given.operands).head? with
        | some operand => act tree surroundings operand given
        | none =>
          if command.required then .refused tree (.missingOperand (command.operand.getD ""))
          else act tree surroundings "." given

def run (tree : FileTree) (surroundings : Surroundings) (arguments : List String) : Outcome :=
  match program.sorted arguments with
  | .error e => .refused tree e
  | .ok given =>
    if given.has "--version" then .done tree [version] []
    else
      let names := commands.map (·.1.name) ++ ["help"]
      match given.operands with
      | name :: operands =>
        match commands.find? (·.1.name = name) with
        | some (command, act) => runCommand tree surroundings command act operands given.unknown
        | none =>
          if name = "help" ∨ asksForHelp given.unknown then .done tree [usage program] []
          else .refused tree (.unknownCommand name names)
      | [] =>
        if asksForHelp given.unknown then .done tree [usage program] []
        else match given.unknown with
          | argument :: _ => .refused tree (.unknownOption argument (longNames program))
          | [] => ⟨1, .lines [], [usage program], [], tree⟩

end EndpointAtlas.CommandLine
