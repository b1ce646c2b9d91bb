import EndpointAtlas.Bundle.Build
import EndpointAtlas.Config.Basic
import EndpointAtlas.Endpoint.Discover
import EndpointAtlas.Inventory.Indexer
import EndpointAtlas.OpenApi.Repair
import EndpointAtlas.OpenApi.Reply
import EndpointAtlas.Pool

/-!
A whole run: inventories are taken, endpoints found, a fragment asked for each endpoint's bundle,
and the fragments merged into one document in the order in which they come. The cache is removed
however the run ends.
-/

set_option autoImplicit false

namespace EndpointAtlas

structure FragmentRequest where
  endpoint : Endpoint
  handlerLines : List String
  blocks : List (List String)
  deriving DecidableEq, Repr, Inhabited

namespace FragmentRequest

def ofBundle (bundle : Bundle) : FragmentRequest :=
  ⟨bundle.endpoint, bundle.handlerLines, bundle.blocks⟩

def subject (request : FragmentRequest) : String :=
  request.endpoint.method.text ++ " " ++ request.endpoint.route.getD "null"

end FragmentRequest

/-- What answers requests with fragments, or fails with a message. -/
abbrev Generator := FragmentRequest → Except String Fragment

def Generator.plain : Generator := fun request =>
  .ok (Fragment.skeleton request.endpoint.method request.endpoint.route)

inductive RunError where
  | noDirectory (path : String)
  | noMoment
  | file (cause : FileError)
  | bareOperation (cause : Document.BareOperation)
  | sink (message : String)
  deriving DecidableEq, Repr

def RunError.message : RunError → String
  | .noDirectory path => "Directory not found: " ++ path
  | .noMoment => "Invalid time value"
  | .file cause => cause.message
  | .bareOperation cause => cause.message
  | .sink message => message

/-- How a run goes: where the repository stands, the moment of the document, who answers requests,
what takes the progress and may refuse it, and the order in which jobs settle where several run at
once. -/
structure RunOptions where
  commit : Option String
  repositoryUrl : Option String
  generatedAt : Int
  generator : Generator
  sink : Nat → Except String Unit
  order : List Nat

/-- How a run has ended: with a document or an error; the tree after it; the progress, requests and
warnings on the way. -/
structure Run where
  outcome : Except RunError Document
  tree : FileTree
  progress : List (Nat × Nat)
  requests : List FragmentRequest
  warnings : List String

namespace Run

def headFor (config : Config) (options : RunOptions) (root : String) : DocumentHead where
  title := config.title.getD (Path.baseName root)
  version := config.version
  description := config.description
  host := config.host
  commit := options.commit
  repositoryUrl := options.repositoryUrl

def failureWarning (e : Endpoint) (message : String) : String :=
  "Fragment generation failed for " ++ e.method.text ++ " " ++ e.route.getD "(unknown route)"
    ++ " (" ++ e.filePath ++ ":" ++ toString e.lines.first ++ "): " ++ message

/-- What has come of the endpoints so far; `progress` are the calls of the sink. -/
structure Merged where
  draft : Draft
  completed : Nat
  progress : List (Nat × Nat)
  warnings : List String

def Merged.of (document : Document) : Merged := ⟨.of document, 0, [], []⟩

def take (merged : Merged) (e : Endpoint) (answer : Except String Fragment) : Merged :=
  match answer with
  | .ok fragment =>
    { merged with draft := merged.draft.merge fragment, completed := merged.completed + 1 }
  | .error message =>
    { merged with
      completed := merged.completed + 1
      warnings := merged.warnings ++ [failureWarning e message] }

/-- Takes answers one after the other, until the sink refuses the progress that it is called
with. -/
def takeAll (sink : Nat → Except String Unit) (total : Nat) :
    Merged → List (Endpoint × Except String Fragment) → Merged × Option String
  | merged, [] => (merged, none)
  | merged, (e, answer) :: rest =>
    let taken := take merged e answer
    let told := { taken with progress := taken.progress ++ [(taken.completed, total)] }
    match sink taken.completed with
    | .error message => (told, some message)
    | .ok () => takeAll sink total told rest

/-- The pool of a run once the workers have asked for a fragment of every endpoint. -/
def asked (config : Config) (options : RunOptions) (request : Endpoint → FragmentRequest)
    (endpoints : List Endpoint) : Pool Endpoint (Except String Fragment) :=
  Pool.run (Pool.workers (.ofNat config.maxWorkers) endpoints.length) (endpoints.map some)
    (fun job => options.generator (request job.item)) options.order

def gathered (options : RunOptions) (request : Endpoint → FragmentRequest) (tree : FileTree)
    (document : Document) (endpoints : List Endpoint)
    (reports : List (EndedJob Endpoint (Except String Fragment))) : Run :=
  let answers := reports.map fun job => (job.item, job.outcome)
  let (merged, refusal) := takeAll options.sink endpoints.length (.of document) answers
  let outcome := match refusal with
    | some message => .error (.sink message)
    | none => match merged.draft.document.finish with
      | .ok document => .ok document
      | .error cause => .error (.bareOperation cause)
  ⟨outcome, tree, merged.progress, endpoints.map request, merged.warnings⟩

def fragments (config : Config) (options : RunOptions) (snapshot : Snapshot) (tree : FileTree)
    (document : Document) (endpoints : List Endpoint) : Run :=
  let request (e : Endpoint) := FragmentRequest.ofBundle (Bundle.of tree snapshot e)
  gathered options request tree document endpoints (asked config options request endpoints).settled

def indexed (config : Config) (options : RunOptions) (indexer : Indexer) (tree : FileTree)
    (document : Document) : Run :=
  match indexer.indexDirectory tree with
  | (.error cause, _, tree) => ⟨.error (.file cause), tree, [], [], []⟩
  | (.ok report, indexer, tree) =>
    let (snapshot, unread) := indexer.snapshot tree
    let warnings := report.warnings ++ unread
    match Endpoint.discover tree indexer.files with
    | [] => ⟨.ok document, tree, [], [], warnings⟩
    | endpoints =>
      let run := fragments config options snapshot tree document endpoints
      { run with warnings := warnings ++ run.warnings }

def generate (tree : FileTree) (root : String) (config : Config) (options : RunOptions) : Run :=
  let root := tree.resolve root
  if !tree.isDirectory root then ⟨.error (.noDirectory root), tree, [], [], []⟩
  else match Document.create? (headFor config options root) options.generatedAt with
    | none => ⟨.error .noMoment, tree, [], [], []⟩
    | some document =>
      let indexer := Indexer.of tree root config.ignoredDirs config.cacheDirName config.maxFileSize
      let run := indexed config options indexer tree document
      { run with tree := (indexer.close run.tree).2 }

end Run

end EndpointAtlas
