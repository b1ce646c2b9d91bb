import EndpointAtlas.Files.Tree
import EndpointAtlas.Inventory.Basic

/-!
Where the module of an import is found. A specifier that starts with a dot is looked for beside the
file that imports it, any other in the installed packages. Answers about files are remembered.
-/

set_option autoImplicit false

namespace EndpointAtlas

/-- Answers about files given before: whether a regular file is at a path. -/
structure Memory where
  known : List (String × Bool)
  deriving DecidableEq, Repr, Inhabited

namespace Memory

def empty : Memory := ⟨[]⟩

/-- Whether a regular file is at a path, remembered or looked up and then remembered. -/
def isFile (tree : FileTree) (path : String) : StateM Memory Bool := fun memory =>
  match memory.known.lookup path with
  | some answer => (answer, memory)
  | none =>
    let answer := tree.isFile path
    (answer, ⟨(path, answer) :: memory.known⟩)

def firstFile (tree : FileTree) : List String → StateM Memory (Option String)
  | [] => pure none
  | path :: rest => do
    if ← isFile tree path then pure (some path) else firstFile tree rest

end Memory

namespace Resolver

def suffixes : List String :=
  [".ts", ".tsx", ".cts", ".mts", ".js", ".mjs", ".cjs", ".d.ts",
    "/index.ts", "/index.tsx", "/index.cts", "/index.mts", "/index.js", "/index.mjs", "/index.cjs"]

def sourcesOf (extension : String) : List String :=
  match extension with
  | ".js" => [".ts", ".tsx"]
  | ".mjs" => [".mts"]
  | ".cjs" => [".cts"]
  | _ => []

def builtins : List String :=
  ["_http_agent", "_http_client", "_http_common", "_http_incoming", "_http_outgoing",
    "_http_server", "_stream_duplex", "_stream_passthrough", "_stream_readable",
    "_stream_transform", "_stream_wrap", "_stream_writable", "_tls_common", "_tls_wrap", "assert",
    "async_hooks", "buffer", "child_process", "cluster", "console", "constants", "crypto", "dgram",
    "diagnostics_channel", "dns", "domain", "events", "fs", "http", "http2", "https", "inspector",
    "module", "net", "os", "path", "perf_hooks", "process", "punycode", "querystring", "readline",
    "repl", "stream", "string_decoder", "sys", "timers", "tls", "trace_events", "tty", "url",
    "util", "v8", "vm", "wasi", "worker_threads", "zlib"]

/-- Does a specifier name a module that needs no file? Only what stands before its first slash
counts. -/
def isBuiltin (specifier : String) : Bool :=
  Text.startsWith specifier "node:" ||
    builtins.contains (String.ofList (specifier.toList.takeWhile (· ≠ '/')))

def candidates (directory specifier : String) : List String :=
  let joined := Path.normalize (Path.join [directory, specifier])
  let extension := Path.extension joined
  let stem := String.ofList (joined.toList.take (joined.toList.length - extension.length))
  suffixes.map (joined ++ ·) ++ (sourcesOf extension).map (stem ++ ·) ++ [joined]

/-- The directories from the last of some names up to the first `count` of them. -/
def ancestors (names : List String) (count : Nat) : List String :=
  ((Path.beginnings names).filter fun chain => count ≤ chain.length).reverse.map fun chain =>
    "/" ++ Path.glue chain

/-- Does a directory lie in another? One below a name that starts with two dots counts as
outside. -/
def liesIn (start top : List String) : Bool :=
  top.isPrefixOf start && !((start.drop top.length).head?.any fun name => Text.startsWith name "..")

/-- The directories whose installed packages are searched: the importing one and, if it lies in the
root directory, those above it up to the root. -/
def searched (current directory : String) (root : Option String) : List String :=
  let start := Path.simplified false (Path.resolve current directory)
  let alone := ["/" ++ Path.glue start]
  match root with
  | none => alone
  | some "" => alone
  | some root =>
    let top := Path.simplified false (Path.resolve current root)
    if liesIn start top then ancestors start top.length else alone

def installed (directory specifier : String) : String :=
  Path.join [directory, "node_modules", specifier]

def resolve (tree : FileTree) (specifier directory : String) (root : Option String) :
    StateM Memory Origin := do
  if specifier.toList.head? = some '.' then
    match ← Memory.firstFile tree (candidates directory specifier) with
    | some path => pure (.ofText (tree.resolve path))
    | none => pure .unresolved
  else if isBuiltin specifier then pure .external
  else
    match (searched tree.current directory root).find? fun dir => tree.exists_ (installed dir
      specifier) with
    | some dir => pure (.ofText (tree.resolve (installed dir specifier)))
    | none => pure .external

def originExists (tree : FileTree) : Origin → Bool
  | .file path _ => tree.exists_ path
  | _ => false

end Resolver

end EndpointAtlas
