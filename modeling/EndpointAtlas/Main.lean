import EndpointAtlas.CommandLine.Run
import Std.Time.DateTime.Timestamp

set_option autoImplicit false

namespace EndpointAtlas.Disk

def content (path : String) : IO Content := do
  let octets ← IO.FS.readBinFile path
  pure (match String.fromUTF8? octets with
    | some text => .text text
    | none => .octets (octets.toList.map UInt8.toNat))

def addFile (tree : FileTree) (path : String) : IO FileTree := do
  let found ← (content path).toBaseIO
  let location := tree.locate path
  pure (match found with
    | .ok content => location.dropLast.length.fold
        (fun count _ grown => grown.addDirectory (location.take (count + 1)))
        (tree.put location content)
    | .error _ => tree)

/-- Adds what lies at a path on disk to a tree, with all below it. Links are not followed. -/
partial def addAll (tree : FileTree) (path : String) : IO FileTree := do
  let directory := (← IO.currentDir) / path
  let entries ← directory.readDir.toBaseIO
  match entries with
  | .error _ => addFile tree path
  | .ok entries =>
    let location := tree.locate path
    let grown := (Path.beginnings location).foldl FileTree.addDirectory tree
    entries.toList.foldlM (fun tree entry => do
      let kind ← entry.path.symlinkMetadata.toBaseIO
      match kind with
      | .ok data =>
        if data.type == IO.FS.FileType.symlink then pure tree
        else addAll tree (path ++ "/" ++ entry.fileName)
      | .error _ => pure tree) grown

/-- The tree that a command line can ask for: the current directory, everything that an argument
names, and the configuration in the directories above. -/
def treeFor (arguments : List String) : IO FileTree := do
  let current := toString (← IO.currentDir)
  let named := arguments.map (Path.resolve current)
  let tree ← (current :: named).foldlM (fun tree path =>
    if tree.exists_ path then pure tree else addAll tree path) (.empty current)
  let above := (current :: named).flatMap (Config.upwards tree)
  let names := "package.json" :: Config.fileNames
  (above.flatMap fun directory => names.map fun name => Path.join [directory, name]).foldlM
    (fun tree path => if tree.exists_ path then pure tree else addFile tree path) tree

def write (path : String) (content : Content) : IO Unit := do
  IO.FS.createDirAll (Path.parent path)
  match content with
  | .text text => IO.FS.writeFile path text
  | .octets octets => IO.FS.writeBinFile path ⟨(octets.map UInt8.ofNat).toArray⟩

def update (before after : FileTree) : IO Unit := do
  before.files.forM fun (location, _) =>
    if after.hasFile location then pure () else IO.FS.removeFile (FileTree.pathOf location)
  before.directories.reverse.forM fun location =>
    if after.hasDirectory location then pure () else IO.FS.removeDir (FileTree.pathOf location)
  after.files.forM fun (location, content) =>
    if before.content? location = some content then pure ()
    else write (FileTree.pathOf location) content

end EndpointAtlas.Disk

open EndpointAtlas

def main (arguments : List String) : IO UInt32 := do
  let tree ← Disk.treeFor arguments
  let moment ← Std.Time.Timestamp.now
  let surroundings : CommandLine.Surroundings :=
    ⟨moment.toMillisecondsSinceUnixEpoch.val, none, none⟩
  let outcome := CommandLine.run tree surroundings arguments
  Disk.update tree outcome.tree
  (outcome.warnings ++ outcome.messages).forM IO.eprintln
  outcome.output.texts.forM IO.println
  pure (UInt32.ofNat outcome.exit)
