import EndpointAtlas.Bundle.Build

set_option autoImplicit false

namespace EndpointAtlas.Bundle

def shownPath (current : String) (root : Option String) (path : String) : String :=
  match root with
  | some root => if root = "" then path else Path.relative current root path
  | none => path

def fenced (path : String) (lines : List String) : String :=
  String.intercalate "\n" (["```" ++ (Dialect.ofPath path).name] ++ lines ++ ["```"])

def shownSpan (span : LineRange) : String := ":" ++ toString span.first ++ "-" ++ toString span.last

def markdown (current : String) (root : Option String) (bundle : Bundle) : String :=
  let e := bundle.endpoint
  let shown := shownPath current root
  let head := [
    "# Context for `" ++ e.method.text ++ " " ++ e.route.getD "(unknown route)" ++ "`\n",
    "## Handler (" ++ shown e.filePath ++ shownSpan e.lines ++ ")\n",
    fenced e.filePath bundle.handlerLines]
  let dependencies := bundle.dependencyBlocks.flatMap fun block => [
    "### " ++ block.dependency.name ++ " (" ++ shown block.dependency.filePath
      ++ shownSpan block.dependency.lines ++ ")\n",
    fenced block.dependency.filePath block.lines]
  let imports := bundle.importBlocks.flatMap fun block => [
    "### " ++ block.importedName ++ " from '" ++ block.source ++ "' (" ++ block.kind.name ++ ", "
      ++ shown block.origin ++ shownSpan block.span ++ ")\n",
    fenced block.origin block.lines]
  let responder := match bundle.responderBlock with
    | some lines => ["\n## Catch-all responder\n", fenced e.filePath lines]
    | none => []
  let titled (title : String) (section_ : List String) : List String :=
    if section_.isEmpty then [] else title :: section_
  String.intercalate "\n"
    (head ++ titled "\n## In-file dependencies\n" dependencies
      ++ titled "\n## Imported declarations\n" imports ++ responder)

def encodeLines (lines : List String) : Json := .list (lines.map .text)

def encode (bundle : Bundle) : Json :=
  .object [
    ("endpoint", bundle.endpoint.encode),
    ("handlerLines", encodeLines bundle.handlerLines),
    ("dependencyBlocks", .list (bundle.dependencyBlocks.map fun block => .object [
      ("name", .text block.dependency.name),
      ("filePath", .text block.dependency.filePath),
      ("callStartLine", .int block.dependency.callLines.first),
      ("callEndLine", .int block.dependency.callLines.last),
      ("startLine", .int block.dependency.lines.first),
      ("endLine", .int block.dependency.lines.last),
      ("lines", encodeLines block.lines)])),
    ("importBlocks", .list (bundle.importBlocks.map fun block => .object [
      ("importedName", .text block.importedName),
      ("source", .text block.source),
      ("origin", .text block.origin),
      ("kind", .text block.kind.name),
      ("startLine", .int block.span.first),
      ("endLine", .int block.span.last),
      ("lines", encodeLines block.lines)])),
    ("responderBlock", match bundle.responderBlock with
      | some lines => encodeLines lines
      | none => .null)]

end EndpointAtlas.Bundle
