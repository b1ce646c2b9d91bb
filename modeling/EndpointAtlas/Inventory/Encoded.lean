import EndpointAtlas.Inventory.Basic
import EndpointAtlas.Json.Printer

set_option autoImplicit false

namespace EndpointAtlas

def LineRange.fields (lines : LineRange) : List (String × Json) :=
  [("startLine", .int lines.first), ("endLine", .int lines.last)]

def Declaration.encode (d : Declaration) : Json :=
  .object (("name", .text d.name) :: d.lines.fields)

def CallKind.name : CallKind → String
  | .function => "function_call"
  | .method => "method_call"

def Call.encode (c : Call) : Json :=
  .object (("name", .text c.name) :: c.lines.fields ++ [("kind", .text c.kind.name)])

def ImportForm.name : ImportForm → String
  | .statement => "import"
  | .require => "require"

def Import.encode (i : Import) : Json :=
  .object [
    ("importedName", .text i.importedName),
    ("localName", .optionalText i.localName),
    ("source", .text i.source),
    ("kind", .text i.form.name),
    ("origin", .optionalText i.origin.text?),
    ("line", .int i.line),
    ("pathExists", .bool i.pathExists),
    ("usageLines", .list (i.usageLines.map .int))]

def Inventory.encode (inventory : Inventory) : Json :=
  .object [
    ("filePath", .text inventory.filePath),
    ("dialect", .text inventory.dialect.name),
    ("classes", .list (inventory.classes.map (·.encode))),
    ("functions", .list (inventory.functions.map (·.encode))),
    ("variables", .list (inventory.vars.map (·.encode))),
    ("functionCalls", .list (inventory.calls.map (·.encode))),
    ("imports", .list (inventory.imports.map (·.encode)))]

end EndpointAtlas
