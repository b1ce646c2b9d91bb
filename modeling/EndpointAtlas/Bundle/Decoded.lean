import EndpointAtlas.Bundle.Build
import EndpointAtlas.Inventory.Decoded

set_option autoImplicit false

namespace EndpointAtlas

def anyNumber (_n : Int) : Bool := true

namespace Json

def textsField (value : Json) (name : String) : Option (List String) := value.listField text? name

end Json

def Endpoint.decode? (value : Json) : Option Endpoint := do
  let method ← Method.every.find? fun m => some m.text = value.textField "method"
  let tier ← Tier.ofName? (← value.textField "tier")
  pure {
    method := method
    route := ← value.nullableField "route"
    filePath := ← value.textField "filePath"
    lines := ← LineRange.decode? anyNumber value
    tier := tier
    handlerNames := ← value.textsField "handlerNames" }

def DependencyBlock.decode? (value : Json) : Option DependencyBlock := do
  let first ← value.wholeField anyNumber "callStartLine"
  let last ← value.wholeField anyNumber "callEndLine"
  let name ← value.textField "name"
  let filePath ← value.textField "filePath"
  let lines ← LineRange.decode? anyNumber value
  pure ⟨⟨name, filePath, ⟨first, last⟩, lines⟩, ← value.textsField "lines"⟩

def ImportBlock.decode? (value : Json) : Option ImportBlock := do
  let kinds := [DeclarationKind.class_, .function, .variable_]
  let kind ← kinds.find? fun k => some k.name = value.textField "kind"
  let importedName ← value.textField "importedName"
  let source ← value.textField "source"
  let origin ← value.textField "origin"
  let span ← LineRange.decode? anyNumber value
  pure ⟨importedName, source, origin, kind, span, ← value.textsField "lines"⟩

def Bundle.decode? (value : Json) : Option Bundle := do
  let responder ← match value.field? "responderBlock" with
    | some .null => some none
    | some (.list items) => (items.mapM Json.text?).map some
    | _ => none
  pure {
    endpoint := ← Endpoint.decode? (← value.field? "endpoint")
    handlerLines := ← value.textsField "handlerLines"
    dependencyBlocks := ← value.listField DependencyBlock.decode? "dependencyBlocks"
    importBlocks := ← value.listField ImportBlock.decode? "importBlocks"
    responderBlock := responder }

end EndpointAtlas
