import EndpointAtlas.Inventory.Encoded

set_option autoImplicit false

namespace EndpointAtlas

namespace Json

def textField (value : Json) (name : String) : Option String := (value.field? name).bind text?

def nullableField (value : Json) (name : String) : Option (Option String) :=
  match value.field? name with
  | some .null => some none
  | some (.text s) => some (some s)
  | _ => none

def wholeField (accept : Int → Bool) (value : Json) (name : String) : Option Int := do
  let n ← ((← value.field? name).number?).bind Number.toInt?
  if accept n then some n else none

def listField {α : Type} (read : Json → Option α) (value : Json) (name : String) :
    Option (List α) := do
  (← (← value.field? name).items?).mapM read

end Json

def isLineNumber (n : Int) : Bool := 1 ≤ n

def LineRange.decode? (accept : Int → Bool) (value : Json) : Option LineRange := do
  pure ⟨← value.wholeField accept "startLine", ← value.wholeField accept "endLine"⟩

def Declaration.decode? (accept : Int → Bool) (value : Json) : Option Declaration := do
  pure ⟨← value.textField "name", ← LineRange.decode? accept value⟩

def CallKind.ofName? (s : String) : Option CallKind :=
  [CallKind.function, .method].find? fun k => k.name = s

def Call.decode? (accept : Int → Bool) (value : Json) : Option Call := do
  let kind ← CallKind.ofName? (← value.textField "kind")
  pure ⟨← value.textField "name", ← LineRange.decode? accept value, kind⟩

def ImportForm.ofName? (s : String) : Option ImportForm :=
  [ImportForm.statement, .require].find? fun f => f.name = s

def Import.decode? (accept : Int → Bool) (value : Json) : Option Import := do
  let form ← ImportForm.ofName? (← value.textField "kind")
  let exists_ ← (← value.field? "pathExists").bool?
  let line? (item : Json) : Option Int := do
    let n ← item.number?.bind Number.toInt?
    if accept n then some n else none
  pure {
    importedName := ← value.textField "importedName"
    localName := ← value.nullableField "localName"
    source := ← value.textField "source"
    form := form
    origin := .ofText? (← value.nullableField "origin")
    line := ← value.wholeField accept "line"
    pathExists := exists_
    usageLines := ← value.listField line? "usageLines" }

def Inventory.decode? (accept : Int → Bool) (value : Json) : Option Inventory := do
  let dialect ← Dialect.ofName? (← value.textField "dialect")
  pure {
    filePath := ← value.textField "filePath"
    dialect := dialect
    classes := ← value.listField (Declaration.decode? accept) "classes"
    functions := ← value.listField (Declaration.decode? accept) "functions"
    vars := ← value.listField (Declaration.decode? accept) "variables"
    calls := ← value.listField (Call.decode? accept) "functionCalls"
    imports := ← value.listField (Import.decode? accept) "imports" }

end EndpointAtlas
