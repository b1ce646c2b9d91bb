import EndpointAtlas.Syntax.Grammar.Type

set_option autoImplicit false

namespace EndpointAtlas.Grammar

open Reading

def default? (sub : Rules) : Reading (List Tree) := do
  if ← acceptMark "=" then
    let value ← sub (.assignment false false)
    pure [value]
  else pure []

def orDefault (sub : Rules) (start : Nat) (pattern : Tree) : Reading Tree := do
  match ← default? sub with
  | [] => pure pattern
  | value => node .other start (pattern :: value.map (·.inRole .fallback))

def withDefault (sub : Rules) (inner : Phrase) : Reading Tree := do
  let start ← here
  let pattern ← sub inner
  orDefault sub start pattern

def propertyPattern (sub : Rules) (inner : Phrase) : Reading Tree := do
  let start ← here
  if ← acceptMark "..." then
    let rest ← sub inner
    node .other start [rest]
  else
    let pair ← attempt do
      let key ← propertyName sub
      mark ":"
      pure key
    match pair with
    | some key => do
      let value ← withDefault sub inner
      node .pairPattern start [key.inRole .key, value.inRole .value]
    | none => do
      let name ← name .shorthandTarget
      orDefault sub start name

def objectPattern (sub : Rules) (inner : Phrase) : Reading Tree := do
  let start ← here
  mark "\x7b"
  let items ← listUntil "\x7d" "," do
    let item ← propertyPattern sub inner
    pure [item]
  node .objectPattern start items

def arrayPattern (sub : Rules) (inner : Phrase) : Reading Tree := do
  let start ← here
  mark "["
  let items ← listUntil "]" "," do
    if ← atMark "," then pure []
    else
      let first ← here
      if ← acceptMark "..." then
        let rest ← sub inner
        let item ← node .other first [rest]
        pure [item]
      else
        let item ← withDefault sub inner
        pure [item]
  node .other start items

def bindingRule (sub : Rules) : Reading Tree := do
  if ← atMark "\x7b" then objectPattern sub .binding
  else if ← atMark "[" then arrayPattern sub .binding
  else name .identifier

def targetRule (sub : Rules) : Reading Tree := do
  match ← attempt do
    if ← atMark "\x7b" then objectPattern sub .target
    else if ← atMark "[" then arrayPattern sub .target
    else fail with
  | some found => if (← atMark ".") || (← atMark "[") || (← atMark "(") then fail else pure found
  | none => sub (.operand false)

def parameterWords : List String := ["public", "private", "protected", "override", "readonly"]

def parameter (sub : Rules) : Reading Tree := do
  let start ← here
  let marks ← decorators sub
  let typed := (← dialect).isTyped
  if typed then
    let _ ← many do
      match (← token).lexeme with
      | .word w =>
        if parameterWords.contains w then
          attempt do
            advance
            check ((← atAnyWord) || (← atMark "\x7b") || (← atMark "["))
        else pure none
      | _ => pure none
  let rest ← acceptMark "..."
  let pattern ← if typed && (← atWord "this") then leaf .other else sub .binding
  if typed then
    let _ ← acceptMark "?"
  let type ← annotation sub
  let value ← default? sub
  if !rest && marks.isEmpty && type.isEmpty && value.isEmpty then pure pattern
  else node .other start (marks ++ pattern :: type ++ value)

def parametersRule (sub : Rules) : Reading Tree := do
  let start ← here
  mark "("
  let items ← listUntil ")" "," do
    let item ← parameter sub
    pure [item]
  node .other start items

end EndpointAtlas.Grammar
