import EndpointAtlas.Syntax.Grammar.Name

set_option autoImplicit false

namespace EndpointAtlas.Grammar

open Reading

/-- The length of raw text before the next element or brace; none if a character stands there that
raw text cannot hold. -/
def rawLength : List Char → Option Nat
  | [] => none
  | c :: rest =>
    if c = '<' ∨ c = '{' then some 0
    else if c = '>' ∨ c = '}' then none
    else (rawLength rest).map (· + 1)

def tagWord (kind : Kind) : Reading Tree := do
  let next ← token
  match next.lexeme with
  | .word w => do
    let more := Token.runLength (fun c => Token.isNamePart c || c == '-') (next.here.drop w.length)
    let start ← here
    advanceBy (.word w) (w.length + more)
    node kind start []
  | _ => fail

def tagName : Reading Tree := do
  let start ← here
  let first ← tagWord .identifier
  if ← acceptMark ":" then
    let second ← tagWord .identifier
    node .other start [first, second]
  else
    iterate (fun path => do
      if ← acceptMark "." then
        let property ← tagWord .propertyName
        let found ← node .other start [path, property]
        pure (some found)
      else pure none) first

def tagText : Reading Tree := do
  let next ← token
  match next.here with
  | quote :: rest =>
    check (quote = '"' ∨ quote = '\'')
    let inside := Token.runLength (· ≠ quote) rest
    check (inside < rest.length)
    let start ← here
    advanceBy .string (inside + 2)
    node .string start []
  | [] => fail

def hole (sub : Rules) : Reading (List Tree) := do
  mark "\x7b"
  let _ ← acceptMark "..."
  if ← atMark "\x7d" then pure []
  else
    let inside ← sub (.expression false)
    pure [inside]

def tagProperty (sub : Rules) : Reading Tree := do
  let start ← here
  if ← atMark "\x7b" then
    let inside ← hole sub
    mark "\x7d"
    node .other start inside
  else
    let first ← tagWord .propertyName
    let name ← if ← acceptMark ":" then do
        let second ← tagWord .propertyName
        pure [first.ofKind .propertyName, second]
      else pure [first]
    if ← acceptMark "=" then
      if ← atMark "\x7b" then
        let inside ← hole sub
        mark "\x7d"
        node .other start (name ++ inside)
      else if ← atMark "<" then
        let inside ← sub .element
        node .other start (name ++ [inside])
      else
        let text ← tagText
        node .other start (name ++ [text])
    else node .other start name

/-- What stands between the tags of an element, from the end of the opening tag up to the start of
the closing one. -/
def content (sub : Rules) : Reading (List Tree) :=
  many do
    match rawLength (← left) with
    | none => fail
    | some count => do
      skip count
      if ← atMark "\x7b" then
        let start ← here
        let inside ← hole sub
        mark "\x7d"
        let part ← node .other start inside
        pure (some part)
      else
        let closing ← ahead do
          mark "<"
          mark "/"
        if closing then pure none
        else
          let inside ← sub .element
          pure (some inside)

def tag (sub : Rules) : Reading (List Tree) := do
  let name ← tagName
  let generic ← if (← dialect).isTyped && (← atMark "<") then do
      let found ← sub .typeArguments
      pure [found]
    else pure []
  let properties ← many do
    if (← atMark ">") || (← atMark "/") || (← atMark "/=") then pure none
    else
      match (← token).here with
      | '>' :: _ => pure none
      | _ =>
        let found ← tagProperty sub
        pure (some found)
  pure (name :: generic ++ properties)

def closingTag : Reading (List Tree) := do
  mark "<"
  mark "/"
  match (← token).here with
  | '>' :: _ => do
    closeAngle
    pure []
  | _ => do
    let name ← tagName
    closeAngle
    pure [name]

def elementRule (sub : Rules) : Reading Tree := do
  let start ← here
  mark "<"
  match (← token).here with
  | '>' :: _ => do
    closeAngle
    let inside ← content sub
    let close ← closingTag
    node .other start (inside ++ close)
  | _ => do
    let head ← tag sub
    if ← acceptMark "/" then
      closeAngle
      node .other start head
    else
      closeAngle
      let inside ← content sub
      let close ← closingTag
      node .other start (head ++ inside ++ close)

end EndpointAtlas.Grammar
