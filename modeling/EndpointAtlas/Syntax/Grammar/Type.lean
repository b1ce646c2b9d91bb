import EndpointAtlas.Syntax.Grammar.Name

set_option autoImplicit false

namespace EndpointAtlas.Grammar

open Reading

def plainTypes : List String :=
  ["any", "number", "boolean", "string", "symbol", "void", "unknown", "never", "object", "this",
    "null", "true", "false", "undefined"]

def angled (item : Reading (List Tree)) : Reading (List Tree) := do
  mark "<"
  let items ← many do
    let next ← token
    if next.here.head? = some '>' then pure none
    else
      let found ← item
      if (← token).here.head? = some '>' then pure (some found)
      else do
        mark ","
        pure (some found)
  closeAngle
  pure items.flatten

def typeArguments (sub : Rules) : Reading Tree := do
  let start ← here
  let items ← angled do
    let item ← sub .type
    pure [item]
  check !items.isEmpty
  node .other start items

def typeParameters (sub : Rules) : Reading Tree := do
  let start ← here
  let items ← angled do
    modifiers ["const", "in", "out"]
    let first ← leafName
    let bound ← if ← acceptWord "extends" then do
        let bound ← sub .type
        pure [bound]
      else pure []
    let default ← if ← acceptMark "=" then do
        let default ← sub .type
        pure [default]
      else pure []
    pure (first :: bound ++ default)
  check !items.isEmpty
  node .other start items
where
  leafName : Reading Tree := name .typeName

def predicate (sub : Rules) : Reading Tree := do
  let start ← here
  let asserts ← attempt do
    word "asserts"
    check (← atAnyWord)
    check !(← afterBreak)
    check !(← atWord "is")
  let subject ← if ← atWord "this" then leaf .other else name .identifier
  check !(← afterBreak)
  if ← acceptWord "is" then
    let type ← sub .type
    node .other start [subject, type]
  else
    check asserts.isSome
    node .other start [subject]

def annotation (sub : Rules) : Reading (List Tree) := do
  if (← dialect).isTyped && (← atMark ":") then
    advance
    let type ← sub .type
    pure [type]
  else pure []

def resultType (sub : Rules) : Reading (List Tree) := do
  if (← dialect).isTyped && (← atMark ":") then
    advance
    let type ← either (predicate sub) (sub .type)
    pure [type]
  else pure []

def typeParametersHere (sub : Rules) : Reading (List Tree) := do
  if (← dialect).isTyped && (← atMark "<") then
    let found ← sub .typeParameters
    pure [found]
  else pure []

def typeArgumentsHere (sub : Rules) : Reading (List Tree) := do
  if (← dialect).isTyped && (← atMark "<") then
    let found ← sub .typeArguments
    pure [found]
  else pure []

def functionType (sub : Rules) : Reading Tree := do
  let start ← here
  let _ ← acceptWord "abstract"
  let _ ← acceptWord "new"
  let generic ← typeParametersHere sub
  let parameters ← sub .parameters
  mark "=>"
  let result ← either (predicate sub) (sub .type)
  node .other start (generic ++ [parameters, result])

def dotted : Reading (List Tree) := do
  let first ← anyWord .identifier
  let rest ← many do
    if ← acceptMark "." then
      let next ← if (← token).lexeme = .privateName then
          leaf .privateName else anyWord .propertyName
      pure (some next)
    else pure none
  pure (first :: rest)

def dottedType : Reading (List Tree) := do
  let names ← dotted
  match names.reverse with
  | last :: before => pure (before.reverse ++ [last.ofKind .typeName])
  | [] => fail

def memberEnd : Reading Unit := do
  if (← acceptMark ";") || (← acceptMark ",") then pure ()
  else if (← atMark "\x7d") || (← afterBreak) then pure ()
  else fail

def bracketMember (sub : Rules) : Reading Tree := do
  let start ← here
  if (← atMark "+") || (← atMark "-") then advance
  let _ ← acceptWord "readonly"
  mark "["
  let key ← anyWord .identifier
  if ← acceptMark ":" then
    let keyType ← sub .type
    mark "]"
    let value ← annotation sub
    node .other start (key :: keyType :: value)
  else
    word "in"
    let source ← sub .type
    let renamed ← if ← acceptWord "as" then do
        let type ← sub .type
        pure [type]
      else pure []
    mark "]"
    if (← atMark "+") || (← atMark "-") then advance
    let _ ← acceptMark "?"
    let value ← annotation sub
    node .other start ((key.ofKind .typeName :: source :: renamed) ++ value)

def typeMember (sub : Rules) : Reading Tree := do
  if let some found ← attempt (bracketMember sub) then return found
  let start ← here
  let _ ← attempt do
    word "new"
    check ((← atMark "(") || (← atMark "<"))
  if (← atMark "(") || (← atMark "<") then
    let generic ← typeParametersHere sub
    let parameters ← sub .parameters
    let result ← resultType sub
    node .other start (generic ++ parameters :: result)
  else
    modifiers ["public", "private", "protected", "static", "override", "readonly", "async", "get",
      "set", "declare", "abstract"]
    let _ ← acceptMark "*"
    let key ← propertyName sub
    let _ ← acceptMark "?"
    if (← atMark "(") || (← atMark "<") then
      let generic ← typeParametersHere sub
      let parameters ← sub .parameters
      let result ← resultType sub
      node .other start (key :: generic ++ parameters :: result)
    else
      let type ← annotation sub
      node .other start (key :: type)

def objectType (sub : Rules) : Reading Tree := do
  let start ← here
  mark "\x7b"
  let members ← many do
    if ← atMark "\x7d" then pure none
    else if (← acceptMark ";") || (← acceptMark ",") then pure (some [])
    else
      let found ← typeMember sub
      memberEnd
      pure (some [found])
  mark "\x7d"
  node .other start members.flatten

def tupleItem (sub : Rules) : Reading (List Tree) := do
  let _ ← acceptMark "..."
  let label ← attempt do
    let label ← anyWord .identifier
    let _ ← acceptMark "?"
    mark ":"
    pure label
  let type ← sub .type
  let _ ← acceptMark "?"
  pure (label.toList ++ [type])

def plainType (sub : Rules) : Reading Tree := do
  let next ← token
  let start := next.start
  match next.lexeme with
  | .string => leaf .string
  | .number => leaf .other
  | .punctuator "-" => do
    advance
    leaf .other
  | .punctuator "\x60" => template (sub .type)
  | .punctuator "\x7b" => objectType sub
  | .punctuator "[" => do
    advance
    let items ← listUntil "]" "," (tupleItem sub)
    node .other start items
  | .punctuator "(" => do
    advance
    let inside ← sub .type
    mark ")"
    node .other start [inside]
  | .word "typeof" => do
    advance
    if ← atWord "import" then
      let inside ← sub .typeOperand
      node .other start [inside]
    else
      let names ← if ← atWord "this" then do
          let self ← leaf .other
          if ← acceptMark "." then
            let rest ← dotted
            pure (self :: rest.map (·.ofKind .propertyName))
          else pure [self]
        else dotted
      let arguments ← if ← afterBreak then pure [] else typeArgumentsHere sub
      node .other start (names ++ arguments)
  | .word "import" => do
    advance
    mark "("
    let source ← sub .type
    let _ ← acceptMark ","
    if !(← atMark ")") then
      let _ ← sub (.assignment false false)
    mark ")"
    let names ← if ← acceptMark "." then dotted else pure []
    let arguments ← typeArgumentsHere sub
    node .other start (source :: names.map (·.ofKind .propertyName) ++ arguments)
  | .word w => do
    if plainTypes.contains w then leaf .other
    else
      check !(["function", "class", "new", "var", "const", "return", "if", "in", "instanceof",
        "extends", "default", "case", "export"].contains w)
      let names ← dottedType
      let arguments ← typeArgumentsHere sub
      match names, arguments with
      | [only], [] => pure only
      | names, arguments => node .other start (names ++ arguments)
  | _ => fail

def atType : Reading Bool := fun c =>
  match c.token.lexeme with
  | .word w => some (!(["extends", "in", "is", "instanceof", "as"].contains w), c)
  | .string => some (true, c)
  | .number => some (true, c)
  | .punctuator p => some (["\x7b", "[", "(", "\x60", "-"].contains p, c)
  | _ => some (false, c)

def typeOperand (sub : Rules) : Reading Tree := do
  let start ← here
  let prefixed ← attempt do
    let w ← token
    match w.lexeme with
    | .word "infer" => do
      advance
      let name ← name .typeName
      let bound ← if ← acceptWord "extends" then do
          let bound ← sub .type
          pure [bound]
        else pure []
      node .other start (name :: bound)
    | .word w => do
      check (["keyof", "unique", "readonly"].contains w)
      advance
      check (← atType)
      let inside ← sub .typeOperand
      node .other start [inside]
    | _ => fail
  match prefixed with
  | some found => pure found
  | none => do
    let first ← plainType sub
    iterate (fun inside => do
      if (← atMark "[") && !(← afterBreak) then
        advance
        if ← acceptMark "]" then
          let found ← node .other start [inside]
          pure (some found)
        else
          let index ← sub .type
          mark "]"
          let found ← node .other start [inside, index]
          pure (some found)
      else pure none) first

def joinedType (sub : Rules) : Reading Tree := do
  let start ← here
  if (← atMark "|") || (← atMark "&") then advance
  let member : Reading Tree := do
    if (← atMark "<") || (← atWord "new") then functionType sub
    else either (functionType sub) (sub .typeOperand)
  let first ← member
  let rest ← many do
    if (← atMark "|") || (← atMark "&") then
      advance
      let found ← member
      pure (some found)
    else pure none
  if rest.isEmpty then pure first else node .other start (first :: rest)

def typeRule (sub : Rules) : Reading Tree := do
  let start ← here
  let first ← joinedType sub
  if (← atWord "extends") && !(← afterBreak) then
    match ← attempt do
      advance
      let bound ← joinedType sub
      mark "?"
      let yes ← sub .type
      mark ":"
      let no ← sub .type
      node .other start [first, bound, yes, no] with
    | some found => pure found
    | none => pure first
  else pure first

end EndpointAtlas.Grammar
