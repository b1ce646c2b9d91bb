import EndpointAtlas.Syntax.Grammar.Function

set_option autoImplicit false

namespace EndpointAtlas.Grammar

open Reading

def outsideName : Reading Tree := do
  if (← token).lexeme = .string then leaf .string else anyWord .identifier

def typeMark : Reading Unit := do
  if (← dialect).isTyped && ((← atWord "type") || (← atWord "typeof")) then
    let _ ← attempt do
      advance
      check ((← atAnyWord) || (← token).lexeme = .string)
      check !(← atWord "as")
  else pure ()

def importSpecifier : Reading Tree := do
  let start ← here
  typeMark
  let outside ← outsideName
  if ← acceptWord "as" then
    let inside ← anyWord .identifier
    node .importSpecifier start [outside.inRole .name, inside.inRole .newName]
  else
    check (outside.kind = .identifier)
    node .importSpecifier start [outside.inRole .name]

def importClause : Reading Tree := do
  let start ← here
  let group : Reading Tree := do
    let inner ← here
    if ← acceptMark "*" then
      word "as"
      let inside ← anyWord .identifier
      node .namespaceImport inner [inside]
    else
      mark "\x7b"
      let items ← listUntil "\x7d" "," do
        let item ← importSpecifier
        pure [item]
      node .namedImports inner items
  if (← atMark "*") || (← atMark "\x7b") then
    let found ← group
    node .importClause start [found]
  else
    let first ← name .identifier
    if ← acceptMark "," then
      let found ← group
      node .importClause start [first, found]
    else node .importClause start [first]

def importProperties (sub : Rules) : Reading (List Tree) := do
  if (← atWord "with") || ((← atWord "assert") && !(← afterBreak)) then
    let start ← here
    advance
    let inside ← sub (.operand false)
    let found ← node .other start [inside]
    pure [found]
  else pure []

def importRequire : Reading Tree := do
  let start ← here
  let name ← name .identifier
  mark "="
  word "require"
  mark "("
  let source ← quoted
  mark ")"
  node .importRequire start [name, source.inRole .source]

def importStatement (sub : Rules) : Reading Tree := do
  let start ← here
  word "import"
  let typed := (← dialect).isTyped
  if (← token).lexeme = .string then
    let source ← quoted
    let properties ← importProperties sub
    semicolon
    node .importStatement start (source.inRole .source :: properties)
  else
    let fromClause : Reading Tree := do
      let clause ← importClause
      word "from"
      let source ← quoted
      let properties ← importProperties sub
      semicolon
      node .importStatement start (clause :: source.inRole .source :: properties)
    let required : Reading Tree := do
      check typed
      let clause ← importRequire
      semicolon
      node .importStatement start [clause]
    let aliased : Reading Tree := do
      check typed
      let first ← name .identifier
      mark "="
      let names ← dotted
      semicolon
      node .other start (first :: names)
    let plain := either fromClause (either required aliased)
    let marked : Reading Tree := do
      check typed
      check ((← atWord "type") || (← atWord "typeof"))
      advance
      plain
    either plain marked

def exportSpecifier : Reading Tree := do
  let start ← here
  typeMark
  let inside ← outsideName
  if ← acceptWord "as" then
    let outside ← outsideName
    node .other start [inside, outside]
  else node .other start [inside]

def exportSource (sub : Rules) (needed : Bool) : Reading (List Tree) := do
  if ← acceptWord "from" then
    let source ← quoted
    let properties ← importProperties sub
    pure (source.inRole .source :: properties)
  else
    check !needed
    pure []

def exportStatement (sub : Rules) (start : Nat) (marks : List Tree) : Reading Tree := do
  word "export"
  let typed := (← dialect).isTyped
  let everything : Reading (List Tree) := do
    mark "*"
    let inside ← if ← acceptWord "as" then do
        let found ← outsideName
        pure [found]
      else pure []
    let source ← exportSource sub true
    semicolon
    pure (inside ++ source)
  let braces : Reading (List Tree) := do
    mark "\x7b"
    let items ← listUntil "\x7d" "," do
      let item ← exportSpecifier
      pure [item]
    let source ← exportSource sub false
    semicolon
    pure (items ++ source)
  let children ←
    if ← atMark "*" then everything
    else if ← atMark "\x7b" then braces
    else if ← atWord "default" then do
      advance
      let declared ← attempt do
        check ((← atWord "function") || (← atWord "async") || (← atWord "class") || (← atMark "@")
          || (typed && ((← atWord "abstract") || (← atWord "interface"))))
        sub .statement
      match declared with
      | some found => pure [found]
      | none => do
        let value ← sub (.assignment false false)
        semicolon
        pure [value.inRole .value]
    else if typed && (← atMark "=") then do
      advance
      let value ← sub (.expression false)
      semicolon
      pure [value]
    else if typed && (← atWord "as") then do
      advance
      word "namespace"
      let name ← anyWord .identifier
      semicolon
      pure [name]
    else do
      let typeOnly : Reading (List Tree) := do
        check typed
        word "type"
        if ← atMark "*" then everything else braces
      either typeOnly do
        let found ← sub .statement
        pure [found]
  node .exportStatement start (marks ++ children)

end EndpointAtlas.Grammar
