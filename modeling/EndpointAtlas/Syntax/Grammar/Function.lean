import EndpointAtlas.Syntax.Grammar.Pattern

set_option autoImplicit false

namespace EndpointAtlas.Grammar

open Reading

def signature (sub : Rules) : Reading (List Tree) := do
  let generic ← typeParametersHere sub
  let parameters ← sub .parameters
  let result ← resultType sub
  pure (generic ++ parameters :: result)

def functionWord : Reading Unit := do
  if ← atWord "async" then
    advance
    check !(← afterBreak)
  word "function"

def functionExpression (sub : Rules) : Reading Tree := do
  let start ← here
  functionWord
  let generator ← acceptMark "*"
  let name ← if ← atAnyWord then do
      let name ← leaf .identifier
      pure [name.inRole .name]
    else pure []
  let head ← signature sub
  let body ← sub .block
  node (if generator then .generatorExpression else .functionExpression) start
    (name ++ head ++ [body.inRole .body])

/-- A function as a declaration. In a typed dialect the body can be missing; then it declares only
what the function looks like. -/
def functionDeclaration (sub : Rules) : Reading Tree := do
  let start ← here
  functionWord
  let generator ← acceptMark "*"
  let name ← anyWord .identifier
  let head ← signature sub
  if (← dialect).isTyped && !(← atMark "\x7b") then
    semicolon
    node .other start (name.inRole .name :: head)
  else
    let body ← sub .block
    node (if generator then .generatorDeclaration else .functionDeclaration) start
      (name.inRole .name :: head ++ [body.inRole .body])

def memberWords (typed : Bool) : List String :=
  if typed then
    ["public", "private", "protected", "static", "override", "readonly", "async", "get", "set",
      "declare", "abstract", "accessor"]
  else ["static", "async", "get", "set"]

def fieldEnd : Reading Unit := do
  if (← dialect).isTyped && (← acceptMark ",") then pure () else semicolon

/-- A member of a class. In a typed dialect the decorators of a method stand beside it, those of a
field are part of it. -/
def classMember (sub : Rules) : Reading (List Tree) := do
  let typed := (← dialect).isTyped
  let start ← here
  let marks ← decorators sub
  let isStaticBlock ← ahead do
    word "static"
    mark "\x7b"
  if isStaticBlock then
    advance
    let body ← sub .block
    let found ← node .other start [body]
    pure (marks ++ [found])
  else
    let inner ← here
    modifiers (memberWords typed)
    match ← attempt do
      check typed
      bracketMember sub with
    | some found =>
      fieldEnd
      pure (marks ++ [found])
    | none =>
      let _ ← acceptMark "*"
      let key ← propertyName sub
      if typed then
        let _ ← acceptMark "?"
        let _ ← acceptMark "!"
      if (← atMark "(") || (typed && (← atMark "<")) then
        let head ← signature sub
        if ← atMark "\x7b" then
          let body ← sub .block
          let children := key.inRole .name :: head ++ [body.inRole .body]
          let found ← if typed then
              node .method inner children else node .method start (marks ++ children)
          let _ ← acceptMark ";"
          pure (if typed then marks ++ [found] else [found])
        else
          check typed
          let found ← node .other inner (key.inRole .name :: head)
          fieldEnd
          pure (marks ++ [found])
      else
        let type ← annotation sub
        let value ← if ← acceptMark "=" then do
            let value ← sub (.assignment false false)
            pure [value.inRole .value]
          else pure []
        let found ← node .field start (marks ++ key.inRole .name :: type ++ value)
        fieldEnd
        pure [found]

def classBodyRule (sub : Rules) : Reading Tree := do
  let start ← here
  mark "\x7b"
  let members ← many do
    if ← atMark "\x7d" then pure none
    else if ← acceptMark ";" then pure (some [])
    else
      let found ← classMember sub
      pure (some found)
  mark "\x7d"
  node .classBody start members.flatten

def heritage (sub : Rules) : Reading (List Tree) := do
  let base ← if ← acceptWord "extends" then do
      let base ← sub (.operand false)
      let arguments ← typeArgumentsHere sub
      pure (base :: arguments)
    else pure []
  let typed := (← dialect).isTyped
  let promised ← if typed && (← acceptWord "implements") then do
      let first ← sub .type
      let rest ← many do
        if ← acceptMark "," then
          let next ← sub .type
          pure (some next)
        else pure none
      pure (first :: rest)
    else pure []
  pure (base ++ promised)

def classFrom (sub : Rules) (start : Nat) (marks : List Tree) (declares : Bool) : Reading Tree := do
  let typed := (← dialect).isTyped
  let isAbstract ← if typed then acceptWord "abstract" else pure false
  word "class"
  let nameKind := if typed then Kind.typeName else .identifier
  let named := (← atAnyWord) && !(← atWord "extends") && !(typed && (← atWord "implements"))
  let name ← if named then do
      let name ← leaf nameKind
      pure [name.inRole .name]
    else do
      check !declares
      pure []
  let generic ← typeParametersHere sub
  let bases ← heritage sub
  let body ← sub .classBody
  let kind :=
    if !declares then Kind.other else if isAbstract then .abstractClass else .classDeclaration
  node kind start (marks ++ name ++ generic ++ bases ++ [body.inRole .body])

/-- A decorator: a name with dots, which can be called, or an expression in parentheses. Any word is
a name here, `delete` as well. -/
def decoratorRule (sub : Rules) : Reading Tree := do
  let start ← here
  mark "@"
  let inner ← here
  if ← acceptMark "(" then
    let inside ← sub (.expression false)
    mark ")"
    let expression ← node .other inner [inside]
    node .decorator start [expression]
  else
    let first ← anyWord .identifier
    let path ← iterate (fun path => do
      if ← acceptMark "." then
        let property ← if (← token).lexeme = .privateName then leaf .privateName
          else anyWord .propertyName
        let found ← node .member inner [path.inRole .object, property.inRole .property]
        pure (some found)
      else pure none) first
    let generic ← typeArgumentsHere sub
    if ← atMark "(" then
      let arguments ← sub .arguments
      let call ← node .call inner (path.inRole .callee :: generic ++ [arguments.inRole .arguments])
      node .decorator start [call]
    else
      check generic.isEmpty
      node .decorator start [path]

end EndpointAtlas.Grammar
