import EndpointAtlas.Syntax.Grammar.Expression
import EndpointAtlas.Syntax.Grammar.Module

set_option autoImplicit false

namespace EndpointAtlas.Grammar

open Reading

def unread : Reading Tree := do
  let start ← here
  let inner ← if ← atAnyWord then do
      let word ← leaf .identifier
      pure [word]
    else do
      advance
      pure []
  node .error start inner

def atPlain : Reading Bool := do
  match (← token).lexeme with
  | .word _ => pure true
  | .number => pure true
  | .string => pure true
  | _ => pure false

/-- A call as a statement in which a word or a value follows an argument without a comma. The call
stands; what follows the argument is unread. -/
def interruptedCall (sub : Rules) : Reading Tree := do
  let start ← here
  let callee ← sub .newCallee
  let opening ← here
  mark "("
  let items ← listUntil ")" "," do
    let item ← sub (.assignment false false)
    if ← atPlain then
      let extra ← unread
      pure [item, extra]
    else pure [item]
  let arguments ← node .arguments opening items
  let call ← node .call start [callee.inRole .callee, arguments.inRole .arguments]
  semicolon
  node .other start [call]

def statementsUntil (sub : Rules) (stops : Reading Bool) : Reading (List Tree) :=
  many do
    if (← token).lexeme = .stop then pure none
    else if ← stops then pure none
    else
      let found ← either (sub .statement) (either (interruptedCall sub) unread)
      pure (some found)

def blockRule (sub : Rules) : Reading Tree := do
  let start ← here
  mark "\x7b"
  let inside ← statementsUntil sub (atMark "\x7d")
  mark "\x7d"
  node .other start inside

def condition (sub : Rules) : Reading Tree := do
  mark "("
  let inside ← sub (.expression false)
  mark ")"
  pure inside

def declarator (sub : Rules) (noIn : Bool) : Reading Tree := do
  let start ← here
  let name ← sub .binding
  let type ← if (← dialect).isTyped then do
      let _ ← acceptMark "!"
      annotation sub
    else pure []
  let value ← if ← acceptMark "=" then do
      let value ← sub (.assignment noIn false)
      pure [value.inRole .value]
    else pure []
  node .declarator start (name.inRole .name :: type ++ value)

def atVariable : Reading Bool := do
  if (← atWord "var") || (← atWord "const") then pure true
  else if ← atWord "let" then
    ahead do
      advance
      check ((← atName) || (← atMark "\x7b") || (← atMark "[") || (← atWord "yield"))
  else pure false

def declarators (sub : Rules) (noIn : Bool) : Reading (List Tree) := do
  let first ← declarator sub noIn
  let rest ← many do
    if ← acceptMark "," then
      let next ← declarator sub noIn
      pure (some next)
    else pure none
  pure (first :: rest)

def variableDeclaration (sub : Rules) : Reading Tree := do
  let start ← here
  check (← atVariable)
  advance
  let found ← declarators sub false
  semicolon
  node .declaration start found

def overHead (sub : Rules) : Reading (List Tree) := do
  let target ← if ← atVariable then do
      advance
      let target ← sub .binding
      let value ← default? sub
      pure (target :: value)
    else do
      let target ← sub .target
      pure [target]
  if ← acceptWord "of" then pure () else word "in"
  let items ← sub (.expression false)
  mark ")"
  pure (target ++ [items])

def countHead (sub : Rules) : Reading (List Tree) := do
  let start ← here
  let first ← if ← atVariable then do
      advance
      let found ← declarators sub true
      let all ← node .declaration start found
      mark ";"
      pure [all]
    else if ← acceptMark ";" then pure []
    else do
      let found ← sub (.expression false)
      mark ";"
      pure [found]
  let test ← if ← atMark ";" then pure [] else do
      let found ← sub (.expression false)
      pure [found]
  mark ";"
  let step ← if ← atMark ")" then pure [] else do
      let found ← sub (.expression false)
      pure [found]
  mark ")"
  pure (first ++ test ++ step)

def loop (sub : Rules) : Reading Tree := do
  let start ← here
  word "for"
  let _ ← acceptWord "await"
  mark "("
  let head ← either (overHead sub) (countHead sub)
  let body ← sub .statement
  node .other start (head ++ [body])

def cases (sub : Rules) : Reading (List Tree) := do
  mark "\x7b"
  let found ← many do
    if ← atMark "\x7d" then pure none
    else
      let start ← here
      let test ← if ← acceptWord "default" then pure [] else do
          word "case"
          let test ← sub (.expression false)
          pure [test]
      mark ":"
      let inside ← statementsUntil sub do
        pure ((← atMark "\x7d") || (← atWord "case") || (← atWord "default"))
      let item ← node .other start (test ++ inside)
      pure (some item)
  mark "\x7d"
  pure found

def handlers (sub : Rules) : Reading (List Tree) := do
  let caught ← if ← acceptWord "catch" then do
      let parameter ← if ← acceptMark "(" then do
          let parameter ← sub .binding
          let type ← annotation sub
          mark ")"
          pure (parameter :: type)
        else pure []
      let body ← sub .block
      pure (parameter ++ [body])
    else pure []
  let last ← if ← acceptWord "finally" then do
      let body ← sub .block
      pure [body]
    else pure []
  check (!caught.isEmpty || !last.isEmpty)
  pure (caught ++ last)

def expressionStatement (sub : Rules) : Reading Tree := do
  let start ← here
  check !(← atMark "\x7b")
  let inside ← sub (.expression false)
  semicolon
  node .other start [inside]

def labeled (sub : Rules) : Reading Tree := do
  let start ← here
  check (← atName)
  advance
  mark ":"
  let inside ← sub .statement
  node .other start [inside]

def jump (sub : Rules) (words : List String) : Reading Tree := do
  let start ← here
  match (← token).lexeme with
  | .word w => do
    check (words.contains w)
    advance
    let ends ← ahead semicolon
    if ends then
      semicolon
      node .other start []
    else
      let inside ← sub (.expression false)
      semicolon
      node .other start [inside]
  | _ => fail

def escape (words : List String) : Reading Tree := do
  let start ← here
  match (← token).lexeme with
  | .word w => do
    check (words.contains w)
    advance
    if (← atName) && !(← afterBreak) then advance
    semicolon
    node .other start []
  | _ => fail

def enumeration (sub : Rules) : Reading Tree := do
  let start ← here
  let _ ← acceptWord "const"
  word "enum"
  let name ← name .identifier
  mark "\x7b"
  let items ← listUntil "\x7d" "," do
    let first ← here
    let key ← propertyName sub
    let value ← default? sub
    if value.isEmpty then pure [key] else
      let item ← node .other first (key :: value)
      pure [item]
  node .other start (name :: items)

def interfaceDeclaration (sub : Rules) : Reading Tree := do
  let start ← here
  word "interface"
  let name ← name .typeName
  let generic ← typeParametersHere sub
  let bases ← if ← acceptWord "extends" then do
      let first ← sub .type
      let rest ← many do
        if ← acceptMark "," then
          let next ← sub .type
          pure (some next)
        else pure none
      pure (first :: rest)
    else pure []
  let body ← objectType sub
  node .other start (name :: generic ++ bases ++ [body])

/-- The end of a statement that ends with a type; brackets on the next line do not go on with it. -/
def typeEnd : Reading Unit := do
  if (← afterBreak) && ((← atMark "(") || (← atMark "[")) then pure () else semicolon

def typeAlias (sub : Rules) : Reading Tree := do
  let start ← here
  word "type"
  let name ← name .typeName
  let generic ← typeParametersHere sub
  mark "="
  let type ← sub .type
  typeEnd
  node .other start (name :: generic ++ [type])

def namespaceDeclaration (sub : Rules) : Reading Tree := do
  let start ← here
  check ((← atWord "namespace") || (← atWord "module"))
  advance
  check !(← afterBreak)
  let names ← if (← token).lexeme = .string then do
      let found ← quoted
      pure [found]
    else dotted
  if ← atMark "\x7b" then
    let body ← sub .block
    node .other start (names ++ [body])
  else
    semicolon
    node .other start names

def ambient (sub : Rules) : Reading Tree := do
  let start ← here
  word "declare"
  check !(← afterBreak)
  if ← acceptWord "global" then
    let body ← sub .block
    node .other start [body]
  else
    check ((← atAnyWord) || (← atMark "@"))
    let inside ← sub .statement
    node .other start [inside]

def typedDeclaration (sub : Rules) : Reading Tree := do
  check (← dialect).isTyped
  match (← token).lexeme with
  | .word "enum" => enumeration sub
  | .word "const" => enumeration sub
  | .word "interface" => interfaceDeclaration sub
  | .word "type" => typeAlias sub
  | .word "namespace" => namespaceDeclaration sub
  | .word "module" => namespaceDeclaration sub
  | .word "declare" => ambient sub
  | .word "abstract" => do
    let start ← here
    classFrom sub start [] true
  | _ => fail

def importOrExpression (sub : Rules) : Reading Tree := do
  let calls ← ahead do
    advance
    check ((← atMark "(") || (← atMark "."))
  if calls then expressionStatement sub else importStatement sub

def wordStatement (sub : Rules) (w : String) : Reading Tree := do
  let start ← here
  match w with
  | "var" => variableDeclaration sub
  | "const" => either (typedDeclaration sub) (variableDeclaration sub)
  | "function" => functionDeclaration sub
  | "class" => classFrom sub start [] true
  | "import" => importOrExpression sub
  | "export" => exportStatement sub start []
  | "if" => do
    advance
    let test ← condition sub
    let yes ← sub .statement
    if ← acceptWord "else" then
      let no ← sub .statement
      node .other start [test, yes, no]
    else node .other start [test, yes]
  | "for" => loop sub
  | "while" => do
    advance
    let test ← condition sub
    let body ← sub .statement
    node .other start [test, body]
  | "do" => do
    advance
    let body ← sub .statement
    word "while"
    let test ← condition sub
    let _ ← attempt semicolon
    node .other start [body, test]
  | "switch" => do
    advance
    let value ← condition sub
    let found ← cases sub
    node .other start (value :: found)
  | "try" => do
    advance
    let body ← sub .block
    let rest ← handlers sub
    node .other start (body :: rest)
  | "with" => do
    advance
    let value ← condition sub
    let body ← sub .statement
    node .other start [value, body]
  | "return" => jump sub ["return"]
  | "throw" => jump sub ["throw"]
  | "break" => escape ["break"]
  | "continue" => escape ["continue"]
  | "debugger" => do
    advance
    semicolon
    node .other start []
  | "async" => either (functionDeclaration sub) (either (labeled sub) (expressionStatement sub))
  | "let" => either (variableDeclaration sub) (either (labeled sub) (expressionStatement sub))
  | _ => either (typedDeclaration sub) (either (labeled sub) (expressionStatement sub))

def statementRule (sub : Rules) : Reading Tree := do
  let start ← here
  match (← token).lexeme with
  | .punctuator ";" => do
    advance
    node .other start []
  | .punctuator "\x7b" => sub .block
  | .punctuator "@" => do
    let marks ← decorators sub
    if ← atWord "export" then exportStatement sub start marks
    else either (classFrom sub start marks true) (expressionFrom start marks)
  | .word w => wordStatement sub w
  | _ => expressionStatement sub
where
  expressionFrom (start : Nat) (marks : List Tree) : Reading Tree := do
    let found ← classFrom sub start marks false
    semicolon
    node .other start [found]

end EndpointAtlas.Grammar
