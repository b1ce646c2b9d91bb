import EndpointAtlas.Syntax.Grammar.Function
import EndpointAtlas.Syntax.Grammar.Markup

/-!
Expressions. Binary operators are read without regard to how strongly they bind, since nothing asks
for that; calls, members, functions and classes are told apart.
-/

set_option autoImplicit false

namespace EndpointAtlas.Grammar

open Reading

def argumentsRule (sub : Rules) : Reading Tree := do
  let start ← here
  mark "("
  let items ← listUntil ")" "," do
    if ← atMark "," then pure []
    else
      let first ← here
      if ← acceptMark "..." then
        let inside ← sub (.assignment false false)
        let item ← node .other first [inside]
        pure [item]
      else
        let item ← sub (.assignment false false)
        pure [item]
  node .arguments start items

def array (sub : Rules) : Reading Tree := do
  let start ← here
  mark "["
  let items ← listUntil "]" "," do
    if ← atMark "," then pure []
    else
      let first ← here
      if ← acceptMark "..." then
        let inside ← sub (.assignment false false)
        let item ← node .other first [inside]
        pure [item]
      else
        let item ← sub (.assignment false false)
        pure [item]
  node .array start items

def objectMethod (sub : Rules) : Reading Tree := do
  let start ← here
  modifiers ["async", "get", "set", "static"]
  let _ ← acceptMark "*"
  let key ← propertyName sub
  if (← dialect).isTyped then
    let _ ← acceptMark "?"
  check ((← atMark "(") || (← atMark "<"))
  let head ← signature sub
  let body ← sub .block
  node .method start (key.inRole .name :: head ++ [body.inRole .body])

def objectItem (sub : Rules) : Reading Tree := do
  let start ← here
  if ← acceptMark "..." then
    let inside ← sub (.assignment false false)
    node .other start [inside]
  else
    let pair ← attempt do
      let key ← propertyName sub
      mark ":"
      pure key
    match pair with
    | some key => do
      let value ← sub (.assignment false false)
      node .other start [key.inRole .key, value.inRole .value]
    | none => do
      let short ← attempt do
        let found ← name .shorthand
        check ((← atMark ",") || (← atMark "\x7d"))
        pure found
      match short with
      | some found => pure found
      | none => objectMethod sub

def object (sub : Rules) : Reading Tree := do
  let start ← here
  mark "\x7b"
  let items ← listUntil "\x7d" "," do
    if ← atMark "," then pure []
    else
      let item ← objectItem sub
      pure [item]
  node .object start items

def pattern : Reading Tree := do
  let next ← token
  match next.here with
  | '/' :: rest =>
    match Token.patternLength false false rest with
    | some count =>
      let flags := Token.runLength (fun c => 'a' ≤ c && c ≤ 'z') (rest.drop count)
      check (count ≠ 1)
      let start ← here
      advanceBy .stray (count + 1 + flags)
      node .other start []
    | none => fail
  | _ => fail

def parenthesized (sub : Rules) : Reading Tree := do
  let start ← here
  mark "("
  let inside ← sub (.expression false)
  let type ← annotation sub
  mark ")"
  node .other start (inside :: type)

def newExpression (sub : Rules) : Reading Tree := do
  let start ← here
  word "new"
  if ← acceptMark "." then
    let target ← anyWord .propertyName
    node .other start [target]
  else
    let made ← sub .newCallee
    let generic ← match ← attempt do
        let found ← typeArgumentsHere sub
        check (found.isEmpty || (← atMark "("))
        pure found with
      | some found => pure found
      | none => pure []
    if ← atMark "(" then
      let arguments ← sub .arguments
      node .other start (made :: generic ++ [arguments.inRole .arguments])
    else node .other start (made :: generic)

def classExpression (sub : Rules) : Reading Tree := do
  let start ← here
  let marks ← decorators sub
  classFrom sub start marks false

def valueWords : List String := ["this", "super", "null", "true", "false", "undefined"]

def primary (sub : Rules) : Reading Tree := do
  let next ← token
  match next.lexeme with
  | .number => leaf .other
  | .string => leaf .string
  | .privateName => leaf .privateName
  | .punctuator "\x60" => template (sub (.expression false))
  | .punctuator "(" => parenthesized sub
  | .punctuator "[" => array sub
  | .punctuator "\x7b" => object sub
  | .punctuator "@" => classExpression sub
  | .punctuator "/" => pattern
  | .punctuator "/=" => pattern
  | .punctuator "<" => do
    check (← dialect).hasMarkup
    sub .element
  | .word "function" => functionExpression sub
  | .word "class" => classExpression sub
  | .word "new" => newExpression sub
  | .word "import" => do
    let found ← leaf .other
    check ((← atMark "(") || (← atMark ".") || (← atMark "<"))
    pure found
  | .word "async" => either (functionExpression sub) (leaf .identifier)
  | .word w =>
    if valueWords.contains w then leaf .other
    else if reserved.contains w then fail
    else leaf .identifier
  | _ => fail

def startsOperand : Reading Bool := fun c =>
  match c.token.lexeme with
  | .word "in" => some (false, c)
  | .word "instanceof" => some (false, c)
  | .word w => some (!(c.dialect.isTyped && ["as", "satisfies"].contains w), c)
  | .punctuator p =>
    some (["(", "[", "\x7b", "!", "~", "+", "-", "++", "--", "\x60", "/", "@", "<"].contains p, c)
  | .stop => some (false, c)
  | .stray => some (false, c)
  | _ => some (true, c)

def called (sub : Rules) (start : Nat) (callee : Tree) (generic : List Tree) : Reading Tree := do
  let arguments ← sub .arguments
  node .call start (callee.inRole .callee :: generic ++ [arguments.inRole .arguments])

def tagged (sub : Rules) (start : Nat) (callee : Tree) (generic : List Tree) : Reading Tree := do
  let text ← template (sub (.expression false))
  node .call start (callee.inRole .callee :: generic ++ [text.inRole .arguments])

def chainStep (sub : Rules) (start : Nat) (calls : Bool) (base : Tree) : Reading (Option Tree) := do
  let typed := (← dialect).isTyped
  let memberName : Reading Tree := do
    if (← token).lexeme = .privateName then leaf .privateName else anyWord .propertyName
  let subscripted : Reading (Option Tree) := do
    mark "["
    let index ← sub (.expression false)
    mark "]"
    let found ← node .other start [base.inRole .object, index]
    pure (some found)
  match (← token).lexeme with
  | .punctuator "." => do
    advance
    let property ← memberName
    let found ← node .member start [base.inRole .object, property.inRole .property]
    pure (some found)
  | .punctuator "?." => do
    check calls
    advance
    if ← atMark "(" then
      let found ← called sub start base []
      pure (some found)
    else if ← atMark "[" then subscripted
    else if typed && (← atMark "<") then
      let generic ← sub .typeArguments
      let found ← called sub start base [generic]
      pure (some found)
    else
      let property ← memberName
      let found ← node .member start [base.inRole .object, property.inRole .property]
      pure (some found)
  | .punctuator "[" => subscripted
  | .punctuator "(" =>
    if calls then
      let found ← called sub start base []
      pure (some found)
    else pure none
  | .punctuator "\x60" =>
    if calls then
      let found ← tagged sub start base []
      pure (some found)
    else pure none
  | .punctuator "!" =>
    if typed && !(← afterBreak) then
      advance
      let found ← node .other start [base]
      pure (some found)
    else pure none
  | _ => pure none

/-- Type arguments after what is read, and the call they are for. Those that follow an operand of a
`joined` operator belong to the operator's whole expression, which is then what is called. -/
def typeStep (sub : Rules) (start : Nat) (joined : Bool) (base : Tree) : Reading (Option Tree) := do
  if (← dialect).isTyped && ((← atMark "<") || (← atMark "<<")) then
    attempt do
      let callee : Tree :=
        if joined then .node .other .callee base.span [base.inRole .plain] else base
      let generic ← sub .typeArguments
      if ← atMark "(" then called sub start callee [generic]
      else if ← atMark "\x60" then tagged sub start callee [generic]
      else if (← startsOperand) && !(← atMark "\x7b") && !(← afterBreak) then fail
      else
        check !(← atMark "\x7b")
        node .other start [base, generic]
  else pure none

/-- A chain of members, subscripts and calls. Once type arguments were given to an operator's whole
expression, what follows them is a chain on that call. -/
def chain (sub : Rules) (calls joined : Bool) : Reading Tree := do
  let start ← here
  let first ← primary sub
  let step (sofar : Tree × Bool) : Reading (Option (Tree × Bool)) := do
    match ← chainStep sub start calls sofar.1 with
    | some found => pure (some (found, sofar.2))
    | none =>
      if calls then
        let found ← typeStep sub start sofar.2 sofar.1
        pure (found.map fun tree => (tree, false))
      else pure none
  let found ← iterate step (first, joined)
  pure found.1

def operandMarks : List String := ["!", "~", "+", "-", "++", "--"]

def operandWords : List String := ["typeof", "void", "delete", "await"]

def operandRule (sub : Rules) (joined : Bool) : Reading Tree := do
  let next ← token
  let start := next.start
  let before := match next.lexeme with
    | .punctuator p => operandMarks.contains p
    | .word w => operandWords.contains w
    | _ => false
  if before then
    advance
    let inside ← sub (.operand true)
    node .other start [inside]
  else if next.lexeme = .punctuator "<" ∧ !(← dialect).hasMarkup then
    let type ← sub .typeArguments
    let inside ← sub (.operand false)
    node .other start [type, inside]
  else
    let found ← chain sub true joined
    if ((← atMark "++") || (← atMark "--")) && !(← afterBreak) then
      advance
      node .other start [found]
    else pure found

def binaryMarks : List String :=
  ["+", "-", "*", "/", "%", "**", "==", "!=", "===", "!==", "<", ">", "<=", ">=", "<<", ">>", ">>>",
    "&", "|", "^", "&&", "||", "??"]

def tightMarks : List String := ["+", "-", "*", "/", "%", "**", "<<", ">>", ">>>"]

def atBinary (noIn : Bool) : Reading Bool := do
  match (← token).lexeme with
  | .punctuator p => pure (binaryMarks.contains p)
  | .word "in" => pure !noIn
  | .word "instanceof" => pure true
  | _ => pure false

def atTyping : Reading Bool := do
  match (← token).lexeme with
  | .word "as" => pure ((← dialect).isTyped && !(← afterBreak))
  | .word "satisfies" => pure ((← dialect).isTyped && !(← afterBreak))
  | _ => pure false

def joined (sub : Rules) (noIn : Bool) : Reading Tree := do
  let start ← here
  let first ← sub (.operand false)
  let rest ← many do
    if ← atBinary noIn then
      let tight := match (← token).lexeme with
        | .punctuator p => tightMarks.contains p
        | _ => false
      advance
      let next ← sub (.operand tight)
      pure (some [next])
    else if ← atTyping then
      advance
      if ← acceptWord "const" then pure (some [])
      else
        let type ← sub .type
        pure (some [type])
    else pure none
  if rest.isEmpty then pure first else node .other start (first :: rest.flatten)

def conditional (sub : Rules) (noIn : Bool) : Reading Tree := do
  let start ← here
  let test ← joined sub noIn
  if ← acceptMark "?" then
    let outcome (plainArrow : Bool) : Reading Tree := do
      let found ← sub (.assignment false plainArrow)
      mark ":"
      pure found
    let yes ← either (outcome false) (outcome true)
    let no ← sub (.assignment noIn false)
    node .other start [test, yes, no]
  else pure test

def arrowHead (sub : Rules) (plainArrow : Bool) : Reading (List Tree) := do
  if (← atMark "(") || (← atMark "<") then
    let generic ← if ← atMark "<" then do
        check (← dialect).isTyped
        let found ← sub .typeParameters
        pure [found]
      else pure []
    let parameters ← sub .parameters
    let result ← if plainArrow then pure [] else resultType sub
    pure (generic ++ parameters :: result)
  else
    let only ← name .identifier
    pure [only]

def arrow (sub : Rules) (noIn plainArrow : Bool) : Reading Tree := do
  let start ← here
  let head ← either
    (do
      word "async"
      check !(← afterBreak)
      let head ← arrowHead sub plainArrow
      check !(← afterBreak)
      mark "=>"
      pure head)
    (do
      let head ← arrowHead sub plainArrow
      check !(← afterBreak)
      mark "=>"
      pure head)
  let body ← if ← atMark "\x7b" then sub .block else sub (.assignment noIn plainArrow)
  node .arrowFunction start (head ++ [body.inRole .body])

def yielded (sub : Rules) (noIn : Bool) : Reading Tree := do
  let start ← here
  word "yield"
  if ← acceptMark "*" then
    let inside ← sub (.assignment noIn false)
    node .other start [inside]
  else if (← startsOperand) && !(← afterBreak) then
    let inside ← sub (.assignment noIn false)
    node .other start [inside]
  else node .other start []

def updateMarks : List String :=
  ["+=", "-=", "*=", "/=", "%=", "**=", "<<=", ">>=", ">>>=", "&=", "|=", "^=", "&&=", "||=", "??="]

def patternAssignment (sub : Rules) (noIn : Bool) : Reading Tree := do
  let start ← here
  let target ← sub .target
  mark "="
  let value ← sub (.assignment noIn false)
  node .other start [target, value]

def atPattern : Reading Bool := do
  pure ((← atMark "\x7b") || (← atMark "["))

def assignmentRule (sub : Rules) (noIn plainArrow : Bool) : Reading Tree := do
  let start ← here
  if ← atWord "yield" then yielded sub noIn
  else if let some found ← attempt (arrow sub noIn plainArrow) then pure found
  else
    let opensPattern ← atPattern
    let plain : Reading Tree := do
      let left ← conditional sub noIn
      match (← token).lexeme with
      | .punctuator p =>
        if p == "=" then
          check !(opensPattern && (left.kind = .object || left.kind = .array))
          advance
          let value ← sub (.assignment noIn plainArrow)
          node .other start [left, value]
        else if updateMarks.contains p then
          advance
          let value ← sub (.assignment noIn plainArrow)
          node .other start [left, value]
        else pure left
      | _ => pure left
    if opensPattern then either plain (patternAssignment sub noIn) else plain

def expressionRule (sub : Rules) (noIn : Bool) : Reading Tree := do
  let start ← here
  let first ← sub (.assignment noIn false)
  let rest ← many do
    if ← acceptMark "," then
      let next ← sub (.assignment noIn false)
      pure (some next)
    else pure none
  if rest.isEmpty then pure first else node .other start (first :: rest)

end EndpointAtlas.Grammar
