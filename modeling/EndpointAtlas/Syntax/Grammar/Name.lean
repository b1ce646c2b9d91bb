import EndpointAtlas.Syntax.Reading

set_option autoImplicit false

namespace EndpointAtlas.Grammar

open Reading

def chunk : Reading Token.ChunkEnd := do
  match Token.chunkLength false (← left) with
  | some (count, ending) => do
    skip count
    pure ending
  | none => fail

def template (hole : Reading Tree) : Reading Tree := do
  let start ← here
  mark "\x60"
  let first ← chunk
  let (_, holes) ← iterate (fun (ending, holes) => do
    if ending = Token.ChunkEnd.closed then pure none
    else
      let start ← here
      let inside ← hole
      mark "\x7d"
      let part ← node .other start [inside]
      let ending ← chunk
      pure (some (ending, part :: holes))) (first, ([] : List Tree))
  node .template start holes.reverse

def atPropertyName : Reading Bool := fun c =>
  match c.token.lexeme with
  | .word _ => some (true, c)
  | .string => some (true, c)
  | .number => some (true, c)
  | .privateName => some (true, c)
  | .punctuator p => some (p == "[", c)
  | _ => some (false, c)

def propertyName (sub : Rules) : Reading Tree := do
  let next ← token
  match next.lexeme with
  | .word _ => leaf .propertyName
  | .privateName => leaf .privateName
  | .string => leaf .string
  | .number => leaf .other
  | .punctuator "[" => do
    advance
    let inside ← sub (.assignment false false)
    mark "]"
    node .other next.start [inside]
  | _ => fail

def modifier (words : List String) : Reading Bool := do
  match (← token).lexeme with
  | .word w =>
    if words.contains w then
      let found ← attempt do
        advance
        check ((← atPropertyName) || (← atMark "*"))
      pure found.isSome
    else pure false
  | _ => pure false

def modifiers (words : List String) : Reading Unit := do
  let _ ← many do
    if ← modifier words then pure (some ()) else pure none

def decorators (sub : Rules) : Reading (List Tree) :=
  many do
    if ← atMark "@" then
      let found ← sub .decorator
      pure (some found)
    else pure none

end EndpointAtlas.Grammar
