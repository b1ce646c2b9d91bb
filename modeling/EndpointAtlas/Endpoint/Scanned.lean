import EndpointAtlas.Endpoint.Basic
import EndpointAtlas.Route.Join
import EndpointAtlas.Route.Registrar
import EndpointAtlas.Text.Braces
import EndpointAtlas.Text.Lines
import EndpointAtlas.Text.Quoted

/-!
Endpoints seen in raw text, without a tree: calls of a registrar's method, and decorators in the
body of a class after a controller decorator.
-/

set_option autoImplicit false

namespace EndpointAtlas.Text

/-- A place where something was found: its offset in units, its length in characters, and what it
is. -/
structure Found (α : Type) where
  offset : Nat
  stop : Nat
  value : α
  deriving DecidableEq

/-- Every place where `here` finds something, one after the other without overlap. It is given the
character before the place; `skip` characters of what was found last are still to pass. -/
def findAll {α : Type} (here : Option Char → List Char → Option (α × Nat)) :
    Nat → Option Char → Nat → List Char → List (Found α)
  | _, _, _, [] => []
  | skip + 1, _, offset, c :: rest => findAll here skip (some c) (offset + width c) rest
  | 0, before, offset, c :: rest =>
    match here before (c :: rest) with
    | some (value, count) =>
      ⟨offset, offset + units ((c :: rest).take count), value⟩ ::
        findAll here (count - 1) (some c) (offset + width c) rest
    | none => findAll here 0 (some c) (offset + width c) rest

def startsWithAnyCase (word : List Char) (s : List Char) : Bool :=
  (s.take word.length).map smallAscii == word

def skipBlanks (s : List Char) : List Char := s.dropWhile isBlank

end EndpointAtlas.Text

namespace EndpointAtlas

/-- A call of a registrar's method in raw text; its route is missing where none is written out. -/
structure TextCall where
  object : String
  method : Method
  route : Option String
  deriving DecidableEq, Repr

namespace TextCall

def verbs : List (List Char × Method) :=
  [Method.get, .post, .put, .delete, .patch, .options, .head, .all].map fun m =>
    (m.text.toList.map Text.smallAscii, m)

def literal? (s : List Char) : Option (Char × List Char × List Char) :=
  match s with
  | quote :: rest =>
    if Text.isQuote quote then
      match rest.dropWhile (· ≠ quote) with
      | _ :: after => some (quote, rest.takeWhile (· ≠ quote), after)
      | [] => none
    else none
  | [] => none

/-- The call at the start of a text: a name, a dot, the name of a method, a parenthesis, and the
literal that follows it, if one does. -/
def here (before : Option Char) (s : List Char) :
    Option ((List Char × Method × Option String) × Nat) :=
  if before.any Text.isNameChar then none
  else if !s.head?.any Text.isNameStart then none
  else
    let name := s.takeWhile Text.isNameChar
    match Text.skipBlanks (s.dropWhile Text.isNameChar) with
    | '.' :: afterDot =>
      let atVerb := Text.skipBlanks afterDot
      match verbs.find? fun verb => Text.startsWithAnyCase verb.1 atVerb with
      | some (word, method) =>
        match Text.skipBlanks (atVerb.drop word.length) with
        | '(' :: inside =>
          let inside := Text.skipBlanks inside
          match literal? inside with
          | some (quote, body, after) =>
            let route := if quote = '\x60' ∧ Text.interpolates body then none
              else some (String.ofList body)
            some ((name, method, route), s.length - after.length)
          | none => some ((name, method, none), s.length - inside.length)
        | _ => none
      | none => none
    | _ => none

def all (source : List Char) : List (Text.Found TextCall) :=
  (Text.findAll here 0 none 0 source).filterMap fun found =>
    let (name, method, route) := found.value
    if Route.isRegistrar name then
      some ⟨found.offset, found.stop, ⟨String.ofList name, method, route⟩⟩
    else none

end TextCall

namespace TextController

/-- What stands in parentheses: a literal alone, or all up to the next closing parenthesis; and what
follows the closing one. -/
def argument? (s : List Char) : Option (List Char × List Char) :=
  match Text.skipBlanks s with
  | '(' :: inside =>
    let body := Text.skipBlanks inside
    let alone := match TextCall.literal? body with
      | some (quote, text, after) =>
        match Text.skipBlanks after with
        | ')' :: rest => some (quote :: text ++ [quote], rest)
        | _ => none
      | none => none
    match alone with
    | some found => some found
    | none =>
      match body.dropWhile (· ≠ ')') with
      | _ :: rest => some (body.takeWhile (· ≠ ')'), rest)
      | [] => none
  | _ => none

def path (argument : List Char) : String :=
  let text := Text.unquote argument
  if text.isEmpty then "/" else String.ofList text

def controller? (_before : Option Char) (s : List Char) : Option (String × Nat) :=
  if "@Controller".toList.isPrefixOf s then
    (argument? (s.drop 11)).map fun (argument, rest) => (path argument, s.length - rest.length)
  else none

def verb? (_before : Option Char) (s : List Char) : Option ((Method × String) × Nat) :=
  match s with
  | '@' :: rest =>
    match TextCall.verbs.find? fun verb => Text.startsWithAnyCase verb.1 rest with
    | some (word, method) =>
      (argument? (rest.drop word.length)).map fun (argument, after) =>
        ((method, path argument), s.length - after.length)
    | none => none
  | _ => none

/-- Does the head of a class start here: the word, a blank and a name? -/
def classHere (s : List Char) : Bool :=
  "class".toList.isPrefixOf s && (s.drop 5).head?.any Text.isBlank &&
    (Text.skipBlanks (s.drop 5)).head?.any Text.isNameStart

def nextClass : List Char → List Char
  | [] => []
  | c :: rest => if classHere (c :: rest) then c :: rest else nextClass rest

/-- The body of the next class from its brace up to but without the matching one, with the offset of
the first. -/
def body? (source : List Char) (offset : Nat) : Option (Nat × List Char) :=
  let head := nextClass (Text.dropUnits offset source)
  let opened := head.dropWhile (· ≠ '{')
  if opened.isEmpty then none
  else
    let start := Text.units source - Text.units opened
    (Text.matchingBrace? source start).map fun stop => (start, Text.slice source start stop)

def endpoints (source : List Char) (filePath : String) : List Endpoint :=
  (Text.findAll controller? 0 none 0 source).flatMap fun controller =>
    match body? source controller.stop with
    | some (start, body) =>
      (Text.findAll verb? 0 none 0 body).map fun verb =>
        let line : Int := Text.lineAt source start + Text.lineAt body verb.offset - 1
        { method := verb.value.1
          route := some (Route.join (some controller.value) (some verb.value.2))
          filePath := filePath
          lines := ⟨line, line⟩
          tier := .text
          handlerNames := [] }
    | none => []

end TextController

namespace Endpoint

def calledInText (source : List Char) (filePath : String) : List Endpoint :=
  (TextCall.all source).map fun call =>
    { method := call.value.method
      route := call.value.route
      filePath := filePath
      lines := ⟨Text.lineAt source call.offset, Text.lineAt source call.stop⟩
      tier := .text
      handlerNames := [] }

/-- Endpoints seen in raw text: calls where the file could not be read whole, and controllers in
typed dialects where the tree shows none. -/
def scanned (source : List Char) (filePath : String) (dialect : Dialect)
    (failed controllersInTree : Bool) : Option (List Endpoint) :=
  let byController := dialect.isTyped && !controllersInTree
  if !failed && !byController then none
  else some ((if failed then calledInText source filePath else [])
    ++ (if byController then TextController.endpoints source filePath else []))

def decoratorWords : List String :=
  ["route", "get", "post", "put", "delete", "patch", "options", "head", "all", "api", "endpoint",
    "router", "controller", "module", "middleware", "rest"]

def hasDecoratorWord : List Char → Bool
  | [] => false
  | c :: rest =>
    (c == '@' &&
      decoratorWords.contains
        (String.ofList (((Text.skipBlanks rest).takeWhile Text.isWordChar).map Text.smallAscii)))
      || hasDecoratorWord rest

def isCandidate (source : List Char) : Bool :=
  !(TextCall.all source).isEmpty || hasDecoratorWord source

end Endpoint

end EndpointAtlas
