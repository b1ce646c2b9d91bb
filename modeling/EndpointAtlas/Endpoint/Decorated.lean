import EndpointAtlas.Endpoint.Basic
import EndpointAtlas.Inventory.Findings
import EndpointAtlas.Route.Join

set_option autoImplicit false

namespace EndpointAtlas

namespace Tree

/-- The children of a node, each with the siblings before it, nearest first. -/
def withEarlier (earlier : List Tree) : List Tree → List (Tree × List Tree)
  | [] => []
  | first :: rest => (first, earlier) :: withEarlier (first :: earlier) rest

def isDecorator (tree : Tree) : Bool := tree.kind = .decorator

/-- The decorators of a class or member: those directly before it, its own, and those of an export
around it. -/
def decoratorsOf (tree : Tree) (parent : Option Tree) (earlier : List Tree) : List Tree :=
  let exported := match parent with
    | some around =>
      if around.kind = .exportStatement then around.children.filter isDecorator else []
    | none => []
  (earlier.takeWhile isDecorator).reverse ++ tree.children.filter isDecorator ++ exported

/-- The text of the first literal among arguments; none if there is none, or if it interpolates. -/
def firstLiteral? (source : List Char) (arguments : Tree) : Option String :=
  match arguments.children.find? fun a => a.kind = .string ∨ a.kind = .template with
  | some found =>
    if found.kind = .string then some (found.literal source)
    else (Text.templateText? (found.textIn source)).map String.ofList
  | none => none

def decoration? (source : List Char) (decorator : Tree) : Option (List Char × Option String) :=
  match decorator.children.head? with
  | some expression =>
    if expression.kind = .identifier ∨ expression.kind = .propertyName then
      some (expression.textIn source, none)
    else if expression.kind = .call then
      (expression.child? .callee).map fun callee =>
        (callee.textIn source, (expression.child? .arguments).bind (firstLiteral? source))
    else none
  | none => none

end Tree

/-- A class under a controller decorator, with the path that its routes lie under. -/
structure Controller where
  tree : Tree
  base : String

namespace Controller

def baseOf? (source : List Char) (decorators : List Tree) : Option String :=
  decorators.findSome? fun decorator =>
    match decorator.decoration? source with
    | some (name, argument) =>
      if Text.lower name = "controller".toList then
        some (if argument.getD "" = "" then "/" else argument.getD "/")
      else none
    | none => none

def all (source : List Char) (tree : Tree) : List Controller :=
  tree.visits.filterMap fun visit =>
    if visit.tree.isClass then
      (baseOf? source (visit.tree.decoratorsOf visit.parent visit.earlier)).map (⟨visit.tree, ·⟩)
    else none

def verb? (source : List Char) (decorators : List Tree) : Option (Method × String) :=
  decorators.findSome? fun decorator =>
    match decorator.decoration? source with
    | some (name, argument) => (Method.ofName? name).map fun method => (method, argument.getD "/")
    | none => none

def endpoint? (source : List Char) (filePath base : String) (member : Tree)
    (decorators : List Tree) : Option Endpoint :=
  (verb? source decorators).map fun (method, path) =>
    { method := method
      route := some (Route.join (some base) (some path))
      filePath := filePath
      lines := ⟨((decorators.map fun d => (d.firstLine source : Int)).foldl min
        (member.firstLine source : Int)), member.lastLine source⟩
      tier := .decorator
      handlerNames := [] }

def endpoints (source : List Char) (filePath : String) (controller : Controller) : List Endpoint :=
  match controller.tree.child? .body with
  | some body =>
    (Tree.withEarlier [] body.children).filterMap fun (member, earlier) =>
      if member.kind = .method ∨ member.kind = .field then
        endpoint? source filePath controller.base member (member.decoratorsOf (some body) earlier)
      else none
  | none => []

end Controller

namespace Endpoint

def decorated (source : List Char) (filePath : String) (dialect : Dialect) (tree : Tree) :
    Option (List Endpoint) :=
  if dialect.isTyped then
    some ((Controller.all source tree).flatMap (·.endpoints source filePath))
  else none

end Endpoint

end EndpointAtlas
