import EndpointAtlas.Endpoint.Decorated
import EndpointAtlas.Route.Registrar

set_option autoImplicit false

namespace EndpointAtlas.Endpoint

def ofCall? (source : List Char) (filePath : String) (tree : Tree) : Option Endpoint := do
  let callee ← if tree.kind = .call then tree.child? .callee else none
  let property ← if callee.kind = .member then callee.child? .property else none
  let object ← callee.child? .object
  let method ← if property.kind = .propertyName ∨ property.kind = .identifier then
      Method.ofName? (property.textIn source) else none
  if Route.isRegistrar (object.textIn source) then
    let arguments := tree.child? .arguments
    some {
      method := method
      route := arguments.bind (Tree.firstLiteral? source)
      filePath := filePath
      lines := tree.lines source
      tier := .call
      handlerNames := (arguments.map fun found =>
        (found.children.filter (·.kind = .identifier)).map (·.text source)).getD [] }
  else none

def called (source : List Char) (filePath : String) (tree : Tree) : List Endpoint :=
  tree.nodes.filterMap (ofCall? source filePath)

end EndpointAtlas.Endpoint
