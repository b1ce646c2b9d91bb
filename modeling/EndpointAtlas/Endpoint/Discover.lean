import EndpointAtlas.Endpoint.Detect
import EndpointAtlas.Files.Tree
import EndpointAtlas.Route.Template

set_option autoImplicit false

namespace EndpointAtlas.Endpoint

def sourceOf (tree : FileTree) (path : String) : Option String :=
  match tree.read path with
  | .ok content => some content.asText
  | .error _ => none

def candidates (tree : FileTree) (paths : List String) : List String :=
  paths.filter fun path => (sourceOf tree path).any fun source => isCandidate source.toList

def inFile (tree : FileTree) (path : String) : List Endpoint :=
  match sourceOf tree path with
  | some source => detect path source
  | none => []

def normalized (e : Endpoint) : Endpoint := { e with route := e.route.map Route.normalize }

def discover (tree : FileTree) (paths : List String) : List Endpoint :=
  (candidates tree paths).flatMap fun path => (inFile tree path).map normalized

end EndpointAtlas.Endpoint
