import EndpointAtlas.Endpoint.Called
import EndpointAtlas.Endpoint.CatchBinding
import EndpointAtlas.Endpoint.Scanned
import EndpointAtlas.Syntax.Parse

/-!
Detection of endpoints in a source text, tier by tier. A tier adds only endpoints whose key no
earlier one has.
-/

set_option autoImplicit false

namespace EndpointAtlas

/-- A source text with the tree that detection looks at and the text that this tree was read from. A
text that reads with errors, and without them once its `catch` clauses have parameters, is taken in
that form. -/
structure Detection where
  filePath : String
  source : List Char
  dialect : Dialect
  treeSource : List Char
  tree : Tree
  failed : Bool

namespace Detection

def reading (read : Dialect → List Char → Tree) (filePath : String) (source : List Char) :
    Detection :=
  let dialect := Dialect.ofPath filePath
  let tree := read dialect source
  let asIs : Detection := ⟨filePath, source, dialect, source, tree, tree.hasErrors⟩
  if tree.hasErrors ∧ 0 < CatchBinding.count source then
    let bound := CatchBinding.bind source
    let again := read dialect bound
    if again.hasErrors then asIs else ⟨filePath, source, dialect, bound, again, false⟩
  else asIs

def ofSource (filePath : String) (source : List Char) : Detection := reading parse filePath source

def controllers (d : Detection) : List Controller := Controller.all d.treeSource d.tree

def decorated (d : Detection) : Option (List Endpoint) :=
  Endpoint.decorated d.treeSource d.filePath d.dialect d.tree

def called (d : Detection) : List Endpoint := Endpoint.called d.treeSource d.filePath d.tree

def scanned (d : Detection) : Option (List Endpoint) :=
  Endpoint.scanned d.source d.filePath d.dialect d.failed (!d.controllers.isEmpty)

/-- What the tiers give, one after the other. -/
def found (d : Detection) : List Endpoint := d.decorated.getD [] ++ d.called ++ d.scanned.getD []

end Detection

namespace Endpoint

/-- Endpoints of which none has the key of an earlier one or one in `seen`. -/
def distinctFrom (seen : List String) : List Endpoint → List Endpoint
  | [] => []
  | e :: rest =>
    if seen.contains e.key then distinctFrom seen rest
    else e :: distinctFrom (e.key :: seen) rest

def detect (filePath source : String) : List Endpoint :=
  distinctFrom [] (Detection.ofSource filePath source.toList).found

end Endpoint

end EndpointAtlas
