import EndpointAtlas.Text.LetterCase

set_option autoImplicit false

namespace EndpointAtlas

/-- The methods that a registration can name; `all` stands for every method. -/
inductive Method where
  | get | post | put | delete | patch | options | head | all
  deriving DecidableEq, Repr, Inhabited

namespace Method

def every : List Method := [get, post, put, delete, patch, options, head, all]

def text : Method → String
  | get => "GET"
  | post => "POST"
  | put => "PUT"
  | delete => "DELETE"
  | patch => "PATCH"
  | options => "OPTIONS"
  | head => "HEAD"
  | all => "ALL"

theorem text_injective (m n : Method) (h : m.text = n.text) : m = n := by
  cases m <;> cases n <;> simp_all [text]

def ofName? (name : List Char) : Option Method :=
  let capitals := String.ofList (Text.upper (Text.trim name))
  every.find? fun m => m.text = capitals

def operationKey : Method → String
  | get => "get"
  | post => "post"
  | put => "put"
  | delete => "delete"
  | patch => "patch"
  | options => "options"
  | head => "head"
  | all => "get"

end Method

end EndpointAtlas
