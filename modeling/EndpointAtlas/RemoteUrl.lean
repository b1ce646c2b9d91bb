import EndpointAtlas.Text.Blank

set_option autoImplicit false

namespace EndpointAtlas.RemoteUrl

def isUserChar (c : Char) : Bool := Text.isWordChar c || c == '.' || c == '-'

def isLineEnd (c : Char) : Bool :=
  c == '\n' || c == '\r' || c.toNat == 0x2028 || c.toNat == 0x2029

def hostAndPath? (remote : List Char) : Option (List Char × List Char) :=
  match remote.dropWhile isUserChar with
  | '@' :: rest =>
    let host := rest.takeWhile (· ≠ ':')
    match rest.dropWhile (· ≠ ':') with
    | ':' :: path =>
      if (remote.takeWhile isUserChar).isEmpty ∨ host.isEmpty ∨ path.isEmpty ∨
        path.any isLineEnd then
        none
      else some (host, path)
    | _ => none
  | _ => none

def withoutUser (address : List Char) : List Char :=
  let inUser (c : Char) : Bool := c ≠ '@' && c ≠ '/'
  match address.dropWhile inUser with
  | '@' :: rest => if (address.takeWhile inUser).isEmpty then address else rest
  | _ => address

def withoutEnding (address : List Char) : List Char :=
  if ".git".toList.isSuffixOf address then address.take (address.length - 4) else address

/-- The address of a remote in the form for a browser. -/
def browsable (remote : List Char) : List Char :=
  let url := Text.trim remote
  let web := "https://".toList
  let ssh := "ssh://".toList
  match hostAndPath? url with
  | some (host, path) => withoutEnding (web ++ host ++ '/' :: path)
  | none =>
    if ssh.isPrefixOf url then withoutEnding (web ++ withoutUser (url.drop ssh.length))
    else withoutEnding url

end EndpointAtlas.RemoteUrl
