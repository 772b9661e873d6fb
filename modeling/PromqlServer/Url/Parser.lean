import PromqlServer.Url.Domain
import PromqlServer.Url.Path

/-!
Reading absolute URLs. Controls and spaces around the text and tabs and line ends inside it do not
count.
-/

namespace PromqlServer.Url

def isTabOrNewline (c : Char) : Bool := c = '\t' || c = '\n' || c = '\r'

/-- The text without the characters that do not count. -/
def relevant (cs : List Char) : List Char :=
  let outer (c : Char) : Bool := c.toNat ≤ 0x20
  (((cs.dropWhile outer).reverse.dropWhile outer).reverse).filter fun c => !isTabOrNewline c

/-- The scheme in lower case, and the rest after its colon. -/
def readScheme (cs : List Char) : Option (String × List Char) :=
  let name := cs.takeWhile fun c => c.isAlphanum || c = '+' || c = '-' || c = '.'
  match cs.head?, cs.drop name.length with
  | some first, ':' :: rest =>
    if first.isAlpha then some (String.ofList (name.map Char.toLower), rest) else none
  | _, _ => none

/-- What ends an authority. -/
def endsAuthority (kind : Kind) (c : Char) : Bool :=
  c = '?' || c = '#' || isSlash kind c

/-- User name and password, both encoded, and the rest after the last at sign. -/
def readCredentials (kind : Kind) (cs : List Char) :
    Except ParseError (String × Option String × List Char) :=
  let authority := cs.takeWhile fun c => !endsAuthority kind c
  if !authority.contains '@' then .ok ("", none, cs)
  else
    let info := (authority.reverse.dropWhile (· ≠ '@')).reverse.dropLast
    let rest := cs.drop (info.length + 1)
    if info.isEmpty then
      match rest with
      | c :: _ => if endsAuthority kind c then .error .emptyHost else .ok ("", none, rest)
      | [] => .ok ("", none, rest)
    else
      let user := info.takeWhile (· ≠ ':')
      let password := match info.drop user.length with
        | _ :: c :: cs => some (String.ofList (encode userinfoSet (c :: cs)))
        | _ => none
      .ok (String.ofList (encode userinfoSet user), password, rest)

/-- The host part of a text and the rest; a colon counts as host only inside brackets. -/
def splitHost (kind : Kind) : Bool → List Char → List Char × List Char
  | _, [] => ([], [])
  | inside, c :: cs =>
    if (c = ':' && !inside) || endsAuthority kind c then ([], c :: cs)
    else
      let inside := if c = '[' then true else if c = ']' then false else inside
      let (host, rest) := splitHost kind inside cs
      (c :: host, rest)

def readBracketed (cs : List Char) : Except ParseError String :=
  match cs.getLast?, readIpv6 (cs.drop 1).dropLast with
  | some ']', some groups => .ok ("[" ++ writeIpv6 groups ++ "]")
  | _, _ => .error .invalidIpv6

/-- The host of a special URL: an address, or a domain in ASCII. -/
def readHost (cs : List Char) : Except ParseError String :=
  if cs.head? = some '[' then readBracketed cs
  else
    match (decode? cs).bind Domain.toAscii with
    | none => .error .invalidDomain
    | some [] => .error .emptyHost
    | some name =>
      if endsInNumber name then
        match readIpv4 name with
        | some n => .ok (writeIpv4 n)
        | none => .error .invalidIpv4
      else .ok (String.ofList name)

def isForbiddenHostChar (c : Char) : Bool :=
  ['\x00', '\t', '\n', '\r', ' ', '#', '/', ':', '<', '>', '?', '@', '[', '\\', ']', '^', '|'].contains c

/-- The host of a URL that is not special, which is only encoded. -/
def readOpaqueHost (cs : List Char) : Except ParseError String :=
  if cs.head? = some '[' then readBracketed cs
  else if cs.any isForbiddenHostChar then .error .invalidHostCharacter
  else .ok (String.ofList (encode controlSet cs))

/-- A port number, which only the end of the authority may follow. -/
def readPort (scheme : String) (cs : List Char) : Except ParseError (Option Nat × List Char) :=
  let digits := cs.takeWhile Char.isDigit
  let rest := cs.drop digits.length
  let ok := match rest with
    | [] => true
    | c :: _ => c = '/' || c = '\\' || c = '?' || c = '#'
  match readRadix 10 digits with
  | some n =>
    if n > 65535 || !ok then .error .invalidPort
    else if digits.isEmpty || defaultPort scheme = some n then .ok (none, rest)
    else .ok (some n, rest)
  | none => .error .invalidPort

def readAuthority (scheme : String) (kind : Kind) (cs : List Char) :
    Except ParseError (Authority × List Char) := do
  let (username, password, cs) ← readCredentials kind cs
  let (text, rest) := splitHost kind false cs
  let host ←
    if kind.isSpecial then if text.isEmpty then .error .emptyHost else readHost text
    else readOpaqueHost text
  let (port, rest) ← match rest with
    | ':' :: rest => if host.isEmpty then .error .emptyHost else readPort scheme rest
    | rest => pure (none, rest)
  if host.isEmpty && (!username.isEmpty || password.isSome) then .error .emptyHost
  else return ({ username, password, host, port }, rest)

/-- Query and fragment after a path. -/
def readQueryAndFragment (kind : Kind) (cs : List Char) : Option String × Option String :=
  let fragment (cs : List Char) : Option String := match cs with
    | '#' :: cs => some (String.ofList (encode fragmentSet cs))
    | _ => none
  match cs with
  | '?' :: cs =>
    let query := cs.takeWhile (· ≠ '#')
    let set := if kind.isSpecial then specialQuerySet else querySet
    (some (String.ofList (encode set query)), fragment (cs.drop query.length))
  | cs => (none, fragment cs)

def endsPath (c : Char) : Bool := c = '?' || c = '#'

/-- The rest of a URL whose authority is read. -/
def finish (scheme : String) (authority : Option Authority) (cs : List Char) : Url :=
  let kind := Kind.ofScheme scheme
  let (path, rest) := readPathStart kind endsPath cs
  let (query, fragment) := readQueryAndFragment kind rest
  { scheme, authority, path, query, fragment }

/-- Whether a file path starts with a drive letter. -/
def hasDriveLetter : List Char → Bool
  | '/' :: c :: ':' :: rest => c.isAlpha && (rest.isEmpty || rest.head? = some '/')
  | _ => false

/-- A file URL: its host is dropped if it is the local one, or if the path has a drive letter. -/
def readFile (cs : List Char) : Except ParseError Url :=
  let slash (c : Char) : Bool := c = '/' || c = '\\'
  match cs with
  | a :: b :: rest =>
    if slash a && slash b then
      let text := rest.takeWhile fun c => !endsAuthority .file c
      if isDriveLetter text then .ok (finish "file" (some { host := "" }) rest)
      else do
        let host ← if text.isEmpty then pure "" else readHost text
        let url := finish "file" none (rest.drop text.length)
        let host := if host = "localhost" || hasDriveLetter url.path then "" else host
        return { url with authority := some { host } }
    else .ok (finish "file" (some { host := "" }) cs)
  | cs => .ok (finish "file" (some { host := "" }) cs)

/-- A URL of another scheme without an authority. -/
def readBare (scheme : String) (cs : List Char) : Url :=
  match cs with
  | '/' :: _ => finish scheme none cs
  | cs =>
    let path := cs.takeWhile fun c => !endsPath c
    let (query, fragment) := readQueryAndFragment .other (cs.drop path.length)
    { scheme, authority := none, path := encode controlSet path, rigid := true, query, fragment }

/-- The URL that a text stands for without a base. -/
def parse (text : String) : Except ParseError Url := do
  match readScheme (relevant text.toList) with
  | none => .error .relativeWithoutBase
  | some (scheme, cs) =>
    match Kind.ofScheme scheme with
    | .file => readFile cs
    | .special =>
      let cs := cs.dropWhile (isSlash .special)
      let (authority, rest) ← readAuthority scheme .special cs
      return finish scheme (some authority) rest
    | .other =>
      match cs with
      | '/' :: '/' :: cs =>
        let (authority, rest) ← readAuthority scheme .other cs
        return finish scheme (some authority) rest
      | cs => return readBare scheme cs

end PromqlServer.Url
