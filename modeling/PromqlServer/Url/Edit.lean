import PromqlServer.Url.Parser

/-!
URLs made from other URLs: with another path, without a query, with parameters, without
credentials.
-/

namespace PromqlServer.Url

def cannotBeBase (u : Url) : Bool := u.rigid

/-- The URL with another path. Question marks and number signs belong to the path. -/
def withPath (u : Url) (path : String) : Url :=
  let cs := path.toList.filter fun c => !isTabOrNewline c
  if u.rigid then
    let path := match cs with
      | '/' :: cs => ['%', '2', 'F'] ++ encode controlSet cs
      | cs => encode controlSet cs
    { u with path }
  else { u with path := (readPathStart u.kind (fun _ => false) cs).1 }

def withoutQuery (u : Url) : Url := { u with query := none }

/-- Parameters as a query. -/
def formQuery (pairs : List (String × String)) : String :=
  "&".intercalate (pairs.map fun (name, value) =>
    String.ofList (encodeForm name.toList) ++ "=" ++ String.ofList (encodeForm value.toList))

/-- The URL with parameters after those that it has. -/
def withParameters (u : Url) (pairs : List (String × String)) : Url :=
  if pairs.isEmpty then u
  else match u.query with
    | some q => { u with query := some (if q.isEmpty then formQuery pairs else q ++ "&" ++ formQuery pairs) }
    | none => { u with query := some (formQuery pairs) }

/-- User name and password, decoded; none if there are none, or if the user name is not UTF-8. -/
def credentials (u : Url) : Option (String × Option String) := do
  let a ← u.authority
  let username ← decode? a.username.toList
  let password := (a.password.bind fun p => decode? p.toList).map String.ofList
  if username.isEmpty && password.isNone then none else some (String.ofList username, password)

/-- The URL without user name and password. -/
def withoutCredentials (u : Url) : Url :=
  { u with authority := u.authority.map fun a => { a with username := "", password := none } }

end PromqlServer.Url
