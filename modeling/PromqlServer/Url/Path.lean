import PromqlServer.Url.Basic
import PromqlServer.Url.Percent

/-!
Paths with segments: dot segments are resolved while the path is read, and a drive letter of a file
path is never removed.
-/

namespace PromqlServer.Url

def isSlash (kind : Kind) (c : Char) : Bool := c = '/' || (kind.isSpecial && c = '\\')

/-- Ways to write a dot in a dot segment. -/
def dotForms : List (List Char) := [['.'], ['%', '2', 'e'], ['%', '2', 'E']]

def isSingleDot (segment : List Char) : Bool := dotForms.contains segment

def isDoubleDot (segment : List Char) : Bool :=
  dotForms.any fun a => dotForms.any fun b => segment = a ++ b

def isDriveLetter : List Char → Bool
  | [c, d] => c.isAlpha && (d = ':' || d = '|')
  | _ => false

/-- A path, which ends in a slash, without its last segment. The root stays, and so does a drive
letter. -/
def dropSegment (path : List Char) : List Char :=
  match path.reverse with
  | '/' :: rest =>
    let segment := (rest.takeWhile (· ≠ '/')).reverse
    let parent := (rest.dropWhile (· ≠ '/')).reverse
    if parent.isEmpty || isDriveLetter segment then path else parent
  | _ => path

/-- The path after one more segment; `slash` says whether a slash ends the segment. `path` ends in a
slash, or is empty where the first segment is the empty one before the first slash. -/
def addSegment (kind : Kind) (path segment : List Char) (slash : Bool) : List Char :=
  if isDoubleDot segment then dropSegment path
  else if isSingleDot segment then if path.getLast? = some '/' then path else path ++ ['/']
  else
    let drive := kind = .file && path = ['/'] && isDriveLetter segment
    let segment := if drive then segment.take 1 ++ [':'] else segment
    path ++ segment ++ (if slash then ['/'] else [])

/-- Reads a path from its segments on. `stops` are the characters that end it. The rest comes with
the result. -/
def readPath (kind : Kind) (stops : Char → Bool) :
    List Char → List Char → List Char → List Char × List Char
  | path, segment, [] => (addSegment kind path segment.reverse false, [])
  | path, segment, c :: cs =>
    if isSlash kind c then readPath kind stops (addSegment kind path segment.reverse true) [] cs
    else if stops c then (addSegment kind path segment.reverse false, c :: cs)
    else readPath kind stops path ((encodeChar pathSet c).reverse ++ segment) cs

/-- A file path has one slash at its start. -/
def settle (kind : Kind) (path : List Char) : List Char :=
  if kind = .file then '/' :: path.dropWhile (· = '/') else path

/-- Reads the path of a URL that has an authority, or is special. -/
def readPathStart (kind : Kind) (stops : Char → Bool) (cs : List Char) : List Char × List Char :=
  match cs with
  | [] => if kind.isSpecial then (['/'], []) else ([], [])
  | c :: rest =>
    if isSlash kind c then
      let (path, rest) := readPath kind stops ['/'] [] rest
      (settle kind path, rest)
    else if !kind.isSpecial && (c = '?' || c = '#') then ([], cs)
    else
      let (path, rest) := readPath kind stops ['/'] [] cs
      (settle kind path, rest)

end PromqlServer.Url
