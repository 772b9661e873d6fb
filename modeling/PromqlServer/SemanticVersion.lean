/-!
Semantic versions: three numbers of at most 64 bits, an optional pre-release and optional build
metadata. `parse` reads the whole text or says what is wrong at the first place where it fails.
-/

namespace PromqlServer

structure SemanticVersion where
  major : Nat
  minor : Nat
  patch : Nat
  preRelease : String := ""
  build : String := ""
  deriving DecidableEq, Repr

namespace SemanticVersion

/-- The part of a version that a fault is found in. -/
inductive Part where
  | major
  | minor
  | patch
  | preRelease
  | build
  deriving DecidableEq, Repr

def Part.name : Part → String
  | .major => "major version number"
  | .minor => "minor version number"
  | .patch => "patch version number"
  | .preRelease => "pre-release identifier"
  | .build => "build metadata"

inductive ParseError where
  | empty
  | unexpectedEnd (part : Part)
  | unexpectedChar (part : Part) (c : Char)
  | unexpectedAfter (part : Part) (c : Char)
  | leadingZero (part : Part)
  | overflow (part : Part)
  | emptySegment (part : Part)
  deriving DecidableEq, Repr

def hexDigits (n : Nat) : String := String.ofList (Nat.toDigits 16 n)

/-- Characters that are written by their number: controls, separators and other blanks except the
space, and characters that have no shape of their own. -/
def isInvisible (c : Char) : Bool :=
  let n := c.toNat
  n < 0x20 || (0x7F ≤ n && n ≤ 0xA0) || n = 0xAD || n = 0x1680 || n = 0x180E ||
    (0x2000 ≤ n && n ≤ 0x200F) || (0x2028 ≤ n && n ≤ 0x202F) || (0x205F ≤ n && n ≤ 0x206F) ||
    n = 0x3000 || n = 0xFEFF || (0x0300 ≤ n && n ≤ 0x036F) || (0xE000 ≤ n && n ≤ 0xF8FF) ||
    (0xFFF0 ≤ n && n ≤ 0xFFFB) || 0xE0000 ≤ n

/-- A character between single quotes, escaped where it would not be seen as itself. -/
def quoteChar (c : Char) : String :=
  let n := c.toNat
  let body :=
    if n = 0 then "\\0"
    else if n = 9 then "\\t"
    else if n = 10 then "\\n"
    else if n = 13 then "\\r"
    else if n = 0x27 then "\\'"
    else if n = 0x5C then "\\\\"
    else if isInvisible c then "\\u\x7b" ++ hexDigits n ++ "\x7d"
    else c.toString
  "'" ++ body ++ "'"

def ParseError.message : ParseError → String
  | .empty => "empty string, expected a semver version"
  | .unexpectedEnd p => "unexpected end of input while parsing " ++ p.name
  | .unexpectedChar p c => "unexpected character " ++ quoteChar c ++ " while parsing " ++ p.name
  | .unexpectedAfter p c => "unexpected character " ++ quoteChar c ++ " after " ++ p.name
  | .leadingZero p => "invalid leading zero in " ++ p.name
  | .overflow p => "value of " ++ p.name ++ " exceeds u64::MAX"
  | .emptySegment p => "empty identifier segment in " ++ p.name

def maxNumber : Nat := 0xFFFFFFFFFFFFFFFF

/-- The value of a number that goes on after `value`, whose last digit is already read. -/
def readDigits (part : Part) (value : Nat) (any : Bool) :
    List Char → Except ParseError (Nat × List Char)
  | c :: cs =>
    if c.isDigit then
      if any && value = 0 then .error (.leadingZero part)
      else
        let next := 10 * value + (c.toNat - 48)
        if next ≤ maxNumber then readDigits part next true cs else .error (.overflow part)
    else if any then .ok (value, c :: cs)
    else .error (.unexpectedChar part c)
  | [] => if any then .ok (value, []) else .error (.unexpectedEnd part)

def readNumber (part : Part) (cs : List Char) : Except ParseError (Nat × List Char) :=
  readDigits part 0 false cs

/-- The rest after the dot that divides `part` from the next number. -/
def readDot (part : Part) : List Char → Except ParseError (List Char)
  | '.' :: cs => .ok cs
  | c :: _ => .error (.unexpectedAfter part c)
  | [] => .error (.unexpectedEnd part)

def isIdentifierChar (c : Char) : Bool := c.isAlphanum || c = '-'

/-- A segment of a pre-release or of build metadata. A pre-release has no number with a leading
zero. -/
def checkSegment (part : Part) (segment : List Char) : Except ParseError Unit :=
  if part = .preRelease && segment.length > 1 && segment.head? = some '0' &&
      segment.all Char.isDigit then .error (.leadingZero part)
  else .ok ()

/-- Segments divided by dots, as far as they go; `acc` is what stands before, the latest first. No
character at all is no segment, which only a caller can judge. -/
def readSegments (part : Part) : Nat → List Char → List Char →
    Except ParseError (List Char × List Char)
  | 0, acc, cs => .ok (acc.reverse, cs)
  | fuel + 1, acc, cs =>
    let segment := cs.takeWhile isIdentifierChar
    let rest := cs.dropWhile isIdentifierChar
    if segment.isEmpty then
      if acc.isEmpty && rest.head? ≠ some '.' then .ok ([], rest)
      else .error (.emptySegment part)
    else do
      checkSegment part segment
      match rest with
      | '.' :: rest => readSegments part fuel ('.' :: (segment.reverse ++ acc)) rest
      | rest => return ((segment.reverse ++ acc).reverse, rest)

def readIdentifier (part : Part) (cs : List Char) : Except ParseError (String × List Char) := do
  let (text, rest) ← readSegments part (cs.length + 1) [] cs
  if text.isEmpty then .error (.emptySegment part) else return (String.ofList text, rest)

/-- Build metadata and the end of the text; `last` is the part that stands before. -/
def readEnd (v : SemanticVersion) (last : Part) : List Char → Except ParseError SemanticVersion
  | [] => .ok v
  | '+' :: cs => do
    let (build, rest) ← readIdentifier .build cs
    match rest with
    | [] => return { v with build }
    | c :: _ => .error (.unexpectedAfter .build c)
  | c :: _ => .error (.unexpectedAfter last c)

def parse (text : String) : Except ParseError SemanticVersion := do
  let cs := text.toList
  if cs.isEmpty then .error .empty
  else
    let (major, cs) ← readNumber .major cs
    let cs ← readDot .major cs
    let (minor, cs) ← readNumber .minor cs
    let cs ← readDot .minor cs
    let (patch, cs) ← readNumber .patch cs
    let v : SemanticVersion := { major, minor, patch }
    match cs with
    | '-' :: cs =>
      let (preRelease, rest) ← readIdentifier .preRelease cs
      readEnd { v with preRelease } .preRelease rest
    | cs => readEnd v .patch cs

def toString (v : SemanticVersion) : String :=
  s!"{v.major}.{v.minor}.{v.patch}" ++ (if v.preRelease.isEmpty then "" else "-" ++ v.preRelease)
    ++ (if v.build.isEmpty then "" else "+" ++ v.build)

/-- The three numbers compared from the left; pre-release and build metadata do not count. -/
def atLeast (v least : SemanticVersion) : Bool :=
  least.major < v.major ||
    (least.major = v.major &&
      (least.minor < v.minor || (least.minor = v.minor && least.patch ≤ v.patch)))

end SemanticVersion

end PromqlServer
