import PromqlServer.Json.Basic

/-!
Reading JSON text. Each reader takes a text and gives what it read with the rest of the text, or
nothing if the text does not have the form.
-/

namespace PromqlServer.Json

def isBlank (c : Char) : Bool := c = ' ' || c = '\t' || c = '\n' || c = '\r'

def skipBlanks (cs : List Char) : List Char := cs.dropWhile isBlank

/-- The rest after `word`. -/
def expect (word : List Char) (cs : List Char) : Option (List Char) :=
  if word.isPrefixOf cs then some (cs.drop word.length) else none

def digitsValue (cs : List Char) : Nat :=
  cs.foldl (fun n c => 10 * n + (c.toNat - 48)) 0

/-- At least one digit. -/
def readDigits (cs : List Char) : Option (List Char × List Char) :=
  match cs.takeWhile Char.isDigit with
  | [] => none
  | ds => some (ds, cs.dropWhile Char.isDigit)

/-- Digits that do not start with a zero, or a zero alone. -/
def readWhole : List Char → Option (List Char × List Char)
  | '0' :: c :: cs => if c.isDigit then none else some (['0'], c :: cs)
  | cs => readDigits cs

def readFraction : List Char → Option (List Char × List Char)
  | '.' :: cs => readDigits cs
  | cs => some ([], cs)

def readExponent : List Char → Option (Option Int × List Char)
  | c :: cs =>
    if c = 'e' || c = 'E' then
      match cs with
      | '-' :: cs => (readDigits cs).map fun (ds, rest) => (some (-(digitsValue ds : Int)), rest)
      | '+' :: cs => (readDigits cs).map fun (ds, rest) => (some (digitsValue ds : Int), rest)
      | cs => (readDigits cs).map fun (ds, rest) => (some (digitsValue ds : Int), rest)
    else some (none, c :: cs)
  | [] => some (none, [])

/-- The number that a literal stands for. -/
def numberOf (negative : Bool) (whole fraction : List Char) (exponent : Option Int) : Number :=
  let m : Int := digitsValue (whole ++ fraction)
  let m := if negative then -m else m
  let fits := if negative then m < 0 && -0x8000000000000000 ≤ m else m < 0x10000000000000000
  if fraction.isEmpty && exponent.isNone && fits then .integer m
  else .real m (exponent.getD 0 - fraction.length)

def readUnsigned (negative : Bool) (cs : List Char) : Option (Json × List Char) := do
  let (whole, cs) ← readWhole cs
  let (fraction, cs) ← readFraction cs
  let (exponent, cs) ← readExponent cs
  return (.number (numberOf negative whole fraction exponent), cs)

def readNumber : List Char → Option (Json × List Char)
  | '-' :: cs => readUnsigned true cs
  | cs => readUnsigned false cs

def hexValue (c : Char) : Option Nat :=
  if c.isDigit then some (c.toNat - 48)
  else if 'a' ≤ c && c ≤ 'f' then some (c.toNat - 87)
  else if 'A' ≤ c && c ≤ 'F' then some (c.toNat - 55)
  else none

def readHex4 : List Char → Option (Nat × List Char)
  | a :: b :: c :: d :: rest => do
    let a ← hexValue a
    let b ← hexValue b
    let c ← hexValue c
    let d ← hexValue d
    return (((a * 16 + b) * 16 + c) * 16 + d, rest)
  | _ => none

/-- The character of a `\u` escape; a high surrogate needs the low one after it. -/
def readUnicode (cs : List Char) : Option (Char × List Char) := do
  let (n, rest) ← readHex4 cs
  if 0xDC00 ≤ n && n ≤ 0xDFFF then none
  else if 0xD800 ≤ n && n ≤ 0xDBFF then
    let rest ← expect ['\\', 'u'] rest
    let (m, rest) ← readHex4 rest
    if 0xDC00 ≤ m && m ≤ 0xDFFF then
      some (Char.ofNat (0x10000 + (n - 0xD800) * 0x400 + (m - 0xDC00)), rest)
    else none
  else some (Char.ofNat n, rest)

def simpleEscape (c : Char) : Option Char :=
  if c = '"' || c = '\\' || c = '/' then some c
  else if c = 'b' then some (Char.ofNat 8)
  else if c = 'f' then some (Char.ofNat 12)
  else if c = 'n' then some '\n'
  else if c = 'r' then some '\r'
  else if c = 't' then some '\t'
  else none

/-- The rest of a string after its opening quote; `acc` holds what is read, the latest first. -/
def readChars : Nat → List Char → List Char → Option (String × List Char)
  | 0, _, _ => none
  | fuel + 1, acc, cs =>
    match cs with
    | [] => none
    | '"' :: rest => some (String.ofList acc.reverse, rest)
    | '\\' :: 'u' :: rest => do
      let (c, rest) ← readUnicode rest
      readChars fuel (c :: acc) rest
    | '\\' :: e :: rest => do
      let c ← simpleEscape e
      readChars fuel (c :: acc) rest
    | c :: rest => if c.toNat < 0x20 || c = '\\' then none else readChars fuel (c :: acc) rest

def readString : List Char → Option (String × List Char)
  | '"' :: cs => readChars (cs.length + 1) [] cs
  | _ => none

mutual

def readValue : Nat → List Char → Option (Json × List Char)
  | 0, _ => none
  | fuel + 1, cs =>
    match skipBlanks cs with
    | [] => none
    | '"' :: cs => (readString ('"' :: cs)).map fun (s, rest) => (.string s, rest)
    | '[' :: cs =>
      match skipBlanks cs with
      | ']' :: rest => some (.array [], rest)
      | cs => (readItems fuel cs).map fun (js, rest) => (.array js, rest)
    | '{' :: cs =>
      match skipBlanks cs with
      | '}' :: rest => some (.object [], rest)
      | cs => (readFields fuel cs).map fun (fs, rest) => (.object fs, rest)
    | 't' :: cs => (expect ['r', 'u', 'e'] cs).map fun rest => (.bool true, rest)
    | 'f' :: cs => (expect ['a', 'l', 's', 'e'] cs).map fun rest => (.bool false, rest)
    | 'n' :: cs => (expect ['u', 'l', 'l'] cs).map fun rest => (.null, rest)
    | cs => readNumber cs

/-- The items of an array, at least one, up to its closing bracket. -/
def readItems : Nat → List Char → Option (List Json × List Char)
  | 0, _ => none
  | fuel + 1, cs => do
    let (j, cs) ← readValue fuel cs
    match skipBlanks cs with
    | ',' :: cs => (readItems fuel cs).map fun (js, rest) => (j :: js, rest)
    | ']' :: rest => some ([j], rest)
    | _ => none

/-- The fields of an object, at least one, up to its closing brace. -/
def readFields : Nat → List Char → Option (List (String × Json) × List Char)
  | 0, _ => none
  | fuel + 1, cs => do
    let (name, cs) ← readString (skipBlanks cs)
    match skipBlanks cs with
    | ':' :: cs =>
      let (j, cs) ← readValue fuel cs
      match skipBlanks cs with
      | ',' :: cs => (readFields fuel cs).map fun (fs, rest) => ((name, j) :: fs, rest)
      | '}' :: rest => some ([(name, j)], rest)
      | _ => none
    | _ => none

end

/-- The value that a text starts with. -/
def readFirst (cs : List Char) : Option (Json × List Char) :=
  readValue (2 * cs.length + 2) cs

/-- The value that is the whole text, blanks around it apart. -/
def parse? (text : String) : Option Json := do
  let (j, rest) ← readFirst text.toList
  if (skipBlanks rest).isEmpty then some j else none

end PromqlServer.Json
