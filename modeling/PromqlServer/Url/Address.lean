import PromqlServer.Text.Measure

/-!
Numeric hosts: IPv4 addresses in any of their short forms, IPv6 addresses, and how they are written.
-/

namespace PromqlServer.Url

open PromqlServer.Text (splitAt)

def digitValue (c : Char) : Option Nat :=
  if c.isDigit then some (c.toNat - 48)
  else if 'a' ≤ c && c ≤ 'f' then some (c.toNat - 87)
  else if 'A' ≤ c && c ≤ 'F' then some (c.toNat - 55)
  else none

def readRadix (radix : Nat) (cs : List Char) : Option Nat :=
  cs.foldl (fun n c => do
    let n ← n
    let d ← digitValue c
    if d < radix then some (radix * n + d) else none) (some 0)

/-- A part of an IPv4 address: decimal, octal after a zero, or hexadecimal after `0x`. -/
def readPart : List Char → Option Nat
  | [] => none
  | '0' :: 'x' :: cs => readRadix 16 cs
  | '0' :: 'X' :: cs => readRadix 16 cs
  | '0' :: c :: cs => readRadix 8 (c :: cs)
  | cs => readRadix 10 cs

/-- The parts of a dotted name, without the empty one after a dot at the end. -/
def dottedParts (cs : List Char) : List (List Char) :=
  let parts := splitAt '.' cs
  if parts.length > 1 && parts.getLast? = some [] then parts.dropLast else parts

/-- A name whose last part is a number can only be an IPv4 address. -/
def endsInNumber (cs : List Char) : Bool :=
  match (dottedParts cs).getLast? with
  | none | some [] => false
  | some last => last.all Char.isDigit || (readPart last).isSome

/-- The address of a name that ends in a number. Its last part fills all the bytes that are left. -/
def readIpv4 (cs : List Char) : Option Nat := do
  let parts := dottedParts cs
  if parts.length > 4 then none
  else
    let numbers ← parts.mapM readPart
    let last ← numbers.getLast?
    let first := numbers.dropLast
    if first.any (· > 255) || last ≥ Nat.pow 256 (4 - first.length) then none
    else some (first.zipIdx.foldl (fun n (b, i) => n + b * Nat.pow 256 (3 - i)) last)

def writeIpv4 (n : Nat) : String :=
  s!"{n / 16777216 % 256}.{n / 65536 % 256}.{n / 256 % 256}.{n % 256}"

/-- The dotted end of an IPv6 address: four decimal bytes without leading zeros. -/
def readDottedTail (cs : List Char) : Option (List Nat) := do
  let parts := splitAt '.' cs
  if parts.length ≠ 4 then none
  else
    let bytes ← parts.mapM fun p =>
      if p.isEmpty || (p.length > 1 && p.head? = some '0') then none else readRadix 10 p
    match bytes with
    | [a, b, c, d] =>
      if a < 256 && b < 256 && c < 256 && d < 256 then some [256 * a + b, 256 * c + d] else none
    | _ => none

/-- Groups divided by colons; the last one may be a dotted tail. -/
def readGroups (cs : List Char) : Option (List Nat) :=
  if cs.isEmpty then some []
  else
    let parts := splitAt ':' cs
    let piece (last : Bool) (p : List Char) : Option (List Nat) :=
      if last && p.contains '.' then readDottedTail p
      else if p.isEmpty || p.length > 4 then none
      else (readRadix 16 p).map ([·])
    (parts.zipIdx.mapM fun (p, i) => piece (i + 1 = parts.length) p).map List.flatten

/-- Parts before and after the first pair of colons. -/
def splitElision : List Char → Option (List Char × List Char)
  | ':' :: ':' :: cs => some ([], cs)
  | [] => none
  | c :: cs => (splitElision cs).map fun (a, b) => (c :: a, b)

/-- The eight groups of an IPv6 address; a pair of colons stands for at least one zero group. -/
def readIpv6 (cs : List Char) : Option (List Nat) :=
  match splitElision cs with
  | none => do
    let groups ← readGroups cs
    if groups.length = 8 then some groups else none
  | some (before, after) => do
    let before ← if before.contains '.' then none else readGroups before
    let after ← readGroups after
    let missing := 8 - (before.length + after.length)
    if missing = 0 then none else some (before ++ List.replicate missing 0 ++ after)

/-- Length of the run of zeros that a list starts with. -/
def zeroRun (groups : List Nat) : Nat := (groups.takeWhile (· = 0)).length

/-- Start and length of the first longest run of zero groups, if one is longer than one group. -/
def longestZeros (groups : List Nat) : Option (Nat × Nat) :=
  let runs := (List.range groups.length).map fun i => (i, zeroRun (groups.drop i))
  runs.foldl (fun best run =>
    if run.2 ≥ 2 && (match best with | some b => b.2 < run.2 | none => true) then some run
    else best) none

def lowerHex (n : Nat) : String := String.ofList (Nat.toDigits 16 n)

/-- Groups in lower case hexadecimal, the first longest run of zeros left out. -/
def writeIpv6 (groups : List Nat) : String :=
  let join (gs : List Nat) : String := ":".intercalate (gs.map lowerHex)
  match longestZeros groups with
  | none => join groups
  | some (start, length) => join (groups.take start) ++ "::" ++ join (groups.drop (start + length))

end PromqlServer.Url
