import PromqlServer.Url.Address
import PromqlServer.Url.Percent
import PromqlServer.Url.Punycode

/-!
Domain names: every name is mapped to lower case ASCII, labels with other characters by Punycode.
-/

namespace PromqlServer.Url.Domain

/-- ASCII characters that no domain may have. -/
def isForbidden (c : Char) : Bool :=
  c.toNat ≤ 0x20 || c.toNat = 0x7F ||
    ['%', '#', '/', ':', '<', '>', '?', '@', '[', '\\', ']', '^', '|'].contains c

/-- Characters that a name may have but that do not count. -/
def isIgnored (c : Char) : Bool :=
  let n := c.toNat
  n = 0xAD || n = 0x34F || n = 0x200B || n = 0x2060 || n = 0x2064 || n = 0xFEFF ||
    (0x180B ≤ n && n ≤ 0x180D) || n = 0x180F || (0xFE00 ≤ n && n ≤ 0xFE0F)

/-- Characters outside ASCII that no domain may have: controls, joiners and marks of direction,
blanks, private use and characters that stand for none. -/
def isDisallowed (c : Char) : Bool :=
  let n := c.toNat
  (0x80 ≤ n && n ≤ 0xA0) || n = 0x1680 || (0x2000 ≤ n && n ≤ 0x200F) ||
    (0x2028 ≤ n && n ≤ 0x202F) || (0x205F ≤ n && n ≤ 0x206F) || n = 0x3000 ||
    (0xE000 ≤ n && n ≤ 0xF8FF) || (0xFDD0 ≤ n && n ≤ 0xFDEF) || (0xFFF0 ≤ n && n ≤ 0xFFFF) ||
    0xE0000 ≤ n || n % 0x10000 ≥ 0xFFFE

/-- The lower case of a character, for the scripts that have two cases. -/
def lower (c : Char) : Char :=
  let n := c.toNat
  if c.isUpper then c.toLower
  else if n < 0xC0 then c
  else if (n ≤ 0xDE && n ≠ 0xD7) then Char.ofNat (n + 32)
  else if n < 0x100 then c
  else if n = 0x178 then Char.ofNat 0xFF
  else if n = 0x130 then 'i'
  else if (n ≤ 0x137 || (0x14A ≤ n && n ≤ 0x177)) && n % 2 = 0 then Char.ofNat (n + 1)
  else if ((0x139 ≤ n && n ≤ 0x148) || (0x179 ≤ n && n ≤ 0x17E)) && n % 2 = 1 then Char.ofNat (n + 1)
  else if n = 0x17F then 's'
  else if n = 0x386 then Char.ofNat 0x3AC
  else if 0x388 ≤ n && n ≤ 0x38A then Char.ofNat (n + 37)
  else if n = 0x38C then Char.ofNat 0x3CC
  else if n = 0x38E || n = 0x38F then Char.ofNat (n + 63)
  else if 0x391 ≤ n && n ≤ 0x3AB && n ≠ 0x3A2 then Char.ofNat (n + 32)
  else if 0x400 ≤ n && n ≤ 0x40F then Char.ofNat (n + 80)
  else if 0x410 ≤ n && n ≤ 0x42F then Char.ofNat (n + 32)
  else if ((0x460 ≤ n && n ≤ 0x481) || (0x48A ≤ n && n ≤ 0x4BF) || (0x4D0 ≤ n && n ≤ 0x52F)) &&
      n % 2 = 0 then Char.ofNat (n + 1)
  else if 0x531 ≤ n && n ≤ 0x556 then Char.ofNat (n + 48)
  else if ((0x1E00 ≤ n && n ≤ 0x1E95) || (0x1EA0 ≤ n && n ≤ 0x1EFF)) && n % 2 = 0 then
    Char.ofNat (n + 1)
  else if n = 0x1E9E then Char.ofNat 0xDF
  else c

/-- What a character of a name is mapped to. -/
def mapChar (c : Char) : List Char :=
  let n := c.toNat
  if isIgnored c then []
  else if n = 0x3002 || n = 0xFF0E || n = 0xFF61 then ['.']
  else if 0xFF01 ≤ n && n ≤ 0xFF5E then [lower (Char.ofNat (n - 0xFEE0))]
  else if n = 0xAA then ['a']
  else if n = 0xBA then ['o']
  else if n = 0xB2 || n = 0xB3 then [Char.ofNat (n - 0x80)]
  else if n = 0xB9 then ['1']
  else if n = 0xB5 then [Char.ofNat 0x3BC]
  else [lower c]

def isAscii (cs : List Char) : Bool := cs.all (·.toNat < 128)

/-- A label may not start with a combining mark. -/
def startsWithMark : List Char → Bool
  | [] => false
  | c :: _ => 0x300 ≤ c.toNat && c.toNat ≤ 0x36F

def isValidLabel (cs : List Char) : Bool :=
  !startsWithMark cs && cs.all fun c => !isDisallowed c && mapChar c = [c]

def acePrefix : List Char := ['x', 'n', '-', '-']

/-- A mapped label in ASCII. One that is already encoded has to be the encoding of a label that
needs it. -/
def labelToAscii (label : List Char) : Option (List Char) :=
  if acePrefix.isPrefixOf label then do
    let text ← Punycode.decode (label.drop 4)
    if !text.isEmpty && !isAscii text && isValidLabel text &&
        acePrefix ++ Punycode.encode text = label then some label
    else none
  else if isAscii label then some label
  else if isValidLabel label then some (acePrefix ++ Punycode.encode label)
  else none

/-- The ASCII form of a domain name, if it is one. -/
def toAscii (name : List Char) : Option (List Char) := do
  let mapped := name.flatMap mapChar
  if mapped.any isForbidden then none
  else
    let labels ← (Text.splitAt '.' mapped).mapM labelToAscii
    return ['.'].intercalate labels

end PromqlServer.Url.Domain
