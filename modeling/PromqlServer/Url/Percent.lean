/-!
Percent-encoding: which characters each component of a URL has to encode, and encoding and decoding
by UTF-8 bytes.
-/

namespace PromqlServer.Url

/-- Controls and everything outside ASCII, encoded in every component. -/
def controlSet (c : Char) : Bool := c.toNat < 0x20 || 0x7E < c.toNat

def fragmentSet (c : Char) : Bool :=
  controlSet c || c = ' ' || c = '"' || c = '<' || c = '>' || c.toNat = 0x60

def querySet (c : Char) : Bool :=
  controlSet c || c = ' ' || c = '"' || c = '#' || c = '<' || c = '>'

/-- The query of a special URL encodes the apostrophe too. -/
def specialQuerySet (c : Char) : Bool := querySet c || c.toNat = 0x27

def pathSet (c : Char) : Bool :=
  fragmentSet c || c = '#' || c = '?' || c = '{' || c = '}'

def userinfoSet (c : Char) : Bool :=
  pathSet c || c = '/' || c = ':' || c = ';' || c = '=' || c = '@' || c = '[' || c = '\\' ||
    c = ']' || c = '^' || c = '|'

/-- All that a name or value of a form keeps is letters, digits and four marks. -/
def formSet (c : Char) : Bool :=
  !(c.isAlphanum || c = '*' || c = '-' || c = '.' || c = '_')

def upperHex (n : Nat) : Char :=
  if n < 10 then Char.ofNat (48 + n) else Char.ofNat (55 + n)

def encodeByte (b : UInt8) : List Char :=
  ['%', upperHex (b.toNat / 16), upperHex (b.toNat % 16)]

def encodeChar (set : Char → Bool) (c : Char) : List Char :=
  if set c then (String.utf8EncodeChar c).flatMap encodeByte else [c]

def encode (set : Char → Bool) (cs : List Char) : List Char :=
  cs.flatMap (encodeChar set)

/-- A name or value of a form, with a plus sign for a space. -/
def encodeForm (cs : List Char) : List Char :=
  cs.flatMap fun c => if c = ' ' then ['+'] else encodeChar formSet c

def hexValue (c : Char) : Option Nat :=
  if c.isDigit then some (c.toNat - 48)
  else if 'a' ≤ c && c ≤ 'f' then some (c.toNat - 87)
  else if 'A' ≤ c && c ≤ 'F' then some (c.toNat - 55)
  else none

/-- The bytes that a text stands for; a percent sign without two digits stands for itself. -/
def decodeBytes : List Char → List UInt8
  | [] => []
  | [c] => String.utf8EncodeChar c
  | [c, d] => String.utf8EncodeChar c ++ String.utf8EncodeChar d
  | c :: d :: e :: cs =>
    match c, hexValue d, hexValue e with
    | '%', some h, some l => UInt8.ofNat (16 * h + l) :: decodeBytes cs
    | _, _, _ => String.utf8EncodeChar c ++ decodeBytes (d :: e :: cs)

/-- The decoded text, if its bytes are UTF-8. -/
def decode? (cs : List Char) : Option (List Char) :=
  (String.fromUTF8? ⟨(decodeBytes cs).toArray⟩).map String.toList

end PromqlServer.Url
