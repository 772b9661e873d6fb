import PromqlServer.Json.Reader
import PromqlServer.Json.Writer
import PromqlServer.Rpc.Service
import PromqlServer.Text.Blank

/-!
Messages on the wire: a few header lines, an empty line, and a body of as many bytes as the header
says. A reader takes bytes as they come and gives the messages that are complete.
-/

namespace PromqlServer.Connection

open PromqlServer.Rpc PromqlServer.Session

abbrev Bytes := List UInt8

def bytesOf (s : String) : Bytes := s.toUTF8.toList

def textOf? (bs : Bytes) : Option String := String.fromUTF8? ⟨bs.toArray⟩

structure Header where
  name : Bytes
  value : Bytes
  deriving DecidableEq, Repr

/-- How far the reading of a header is. -/
inductive Reading where
  | lineStart
  | name (read : Bytes)
  | blank (name : Bytes)
  | value (name read : Bytes)
  | lineEnd (header : Header)
  | lastLine
  deriving DecidableEq, Repr

/-- Letters, digits and the marks of a token. -/
def isTokenByte (b : UInt8) : Bool :=
  let c := Char.ofNat b.toNat
  c.isAlphanum || ['!', '#', '$', '%', '&', '*', '+', '-', '.', '^', '_', '|', '~'].contains c ||
    b = 0x27 || b = 0x60

def isValueByte (b : UInt8) : Bool := b = 0x09 || (0x20 ≤ b && b ≠ 0x7F)

def isBlankByte (b : UInt8) : Bool := b = 0x20 || b = 0x09

/-- The value without blanks at its end; its bytes come the latest first. -/
def valueOf (read : Bytes) : Bytes := (read.dropWhile isBlankByte).reverse

inductive Headers where
  | incomplete
  | invalid
  | complete (headers : List Header) (rest : Bytes)
  deriving DecidableEq, Repr

/-- There are at most this many header lines. -/
def mostHeaders : Nat := 2

/-- Reads header lines up to the empty line. An invalid byte is found as soon as it is there. -/
def readHeaders : Reading → List Header → Bytes → Headers
  | _, _, [] => .incomplete
  | .lineStart, headers, b :: bs =>
    if b = 0x0D then readHeaders .lastLine headers bs
    else if b = 0x0A then .complete headers bs
    else if isTokenByte b && headers.length < mostHeaders then readHeaders (.name [b]) headers bs
    else .invalid
  | .name read, headers, b :: bs =>
    if b = 0x3A then readHeaders (.blank read.reverse) headers bs
    else if isTokenByte b then readHeaders (.name (b :: read)) headers bs
    else .invalid
  | .blank name, headers, b :: bs =>
    if isBlankByte b then readHeaders (.blank name) headers bs
    else if b = 0x0D then readHeaders (.lineEnd ⟨name, []⟩) headers bs
    else if b = 0x0A then readHeaders .lineStart (headers ++ [⟨name, []⟩]) bs
    else if isValueByte b then readHeaders (.value name [b]) headers bs
    else .invalid
  | .value name read, headers, b :: bs =>
    if b = 0x0D then readHeaders (.lineEnd ⟨name, valueOf read⟩) headers bs
    else if b = 0x0A then readHeaders .lineStart (headers ++ [⟨name, valueOf read⟩]) bs
    else if isValueByte b then readHeaders (.value name (b :: read)) headers bs
    else .invalid
  | .lineEnd header, headers, b :: bs =>
    if b = 0x0A then readHeaders .lineStart (headers ++ [header]) bs else .invalid
  | .lastLine, headers, b :: bs => if b = 0x0A then .complete headers bs else .invalid

/-- A length of at most 64 bits; a plus sign may stand before it. -/
def readLength? (value : Bytes) : Option Nat := do
  let cs := (← textOf? value).toList
  let digits := match cs with
    | '+' :: cs => cs
    | cs => cs
  if digits.isEmpty || !digits.all Char.isDigit then none
  else
    let n := Json.digitsValue digits
    if n < 0x10000000000000000 then some n else none

/-- The character set that a content type names. -/
def charset? (value : List Char) : Option (List Char) :=
  let label := "charset=".toList
  ((Text.splitAt ';' value).drop 1).findSome? fun part =>
    let part := Text.trim part
    if label.isPrefixOf part then some (part.drop label.length) else none

def isTextType (value : Bytes) : Bool :=
  match textOf? value with
  | none => false
  | some value =>
    match charset? value.toList with
    | some name => name = "utf-8".toList || name = "utf8".toList
    | none => false

/-- The length of the body. Headers that are not known do not count; a content type has to be
text in UTF-8. -/
def contentLength? : List Header → Option Nat → Option Nat
  | [], length => length
  | h :: hs, length =>
    if h.name = bytesOf "Content-Length" then do contentLength? hs (some (← readLength? h.value))
    else if h.name = bytesOf "Content-Type" then
      if isTextType h.value then contentLength? hs length else none
    else contentLength? hs length

/-- The message in a body. A body that starts with a value of another form is an invalid request,
whatever follows the value. -/
def readBody (body : Bytes) : Except RpcError Incoming :=
  match (textOf? body).bind fun text => Json.readFirst text.toList with
  | none => .error parseFailure
  | some (j, rest) =>
    if !j.keepable then .error parseFailure
    else match Incoming.read? j with
      | none => .error invalidRequest
      | some message =>
        if (Json.skipBlanks rest).isEmpty then .ok message else .error parseFailure

/-- A message as it is sent. -/
def frame (text : String) : Bytes :=
  bytesOf ("Content-Length: " ++ toString text.utf8ByteSize ++ "\r\n\r\n" ++ text)

structure Reader where
  buffer : Bytes := []
  /-- The length of the body that comes next, once its header is read. -/
  expected : Option Nat := none
  deriving DecidableEq, Repr

namespace Reader

def feed (r : Reader) (bs : Bytes) : Reader := { r with buffer := r.buffer ++ bs }

/-- The body that was announced. An empty one is no message: reading goes on when more bytes
come. -/
def takeBody (r : Reader) (length : Nat) : Reader × Option (Except RpcError Incoming) :=
  if r.buffer.length < length then (r, none)
  else
    let body := r.buffer.take length
    let r := { buffer := r.buffer.drop length, expected := none }
    if body.isEmpty then (r, none) else (r, some (readBody body))

/-- The next message, if it is complete. -/
def next (r : Reader) : Reader × Option (Except RpcError Incoming) :=
  match r.expected with
  | some length => r.takeBody length
  | none =>
    match readHeaders .lineStart [] r.buffer with
    | .incomplete => (r, none)
    | .invalid => (r, some (.error parseFailure))
    | .complete headers rest =>
      match contentLength? headers none with
      | none => (r, some (.error parseFailure))
      | some length => { buffer := rest, expected := some length : Reader }.takeBody length

end Reader

end PromqlServer.Connection
