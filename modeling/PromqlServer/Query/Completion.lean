import PromqlServer.Query.Lexical
import PromqlServer.Text.Blank

/-!
`completion_context`: what is being typed at a position of a query, which is a metric name, a label
name, or the value of a label. `open_brace` finds the selector around the cursor.
-/

namespace PromqlServer.Query

open PromqlServer.Text

def isLabelStart (c : Char) : Bool := c.isAlpha || c = '_'

def isLabelChar (c : Char) : Bool := c.isAlphanum || c = '_'

def isMetricStart (c : Char) : Bool := isLabelStart c || c = ':'

def isMetricChar (c : Char) : Bool := isLabelChar c || c = ':'

/-- The longest suffix that is a label name, empty if there is none. -/
def labelSuffix (cs : List Char) : List Char :=
  (longestSuffix isLabelChar cs).dropWhile fun c => !isLabelStart c

/-- The longest suffix that is a metric name, empty if there is none. -/
def metricSuffix (cs : List Char) : List Char :=
  (longestSuffix isMetricChar cs).dropWhile fun c => !isMetricStart c

inductive CompletionContext where
  | metricName (typed : String)
  | labelName (metric : Option String) (typed : String)
  | labelValue (label : String) (typed : String)
  deriving DecidableEq, Repr

/-- Strings and open braces while looking for the selector around the cursor. -/
structure BraceScan where
  quote : Option Char
  escaped : Bool
  /-- Byte offsets of open braces, the innermost first. -/
  braces : List Nat
  deriving DecidableEq, Repr

def BraceScan.empty : BraceScan := ⟨none, false, []⟩

def BraceScan.step (s : BraceScan) (offset : Nat) (c : Char) : BraceScan :=
  match s.quote with
  | some q =>
    if s.escaped then { s with escaped := false }
    else if c = '\\' && !isRawQuote q then { s with escaped := true }
    else if c = q then { s with quote := none }
    else s
  | none =>
    if isQuote c then { s with quote := some c }
    else if c = '{' then { s with braces := offset :: s.braces }
    else if c = '}' then { s with braces := s.braces.tail }
    else s

def braceScan : Nat → List Char → BraceScan → BraceScan
  | _, [], s => s
  | offset, c :: cs, s => braceScan (offset + c.utf8Size) cs (s.step offset c)

/-- Byte offset of the innermost brace that is open at the end of the text. -/
def openBrace (text : List Char) : Option Nat :=
  (braceScan 0 text BraceScan.empty).braces.head?

/-- The text without a matching operator at its end. -/
def dropMatcher (cs : List Char) : Option (List Char) :=
  match cs.reverse with
  | '~' :: '=' :: rest => some rest.reverse
  | '~' :: '!' :: rest => some rest.reverse
  | '=' :: '!' :: rest => some rest.reverse
  | '=' :: rest => some rest.reverse
  | _ => none

/-- The label whose quoted value the text ends in, and what is typed of that value: after the last
double quote, which a label name and a matching operator stand before. -/
def labelValue (inside : List Char) : Option (List Char × List Char) := do
  let typed := longestSuffix (· ≠ '"') inside
  match (dropSuffix (· ≠ '"') inside).reverse with
  | [] => none
  | _ :: rest =>
    let before ← dropMatcher (dropSuffix isBlank rest.reverse)
    match labelSuffix (dropSuffix isBlank before) with
    | [] => none
    | label => some (label, typed)

/-- An odd number of double quotes. -/
def quoteOpen (inside : List Char) : Bool :=
  inside.count '"' % 2 == 1

def nonempty (cs : List Char) : Option String :=
  if cs.isEmpty then none else some (String.ofList cs)

/-- What is being typed at the end of `before`. -/
def contextAfter (before : List Char) : Option CompletionContext :=
  match openBrace before with
  | none => some (.metricName (String.ofList (metricSuffix before)))
  | some brace => do
    let inside ← dropBytes (brace + 1) before
    match labelValue inside with
    | some (label, typed) => some (.labelValue (String.ofList label) (String.ofList typed))
    | none =>
      if quoteOpen inside then none
      else
        let selected ← takeBytes brace before
        some (.labelName (nonempty (metricSuffix (dropSuffix isBlank selected)))
          (String.ofList (labelSuffix inside)))

/-- What is being typed at a position; nothing if the text has no such line, or inside a string
that is not the value of a label. -/
def completionContext (content : List Char) (p : Position) : Option CompletionContext := do
  let offset ← offsetAt content p
  let before ← takeBytes offset content
  contextAfter before

end PromqlServer.Query
