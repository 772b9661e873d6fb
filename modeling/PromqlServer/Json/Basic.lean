/-!
JSON values. An object keeps its fields as they were written, repeated names included; `lookup`
reads the last one.
-/

namespace PromqlServer

/-- A number is an integer of at most 64 bits, or a real `mantissa * 10 ^ exponent`. Only a literal
without fraction, exponent and negative zero is an integer. -/
inductive Number where
  | integer (value : Int)
  | real (mantissa : Int) (exponent : Int)
  deriving DecidableEq, Repr

inductive Json where
  | null
  | bool (value : Bool)
  | number (value : Number)
  | string (value : String)
  | array (items : List Json)
  | object (fields : List (String × Json))
  deriving Repr, Inhabited

namespace Number

/-- The bound from which on a real has no finite double next to it. -/
def overflow : Nat := Nat.pow 2 1024 - Nat.pow 2 970

/-- Whether the number rounds to a finite double. -/
def isFinite : Number → Bool
  | .integer _ => true
  | .real m e =>
    if m = 0 then true
    else if e ≤ 0 then
      let places := (-e).toNat
      -- a mantissa of few digits is small whatever the number of places
      if m.natAbs < overflow then true else m.natAbs < overflow * Nat.pow 10 (min places 100000)
    else if e > 400 then false
    else m.natAbs * Nat.pow 10 e.toNat < overflow

end Number

namespace Json

def ofInt (n : Int) : Json := .number (.integer n)

def ofNat (n : Nat) : Json := ofInt n

/-- The value of a field of an object; of a repeated field the last one. -/
def lookup (name : String) : Json → Option Json
  | .object fields => (fields.reverse.find? fun field => field.1 = name).map Prod.snd
  | _ => none

def asString? : Json → Option String
  | .string s => some s
  | _ => none

def asInt? : Json → Option Int
  | .number (.integer n) => some n
  | _ => none

/-- Fields with each name once, where it first stands and with the value that it last has. -/
def distinctFields (fields : List (String × Json)) : List (String × Json) :=
  fields.foldl (fun seen field =>
    if seen.any (fun old => old.1 = field.1) then
      seen.map fun old => if old.1 = field.1 then field else old
    else seen ++ [field]) []

mutual

/-- Nesting of arrays and objects. -/
def depth : Json → Nat
  | .array items => depthItems items + 1
  | .object fields => depthFields fields + 1
  | _ => 0

def depthItems : List Json → Nat
  | [] => 0
  | j :: js => max j.depth (depthItems js)

def depthFields : List (String × Json) → Nat
  | [] => 0
  | (_, j) :: fs => max j.depth (depthFields fs)

end

mutual

/-- Every number in the value is finite. -/
def allFinite : Json → Bool
  | .number n => n.isFinite
  | .array items => allFiniteItems items
  | .object fields => allFiniteFields fields
  | _ => true

def allFiniteItems : List Json → Bool
  | [] => true
  | j :: js => j.allFinite && allFiniteItems js

def allFiniteFields : List (String × Json) → Bool
  | [] => true
  | (_, j) :: fs => j.allFinite && allFiniteFields fs

end

mutual

/-- The value with each field of an object once: where it first stands, as it is last. -/
def settled : Json → Json
  | .array items => .array (settledItems items)
  | .object fields => .object (distinctFields (settledFields fields))
  | j => j

def settledItems : List Json → List Json
  | [] => []
  | j :: js => j.settled :: settledItems js

def settledFields : List (String × Json) → List (String × Json)
  | [] => []
  | (name, j) :: fs => (name, j.settled) :: settledFields fs

end

/-- A value can be kept if it nests at most 127 deep and its numbers are finite. A value that is
skipped over need not satisfy this. -/
def keepable (j : Json) : Bool :=
  j.depth ≤ 127 && j.allFinite

end Json

end PromqlServer
