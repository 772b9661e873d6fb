import PromqlServer.Json.Basic

/-!
Records read from JSON: an object whose known fields come at most once, or an array of the fields in
their order.
-/

namespace PromqlServer.Json

/-- The values of the fields `names`. As an array a record has at least `least` items and no more
than there are fields. -/
def record? (names : List String) (least : Nat) : Json → Option (List (Option Json))
  | .object fields =>
    names.mapM fun name =>
      match fields.filter fun field => field.1 = name with
      | [] => some none
      | [field] => some (some field.2)
      | _ => none
  | .array items =>
    if least ≤ items.length && items.length ≤ names.length then
      some (items.map some ++ List.replicate (names.length - items.length) none)
    else none
  | _ => none

/-- A field that has to be a string. -/
def stringField? : Option Json → Option String
  | some (.string s) => some s
  | _ => none

/-- A string field that is empty if it is absent. -/
def stringOrEmpty? : Option Json → Option String
  | none => some ""
  | some (.string s) => some s
  | some _ => none

/-- The items of an array, each of which has to be read by `f`. -/
def list? {α : Type} (f : Json → Option α) : Json → Option (List α)
  | .array items => items.mapM f
  | _ => none

end PromqlServer.Json
