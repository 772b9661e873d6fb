import PromqlServer.Json.Record

/-!
The metadata of metrics, as the two dialects tell it: by metric, or entry by entry for each target.
-/

namespace PromqlServer.Prometheus

structure Metadata where
  type : String
  help : String
  unit : String
  deriving DecidableEq, Repr

/-- Metadata by metric name, in the order in which the names came. -/
abbrev MetadataMap := List (String × List Metadata)

/-- What one target tells about one metric. -/
structure TargetEntry where
  metric : String
  metadata : Metadata
  deriving DecidableEq, Repr

def Metadata.read? (j : Json) : Option Metadata := do
  match ← j.record? ["type", "help", "unit"] 1 with
  | [type, help, unit] =>
    return ⟨← Json.stringField? type, ← Json.stringOrEmpty? help, ← Json.stringOrEmpty? unit⟩
  | _ => none

def TargetEntry.read? (j : Json) : Option TargetEntry := do
  match ← j.record? ["metric", "type", "help", "unit"] 2 with
  | [metric, type, help, unit] =>
    return ⟨← Json.stringOrEmpty? metric,
      ⟨← Json.stringField? type, ← Json.stringOrEmpty? help, ← Json.stringOrEmpty? unit⟩⟩
  | _ => none

/-- An object by metric name. A repeated name stands where it first came and has its last value. -/
def MetadataMap.read? : Json → Option MetadataMap
  | .object fields => do
    let entries ← fields.mapM fun (name, j) => do return (name, ← j.list? Metadata.read?)
    return entries.foldl (fun seen entry =>
      if seen.any (fun old => old.1 = entry.1) then
        seen.map fun old => if old.1 = entry.1 then entry else old
      else seen ++ [entry]) []
  | _ => none

/-- The items without those that came before. -/
def distinct {α : Type} [DecidableEq α] (items : List α) : List α :=
  items.foldl (fun seen a => if a ∈ seen then seen else seen ++ [a]) []

/-- Adds an entry to the list of its metric, unless the list has it. -/
def MetadataMap.insert (m : MetadataMap) (e : TargetEntry) : MetadataMap :=
  if m.any (fun old => old.1 = e.metric) then
    m.map fun old =>
      if old.1 = e.metric then
        (old.1, if e.metadata ∈ old.2 then old.2 else old.2 ++ [e.metadata])
      else old
  else m ++ [(e.metric, [e.metadata])]

/-- Entries of many targets, by metric. -/
def groupByMetric (entries : List TargetEntry) : MetadataMap :=
  entries.foldl MetadataMap.insert []

end PromqlServer.Prometheus
