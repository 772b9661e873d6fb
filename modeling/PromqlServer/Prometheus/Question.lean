import PromqlServer.Prometheus.Dialect
import PromqlServer.Prometheus.Envelope
import PromqlServer.Prometheus.Metadata

/-!
The queries of a data source, `metadata`, `all_metadata`, `label_names` and `label_values`, and how
each dialect asks for them and reads the answer.
-/

namespace PromqlServer.Prometheus

inductive Question where
  | metadata (metric : String)
  | allMetadata
  /-- The label names, or those of one metric. -/
  | labelNames (metric : Option String)
  | labelValues (label : String)
  deriving DecidableEq, Repr

inductive Answer where
  | metadata (entries : List Metadata)
  | all (map : MetadataMap)
  | names (list : List String)
  deriving DecidableEq, Repr

/-- An API path and the parameters after it. -/
structure Resource where
  path : String
  parameters : List (String × String) := []
  deriving DecidableEq, Repr

/-- Selects every target that has a job, which is every target. -/
def allTargets : String := "\x7bjob=~\".+\"\x7d"

/-- Where the answer to a question is found. -/
def Question.resource : Dialect → Question → Resource
  | .current, .metadata metric => ⟨"/api/v1/metadata", [("metric", metric)]⟩
  | .current, .allMetadata => ⟨"/api/v1/metadata", []⟩
  | .current, .labelNames (some metric) => ⟨"/api/v1/labels", [("match[]", metric)]⟩
  | .legacy, .metadata metric => ⟨"/api/v1/targets/metadata", [("metric", metric)]⟩
  | .legacy, .allMetadata => ⟨"/api/v1/targets/metadata", [("match_target", allTargets)]⟩
  | .legacy, .labelNames (some metric) => ⟨"/api/v1/series", [("match[]", metric)]⟩
  | _, .labelNames none => ⟨"/api/v1/labels", []⟩
  | _, .labelValues label => ⟨"/api/v1/label/" ++ label ++ "/values", []⟩

def Resource.url (base : Base) (r : Resource) : Url :=
  (base.endpoint r.path).withParameters r.parameters

/-- The label names of one series, whose values are kept and therefore have to be in bounds: three
levels are around them. -/
def seriesLabels? : Json → Option (List String)
  | .object fields =>
    if fields.all fun field => field.2.depth + 3 ≤ 127 && field.2.allFinite then
      some (fields.map Prod.fst)
    else none
  | _ => none

/-- The names, each once and in order. -/
def sortedNames (names : List String) : List String :=
  (distinct names).mergeSort fun a b => decide (a ≤ b)

def namesOf (series : List (List String)) : List String := sortedNames series.flatten

/-- The list of a metric, empty if there is none. -/
def MetadataMap.entriesOf (m : MetadataMap) (metric : String) : List Metadata :=
  ((m.find? fun entry => entry.1 = metric).map Prod.snd).getD []

/-- Reads what an exchange for a question brings. -/
def Question.read (d : Dialect) (q : Question) (outcome : Outcome) : Except ClientError Answer :=
  match d, q with
  | .current, .metadata metric =>
    (readOutcome MetadataMap.read? outcome).map fun m => .metadata (m.entriesOf metric)
  | .current, .allMetadata => (readOutcome MetadataMap.read? outcome).map .all
  | .legacy, .metadata _ =>
    (readOutcome (Json.list? TargetEntry.read?) outcome).map fun entries =>
      .metadata (distinct (entries.map TargetEntry.metadata))
  | .legacy, .allMetadata =>
    (readOutcome (Json.list? TargetEntry.read?) outcome).map fun entries =>
      .all (groupByMetric entries)
  | .legacy, .labelNames (some _) =>
    (readOutcome (Json.list? seriesLabels?) outcome).map fun series => .names (namesOf series)
  | _, _ => (readOutcome (Json.list? Json.asString?) outcome).map .names

end PromqlServer.Prometheus
