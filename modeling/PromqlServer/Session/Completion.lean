import PromqlServer.Prometheus.Question
import PromqlServer.Query.Completion

/-!
The answer to `completion`: which query a completion context asks of the data source, and which
items come of the answer.
-/

namespace PromqlServer.Session

open PromqlServer.Prometheus PromqlServer.Query

inductive ItemKind where
  | metric
  | label
  | value
  deriving DecidableEq, Repr

structure CompletionItem where
  label : String
  kind : ItemKind
  detail : Option String := none
  documentation : Option String := none
  deriving DecidableEq, Repr

/-- The question that a context asks. -/
def questionFor : CompletionContext → Question
  | .metricName _ => .allMetadata
  | .labelName metric _ => .labelNames metric
  | .labelValue label _ => .labelValues label

/-- Whether a name goes on from what is typed. -/
def goesOn (typed name : String) : Bool := typed.toList.isPrefixOf name.toList

/-- A metric is shown with its type, and with its help if it has one. -/
def metricItem (name : String) (entries : List Metadata) : CompletionItem where
  label := name
  kind := .metric
  detail := entries.head?.map Metadata.type
  documentation := (entries.head?.map Metadata.help).filter (· ≠ "")

/-- The items for what is typed, in the order of the answer. -/
def itemsFor : CompletionContext → Answer → List CompletionItem
  | .metricName typed, .all map =>
    (map.filter fun entry => goesOn typed entry.1).map fun entry => metricItem entry.1 entry.2
  | .labelName _ typed, .names list =>
    (list.filter fun name => name ≠ "__name__" && goesOn typed name).map fun name =>
      { label := name, kind := .label }
  | .labelValue _ typed, .names list =>
    (list.filter (goesOn typed)).map fun value => { label := value, kind := .value }
  | _, _ => []

end PromqlServer.Session
