import PromqlServer.Proofs.Prometheus.Questions
import PromqlServer.Proofs.Query.Names
import PromqlServer.Session.Completion

/-!
What `completion` may ask of a data source. The names in a query come from the text of a document,
and the label of `label_values` gets into a path without being encoded; as they are names, they can
add nothing to the URL but themselves.
-/

namespace PromqlServer.Prometheus

open PromqlServer.Query PromqlServer.Session PromqlServer.Text PromqlServer.Url

/-- The resources that completions ask for, by the dialect of the backend. -/
inductive Permitted : Dialect → Resource → Prop
  | metadata : Permitted .current ⟨"/api/v1/metadata", []⟩
  | targets : Permitted .legacy ⟨"/api/v1/targets/metadata", [("match_target", allTargets)]⟩
  | labels (dialect : Dialect) : Permitted dialect ⟨"/api/v1/labels", []⟩
  | labelsOf (metric : String) (h : isMetricName metric.toList = true) :
      Permitted .current ⟨"/api/v1/labels", [("match[]", metric)]⟩
  | seriesOf (metric : String) (h : isMetricName metric.toList = true) :
      Permitted .legacy ⟨"/api/v1/series", [("match[]", metric)]⟩
  | valuesOf (dialect : Dialect) (label : String) (h : isLabelName label.toList = true) :
      Permitted dialect ⟨"/api/v1/label/" ++ label ++ "/values", []⟩

/-- A context whose names are names asks for one of them. -/
theorem permitted_of_isNamed {context : CompletionContext} (h : context.isNamed = true)
    (dialect : Dialect) : Permitted dialect ((questionFor context).resource dialect) := by
  cases context with
  | metricName typed =>
    cases dialect with
    | current => exact .metadata
    | legacy => exact .targets
  | labelName metric typed =>
    cases metric with
    | none => cases dialect <;> exact .labels _
    | some metric =>
      cases dialect with
      | current => exact .labelsOf metric h
      | legacy => exact .seriesOf metric h
  | labelValue label typed => cases dialect <;> exact .valuesOf _ label h

/-! ## URLs of resources -/

/-- The URL is on the server of the base and below its path, and has the path and the parameter of
the resource and nothing else. -/
structure Confined (base : Base) (r : Resource) (url : Url) : Prop where
  scheme : url.scheme = base.url.scheme
  authority : url.authority = base.url.authority
  words : IsPlain r.path.toList
  path : url.path = dropSuffix (· = '/') base.url.path ++ r.path.toList
  query : url.query.map String.toList = r.parameters.head?.map fun x =>
    encodeForm x.1.toList ++ '=' :: encodeForm x.2.toList
  single : ∀ q, url.query = some q → '&' ∉ q.toList ∧ '#' ∉ q.toList ∧ q.toList.count '=' = 1

theorem isPlain_append {a b : List Char} (ha : IsPlain a) (hb : IsPlain b) : IsPlain (a ++ b) :=
  fun c hc => (List.mem_append.1 hc).elim (ha c) (hb c)

/-- Words are in no need of encoding, and are no dot segments. -/
theorem isApiPath_of_isPlain {path : List Char} (h : IsPlain path) : IsApiPath path := by
  intro segment hsegment
  have hwords : ∀ c ∈ segment, isWordChar c = true := by
    intro c hc
    obtain ⟨hmem, hne⟩ := mem_of_mem_splitAt hsegment hc
    exact (h c hmem).resolve_left hne
  have hdot : '.' ∉ segment := by
    intro hmem
    have hword := hwords '.' hmem
    revert hword
    decide
  refine ⟨List.all_eq_true.2 fun c hc => ?_, ?_, ?_⟩
  · simp [isUnreserved, hwords c hc]
  · rintro rfl
    exact hdot (by simp)
  · rintro rfl
    exact hdot (by simp)

/-- The path of a resource consists of words with slashes between them. -/
theorem Permitted.plain {dialect : Dialect} {r : Resource} (h : Permitted dialect r) :
    IsPlain r.path.toList := by
  have hfixed : ∀ path ∈ ["/api/v1/metadata", "/api/v1/targets/metadata", "/api/v1/labels",
      "/api/v1/series"], IsPlain path.toList := by decide +kernel
  cases h with
  | metadata | targets | labels | labelsOf | seriesOf => exact hfixed _ (by simp)
  | valuesOf _ label h =>
    have hbefore : IsPlain "/api/v1/label/".toList := by decide +kernel
    have hafter : IsPlain "/values".toList := by decide +kernel
    have hlabel : IsPlain label.toList := by
      intro c hc
      rw [isLabelName, Bool.and_eq_true, List.all_eq_true] at h
      exact Or.inr (h.2 c hc)
    simp only [String.toList_append]
    exact isPlain_append (isPlain_append hbefore hlabel) hafter

theorem Permitted.answeredAt {dialect : Dialect} {r : Resource} (h : Permitted dialect r) :
    ∃ q, AnsweredAt dialect q r := by
  cases h with
  | metadata => exact ⟨_, .allMetadata⟩
  | targets => exact ⟨_, .allTargetMetadata⟩
  | labels => exact ⟨_, .labelNames _⟩
  | labelsOf metric => exact ⟨_, .labelNamesOf metric⟩
  | seriesOf metric => exact ⟨_, .seriesOf metric⟩
  | valuesOf _ label => exact ⟨_, .labelValues _ label⟩

theorem Permitted.confined {dialect : Dialect} {r : Resource} (h : Permitted dialect r)
    {base : Base} {text : String} (hparse : Base.parse text = .ok base)
    (hhttp : base.url.scheme = "http" ∨ base.url.scheme = "https") :
    Confined base r (r.url base) := by
  obtain ⟨q, hanswered⟩ := h.answeredAt
  obtain ⟨hkind, hrigid, hnormal⟩ := Base.parse_isNormal hparse hhttp
  obtain ⟨hscheme, hauthority, hpath⟩ := r.url_frame base
  refine ⟨hscheme, hauthority, h.plain, ?_, hanswered.url_query_toList base, ?_⟩
  · have hendpoint := Base.endpoint_eq hkind hrigid hnormal (isApiPath_of_isPlain h.plain)
    rw [hpath, hendpoint, hanswered.path.1]
  · intro query hq
    rw [hanswered.url_query base] at hq
    obtain ⟨x, -, rfl⟩ := Option.map_eq_some_iff.1 hq
    exact (formQuery_singleton x.1 x.2).2

end PromqlServer.Prometheus
