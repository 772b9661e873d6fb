import PromqlServer.Prometheus.Client
import PromqlServer.Proofs.Prometheus.Endpoints
import PromqlServer.Proofs.Prometheus.Envelopes

/-!
The queries of a data source in its two dialects: `metadata`, `all_metadata`, `label_names` and
`label_values`. Each dialect has a resource for each of them, whose URL is below the base of the
source as long as no label goes up (`Source.addressed_endpointOf`), and a way to decode the data
that come back (`Question.read_eq_ok_iff`).
-/

namespace PromqlServer.Prometheus

open PromqlServer.Text PromqlServer.Url

/-! ## Requests -/

/-- The resources of the API, by the dialect and the question that they answer. -/
inductive AnsweredAt : Dialect → Question → Resource → Prop
  | metadata (metric : String) :
      AnsweredAt .current (.metadata metric) ⟨"/api/v1/metadata", [("metric", metric)]⟩
  | allMetadata : AnsweredAt .current .allMetadata ⟨"/api/v1/metadata", []⟩
  | labelNamesOf (metric : String) :
      AnsweredAt .current (.labelNames (some metric)) ⟨"/api/v1/labels", [("match[]", metric)]⟩
  | targetMetadata (metric : String) :
      AnsweredAt .legacy (.metadata metric) ⟨"/api/v1/targets/metadata", [("metric", metric)]⟩
  | allTargetMetadata : AnsweredAt .legacy .allMetadata
      ⟨"/api/v1/targets/metadata", [("match_target", "\x7bjob=~\".+\"\x7d")]⟩
  | seriesOf (metric : String) :
      AnsweredAt .legacy (.labelNames (some metric)) ⟨"/api/v1/series", [("match[]", metric)]⟩
  | labelNames (dialect : Dialect) : AnsweredAt dialect (.labelNames none) ⟨"/api/v1/labels", []⟩
  | labelValues (dialect : Dialect) (label : String) :
      AnsweredAt dialect (.labelValues label) ⟨"/api/v1/label/" ++ label ++ "/values", []⟩

/-- The label of a question, which gets into a path without being encoded, does not lead up. -/
def Question.Descends : Question → Prop
  | .labelValues label => Url.Descends label.toList
  | _ => True

/-- The URL is that of the resource `r` below the base of the source. -/
structure Source.Addressed (s : Source) (q : Question) (r : Resource) (url : Url) : Prop where
  resource : AnsweredAt s.dialect q r
  scheme : url.scheme = s.base.url.scheme
  authority : url.authority = s.base.url.authority
  below : q.Descends → s.base.IsAbove url
  path : IsApiPath r.path.toList → url.path = dropSuffix (· = '/') s.base.url.path ++ r.path.toList
  query : url.query.map String.toList = r.parameters.head?.map fun x =>
    encodeForm x.1.toList ++ '=' :: encodeForm x.2.toList

section Requests

variable {dialect : Dialect} {q : Question} {r : Resource}

theorem answeredAt_resource (dialect : Dialect) (q : Question) :
    AnsweredAt dialect q (q.resource dialect) := by
  cases q with
  | metadata metric =>
    cases dialect with
    | current => exact .metadata metric
    | legacy => exact .targetMetadata metric
  | allMetadata =>
    cases dialect with
    | current => exact .allMetadata
    | legacy => exact .allTargetMetadata
  | labelNames metric =>
    cases metric with
    | none => cases dialect <;> exact .labelNames _
    | some metric =>
      cases dialect with
      | current => exact .labelNamesOf metric
      | legacy => exact .seriesOf metric
  | labelValues label => cases dialect <;> exact .labelValues _ label

/-- Every path of the API has one slash at its start and does not lead up, apart from the label in
it. -/
theorem AnsweredAt.path (h : AnsweredAt dialect q r) :
    '/' :: r.path.toList.dropWhile (· = '/') = r.path.toList ∧
      (q.Descends → Url.Descends (r.path.toList.dropWhile (· = '/'))) := by
  have hfixed : ∀ path ∈ ["/api/v1/metadata", "/api/v1/targets/metadata", "/api/v1/labels",
      "/api/v1/series"], '/' :: path.toList.dropWhile (· = '/') = path.toList ∧
        Url.Descends (path.toList.dropWhile (· = '/')) := by decide +kernel
  cases h with
  | labelValues _ label =>
    have hpath : ("/api/v1/label/" ++ label ++ "/values").toList
        = '/' :: ("api/v1/label".toList ++ '/' :: (label.toList ++ '/' :: "values".toList)) := by
      simp only [String.toList_append, List.append_assoc]
      rfl
    rw [hpath]
    refine ⟨rfl, fun hlabel => ?_⟩
    show Url.Descends ("api/v1/label".toList ++ '/' :: (label.toList ++ '/' :: "values".toList))
    rw [descends_append, descends_append]
    exact ⟨by decide +kernel, hlabel, by decide +kernel⟩
  | _ => exact ⟨(hfixed _ (by simp)).1, fun _ => (hfixed _ (by simp)).2⟩

theorem AnsweredAt.parameters (h : AnsweredAt dialect q r) :
    r.parameters = [] ∨ ∃ name value, r.parameters = [(name, value)] := by
  cases h with
  | allMetadata | labelNames | labelValues => exact Or.inl rfl
  | _ => exact Or.inr ⟨_, _, rfl⟩

/-- The URL of a resource is on the server of the base, with the path of the resource. -/
theorem Resource.url_frame (base : Base) (r : Resource) :
    (r.url base).scheme = base.url.scheme ∧ (r.url base).authority = base.url.authority ∧
      (r.url base).path = (base.endpoint r.path).path := by
  obtain ⟨hscheme, hauthority, hpath⟩ := withParameters_frame (base.endpoint r.path) r.parameters
  obtain ⟨hscheme', hauthority'⟩ := withPath_frame base.url
    (String.ofList (Base.joinedPath base.url.path r.path.toList))
  exact ⟨hscheme.trans hscheme', hauthority.trans hauthority', hpath⟩

/-- The query of a resource is its parameter, if it has one. -/
theorem AnsweredAt.url_query (h : AnsweredAt dialect q r) (base : Base) :
    (r.url base).query = r.parameters.head?.map fun x => formQuery [x] := by
  have hnone : (base.endpoint r.path).query = none := rfl
  unfold Resource.url withParameters
  rcases h.parameters with hempty | ⟨name, value, hone⟩
  · simp [hempty, hnone]
  · simp [hone, hnone]

theorem AnsweredAt.url_query_toList (h : AnsweredAt dialect q r) (base : Base) :
    (r.url base).query.map String.toList = r.parameters.head?.map fun x =>
      encodeForm x.1.toList ++ '=' :: encodeForm x.2.toList := by
  rw [h.url_query base]
  cases r.parameters.head? with
  | none => rfl
  | some x => exact congrArg some (formQuery_singleton x.1 x.2).1

/-- A source is asked below its base. -/
theorem Source.addressed_endpointOf {s : Source} {text : String}
    (hparse : Base.parse text = .ok s.base)
    (hscheme : s.base.url.scheme = "http" ∨ s.base.url.scheme = "https") (q : Question) :
    s.Addressed q (q.resource s.dialect) (s.endpointOf q) := by
  have hanswered := answeredAt_resource s.dialect q
  obtain ⟨hslash, hdescends⟩ := hanswered.path
  obtain ⟨hkind, hrigid, hnormal⟩ := Base.parse_isNormal hparse hscheme
  obtain ⟨hsame, hauthority, hpath⟩ := Resource.url_frame s.base (q.resource s.dialect)
  refine ⟨hanswered, hsame, hauthority, fun hq => ?_, fun hp => ?_,
    hanswered.url_query_toList s.base⟩
  · have habove := Base.isAbove_endpoint hkind hrigid hnormal (hdescends hq)
    exact ⟨hsame, hauthority, hpath ▸ habove.path⟩
  · rw [Source.endpointOf, hpath, Base.endpoint_eq hkind hrigid hnormal hp, hslash]

end Requests

/-! ## Answers -/

/-- What the data of an answer say, by the dialect and the question. -/
inductive Decodes (data : Json) : Dialect → Question → Answer → Prop
  | metadata {metric : String} {map : MetadataMap} (h : MetadataMap.read? data = some map) :
      Decodes data .current (.metadata metric) (.metadata (map.entriesOf metric))
  | allMetadata {map : MetadataMap} (h : MetadataMap.read? data = some map) :
      Decodes data .current .allMetadata (.all map)
  | labelNamesOf {metric : String} {names : List String}
      (h : data.list? Json.asString? = some names) :
      Decodes data .current (.labelNames (some metric)) (.names names)
  | targetMetadata {metric : String} {entries : List TargetEntry}
      (h : data.list? TargetEntry.read? = some entries) :
      Decodes data .legacy (.metadata metric)
        (.metadata (distinct (entries.map TargetEntry.metadata)))
  | allTargetMetadata {entries : List TargetEntry}
      (h : data.list? TargetEntry.read? = some entries) :
      Decodes data .legacy .allMetadata (.all (groupByMetric entries))
  | seriesOf {metric : String} {series : List (List String)}
      (h : data.list? seriesLabels? = some series) :
      Decodes data .legacy (.labelNames (some metric)) (.names (namesOf series))
  | labelNames {dialect : Dialect} {names : List String}
      (h : data.list? Json.asString? = some names) :
      Decodes data dialect (.labelNames none) (.names names)
  | labelValues {dialect : Dialect} {label : String} {values : List String}
      (h : data.list? Json.asString? = some values) :
      Decodes data dialect (.labelValues label) (.names values)

section Answers

variable {dialect : Dialect} {q : Question} {outcome : Outcome} {a : Answer}

/-- What is made of the data of an exchange is made of the data that it brings. -/
theorem map_readOutcome_eq_ok_iff {α : Type} {read : Json → Option α} {f : α → Answer}
    (h : ∀ data, Decodes data dialect q a ↔ ∃ x, read data = some x ∧ f x = a) :
    (readOutcome read outcome).map f = .ok a ↔
      ∃ data, Carries outcome data ∧ Decodes data dialect q a := by
  constructor
  · intro hread
    cases hfound : readOutcome read outcome with
    | error e =>
      rw [hfound] at hread
      cases hread
    | ok x =>
      rw [hfound] at hread
      obtain ⟨data, hcarries, hx⟩ := readOutcome_eq_ok_iff.1 hfound
      exact ⟨data, hcarries, (h data).2 ⟨x, hx, Except.ok.inj hread⟩⟩
  · rintro ⟨data, hcarries, hdecodes⟩
    obtain ⟨x, hx, rfl⟩ := (h data).1 hdecodes
    rw [readOutcome_eq_ok_iff.2 ⟨data, hcarries, hx⟩]
    rfl

/-- An answer is read just if the exchange brings data that say so. -/
theorem Question.read_eq_ok_iff :
    q.read dialect outcome = .ok a ↔ ∃ data, Carries outcome data ∧ Decodes data dialect q a := by
  cases q with
  | metadata metric =>
    cases dialect with
    | current =>
      refine map_readOutcome_eq_ok_iff fun data => ⟨fun h => ?_, ?_⟩
      · cases h with
        | metadata h => exact ⟨_, h, rfl⟩
      · rintro ⟨map, h, rfl⟩
        exact .metadata h
    | legacy =>
      refine map_readOutcome_eq_ok_iff fun data => ⟨fun h => ?_, ?_⟩
      · cases h with
        | targetMetadata h => exact ⟨_, h, rfl⟩
      · rintro ⟨entries, h, rfl⟩
        exact .targetMetadata h
  | allMetadata =>
    cases dialect with
    | current =>
      refine map_readOutcome_eq_ok_iff fun data => ⟨fun h => ?_, ?_⟩
      · cases h with
        | allMetadata h => exact ⟨_, h, rfl⟩
      · rintro ⟨map, h, rfl⟩
        exact .allMetadata h
    | legacy =>
      refine map_readOutcome_eq_ok_iff fun data => ⟨fun h => ?_, ?_⟩
      · cases h with
        | allTargetMetadata h => exact ⟨_, h, rfl⟩
      · rintro ⟨entries, h, rfl⟩
        exact .allTargetMetadata h
  | labelNames metric =>
    cases metric with
    | none =>
      have hread : Question.read dialect (.labelNames none) outcome
          = (readOutcome (Json.list? Json.asString?) outcome).map .names := by
        cases dialect <;> rfl
      rw [hread]
      refine map_readOutcome_eq_ok_iff fun data => ⟨fun h => ?_, ?_⟩
      · cases h with
        | labelNames h => exact ⟨_, h, rfl⟩
      · rintro ⟨names, h, rfl⟩
        exact .labelNames h
    | some metric =>
      cases dialect with
      | current =>
        refine map_readOutcome_eq_ok_iff fun data => ⟨fun h => ?_, ?_⟩
        · cases h with
          | labelNamesOf h => exact ⟨_, h, rfl⟩
        · rintro ⟨names, h, rfl⟩
          exact .labelNamesOf h
      | legacy =>
        refine map_readOutcome_eq_ok_iff fun data => ⟨fun h => ?_, ?_⟩
        · cases h with
          | seriesOf h => exact ⟨_, h, rfl⟩
        · rintro ⟨series, h, rfl⟩
          exact .seriesOf h
  | labelValues label =>
    have hread : Question.read dialect (.labelValues label) outcome
        = (readOutcome (Json.list? Json.asString?) outcome).map .names := by
      cases dialect <;> rfl
    rw [hread]
    refine map_readOutcome_eq_ok_iff fun data => ⟨fun h => ?_, ?_⟩
    · cases h with
      | labelValues h => exact ⟨_, h, rfl⟩
    · rintro ⟨values, h, rfl⟩
      exact .labelValues h

end Answers

end PromqlServer.Prometheus
