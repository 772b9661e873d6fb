import Mathlib.Data.List.Induction
import PromqlServer.Proofs.Prometheus.Envelopes

/-!
`all_metadata` and `metadata` of the legacy dialect, which tells metadata by target. Every target
that has a metric tells of it again; what is kept of this are first appearances
(`FirstAppearances`). Grouping by metric and asking for one metric keep the same ones, so that a map
that any number of targets repeat comes back as it was.
-/

namespace PromqlServer.Prometheus

/-! ## First appearances -/

/-- Each of the items once, in the order in which they first appear. -/
structure FirstAppearances {α : Type} [DecidableEq α] (items result : List α) : Prop where
  mem : ∀ a, a ∈ result ↔ a ∈ items
  ordered : result.Pairwise fun a b => items.idxOf a < items.idxOf b

section Distinct

variable {α : Type} [DecidableEq α] {items more result result' : List α} {a : α}

theorem FirstAppearances.nodup (h : FirstAppearances items result) : result.Nodup :=
  h.ordered.imp fun hlt heq => by
    rw [heq] at hlt
    exact Nat.lt_irrefl _ hlt

/-- There is one such list. -/
theorem FirstAppearances.unique (h : FirstAppearances items result)
    (h' : FirstAppearances items result') : result = result' := by
  have hperm : result.Perm result' :=
    (List.perm_ext_iff_of_nodup h.nodup h'.nodup).2 fun a => (h.mem a).trans (h'.mem a).symm
  refine hperm.eq_of_pairwise ?_ h.ordered h'.ordered
  intro a b _ _ hlt hlt'
  omega

/-- What has appeared keeps its place when more items follow. -/
theorem ordered_append (hmem : ∀ a ∈ result, a ∈ items)
    (h : result.Pairwise fun a b => items.idxOf a < items.idxOf b) (more : List α) :
    result.Pairwise fun a b => (items ++ more).idxOf a < (items ++ more).idxOf b := by
  refine h.imp_of_mem fun {a b} ha hb hlt => ?_
  rwa [List.idxOf_append, List.idxOf_append, if_pos (hmem a ha), if_pos (hmem b hb)]

theorem distinct_concat : distinct (items ++ [a])
    = if a ∈ distinct items then distinct items else distinct items ++ [a] := by
  rw [distinct, List.foldl_append]
  rfl

@[simp] theorem mem_distinct : a ∈ distinct items ↔ a ∈ items := by
  induction items using List.reverseRecOn with
  | nil => rfl
  | append_singleton items b ih =>
    rw [distinct_concat]
    split
    · rename_i hb
      rw [ih, List.mem_append, List.mem_singleton]
      constructor
      · exact Or.inl
      · rintro (ha | rfl)
        · exact ha
        · exact ih.1 hb
    · rw [List.mem_append, List.mem_append, ih]

theorem firstAppearances_distinct (items : List α) : FirstAppearances items (distinct items) := by
  refine ⟨fun a => mem_distinct, ?_⟩
  induction items using List.reverseRecOn with
  | nil => exact List.Pairwise.nil
  | append_singleton items a ih =>
    have hkept := ordered_append (fun b hb => mem_distinct.1 hb) ih [a]
    rw [distinct_concat]
    split
    · exact hkept
    · rename_i hnew
      refine List.pairwise_append.2 ⟨hkept, List.pairwise_singleton _ _, fun b hb c hc => ?_⟩
      have hb : b ∈ items := mem_distinct.1 hb
      have ha : a ∉ items := fun ha => hnew (mem_distinct.2 ha)
      rw [List.mem_singleton.1 hc, List.idxOf_append, List.idxOf_append, if_pos hb, if_neg ha]
      have hlt := List.idxOf_lt_length_of_mem hb
      omega

theorem distinct_of_nodup (h : items.Nodup) : distinct items = items := by
  induction items using List.reverseRecOn with
  | nil => rfl
  | append_singleton items a ih =>
    have ha : a ∉ items := by
      intro hmem
      exact (List.nodup_append.1 h).2.2 a hmem a (List.mem_singleton_self a) rfl
    rw [distinct_concat, if_neg (by simpa using ha), ih (List.nodup_append.1 h).1]

/-- What has appeared before adds nothing. -/
theorem distinct_append_of_subset (h : ∀ a ∈ more, a ∈ items) :
    distinct (items ++ more) = distinct items := by
  refine (firstAppearances_distinct (items ++ more)).unique ⟨fun a => ?_, ?_⟩
  · rw [mem_distinct, List.mem_append]
    exact ⟨Or.inl, fun hmem => hmem.elim id (h a)⟩
  · have hfirst := firstAppearances_distinct items
    exact ordered_append (fun a ha => (hfirst.mem a).1 ha) hfirst.ordered more

theorem distinct_replicate (n : Nat) (items : List α) :
    distinct (List.replicate (n + 1) items).flatten = distinct items := by
  rw [List.replicate_succ, List.flatten_cons]
  refine distinct_append_of_subset fun a ha => ?_
  obtain ⟨copy, hcopy, ha⟩ := List.mem_flatten.1 ha
  rwa [List.eq_of_mem_replicate hcopy] at ha

end Distinct

/-! ## Maps of metadata -/

namespace MetadataMap

/-- The metrics, in their order. -/
def names (m : MetadataMap) : List String := m.map Prod.fst

section Maps

variable {m m' : MetadataMap} {e : TargetEntry} {name : String} {list : List Metadata}

theorem entriesOf_cons (entry : String × List Metadata) : entriesOf (entry :: m) name
    = if entry.1 = name then entry.2 else m.entriesOf name := by
  by_cases h : entry.1 = name <;> simp [entriesOf, h]

theorem entriesOf_of_mem (hnames : m.names.Nodup) (h : (name, list) ∈ m) :
    m.entriesOf name = list := by
  induction m with
  | nil => cases h
  | cons entry m ih =>
    obtain ⟨hnew, hnames⟩ := List.nodup_cons.1 hnames
    rw [entriesOf_cons]
    rcases List.mem_cons.1 h with rfl | h
    · exact if_pos rfl
    · have hne : entry.1 ≠ name := by
        intro heq
        rw [heq] at hnew
        exact hnew (List.mem_map.2 ⟨_, h, rfl⟩)
      rw [if_neg hne]
      exact ih hnames h

/-- Maps with the same metrics in the same order and the same lists are the same. -/
theorem ext_entriesOf (hnodup : m.names.Nodup) (hnames : m.names = m'.names)
    (hlists : ∀ metric, m.entriesOf metric = m'.entriesOf metric) : m = m' := by
  have hown : ∀ k : MetadataMap, k.names.Nodup → k = k.names.map fun x => (x, k.entriesOf x) := by
    intro k hk
    rw [names, List.map_map]
    refine (List.map_id k).symm.trans (List.map_congr_left fun entry hentry => ?_)
    show entry = (entry.1, k.entriesOf entry.1)
    rw [entriesOf_of_mem hk hentry]
  rw [hown m hnodup, hown m' (hnames ▸ hnodup), hnames]
  exact List.map_congr_left fun x _ => by rw [hlists x]

/-! ### One more entry -/

theorem any_iff : (m.any fun old => old.1 = name) = true ↔ name ∈ m.names := by
  simp [names]

/-- Entries that keep their metrics make a map of the same metrics. -/
theorem names_map {f : String × List Metadata → String × List Metadata}
    (hf : ∀ old, (f old).1 = old.1) : MetadataMap.names (m.map f) = m.names := by
  rw [names, List.map_map]
  exact List.map_congr_left fun old _ => hf old

theorem names_insert : (m.insert e).names
    = if e.metric ∈ m.names then m.names else m.names ++ [e.metric] := by
  unfold insert
  by_cases h : e.metric ∈ m.names
  · rw [if_pos (any_iff.2 h), if_pos h]
    refine names_map fun old => ?_
    split <;> rfl
  · rw [if_neg (fun hany => h (any_iff.1 hany)), if_neg h]
    simp [names]

theorem find?_eq_none (h : name ∉ m.names) : (m.find? fun entry => entry.1 = name) = none := by
  refine List.find?_eq_none.2 fun entry hentry heq => h ?_
  exact List.mem_map.2 ⟨entry, hentry, of_decide_eq_true heq⟩

theorem entriesOf_insert : (m.insert e).entriesOf name
    = if name = e.metric then
        if e.metadata ∈ m.entriesOf name then m.entriesOf name
        else m.entriesOf name ++ [e.metadata]
      else m.entriesOf name := by
  unfold insert
  by_cases h : e.metric ∈ m.names
  · rw [if_pos (any_iff.2 h), entriesOf, List.find?_map, entriesOf]
    have hkept : ((fun entry : String × List Metadata => decide (entry.1 = name)) ∘ fun old =>
        if old.1 = e.metric then
          (old.1, if e.metadata ∈ old.2 then old.2 else old.2 ++ [e.metadata])
        else old) = fun entry => decide (entry.1 = name) := by
      funext old
      simp only [Function.comp]
      split <;> rfl
    rw [hkept]
    cases hfind : m.find? fun entry => entry.1 = name with
    | none =>
      have hne : name ≠ e.metric := by
        rintro rfl
        obtain ⟨entry, hentry, heq⟩ := List.mem_map.1 h
        exact List.find?_eq_none.1 hfind entry hentry (decide_eq_true heq)
      simp [hne]
    | some entry =>
      have hname : entry.1 = name := by simpa using List.find?_some hfind
      subst hname
      by_cases hmetric : entry.1 = e.metric <;> simp [hmetric]
  · rw [if_neg (fun hany => h (any_iff.1 hany)), entriesOf, List.find?_append]
    by_cases hname : name = e.metric
    · subst hname
      simp [entriesOf, find?_eq_none h]
    · have hother : e.metric ≠ name := Ne.symm hname
      simp [entriesOf, hname, hother]

end Maps

end MetadataMap

/-! ## Grouping -/

/-- What the entries say about one metric. -/
def metadataFor (entries : List TargetEntry) (metric : String) : List Metadata :=
  (entries.filter fun e => e.metric = metric).map TargetEntry.metadata

section Grouping

variable {entries more : List TargetEntry} {e : TargetEntry} {metric : String}

theorem metadataFor_append : metadataFor (entries ++ more) metric
    = metadataFor entries metric ++ metadataFor more metric := by
  rw [metadataFor, List.filter_append, List.map_append, metadataFor, metadataFor]

/-- A target that tells of one metric only. -/
theorem metadataFor_single (name : String) (list : List Metadata) :
    metadataFor (list.map fun metadata => ⟨name, metadata⟩) metric
      = if name = metric then list else [] := by
  by_cases h : name = metric <;> simp [metadataFor, List.filter_map, Function.comp_def, h]

theorem metadataFor_replicate (n : Nat) : metadataFor (List.replicate n entries).flatten metric
    = (List.replicate n (metadataFor entries metric)).flatten := by
  simp [metadataFor, List.filter_flatten, List.map_flatten]

theorem groupByMetric_concat :
    groupByMetric (entries ++ [e]) = (groupByMetric entries).insert e := by
  rw [groupByMetric, List.foldl_append]
  rfl

theorem names_groupByMetric :
    (groupByMetric entries).names = distinct (entries.map TargetEntry.metric) := by
  induction entries using List.reverseRecOn with
  | nil => rfl
  | append_singleton entries e ih =>
    rw [groupByMetric_concat, MetadataMap.names_insert, ih, List.map_append, List.map_singleton,
      distinct_concat]

theorem entriesOf_groupByMetric :
    (groupByMetric entries).entriesOf metric = distinct (metadataFor entries metric) := by
  induction entries using List.reverseRecOn with
  | nil => rfl
  | append_singleton entries e ih =>
    have hlast : metadataFor [e] metric = if e.metric = metric then [e.metadata] else [] :=
      metadataFor_single e.metric [e.metadata]
    rw [groupByMetric_concat, MetadataMap.entriesOf_insert, ih, metadataFor_append, hlast]
    by_cases h : e.metric = metric
    · rw [if_pos h.symm, if_pos h, distinct_concat]
    · rw [if_neg (Ne.symm h), if_neg h, List.append_nil]

end Grouping

/-! ## Maps told by targets -/

/-- What a target tells that has all metrics of the map. -/
def MetadataMap.toEntries (m : MetadataMap) : List TargetEntry :=
  m.flatMap fun entry => entry.2.map fun metadata => ⟨entry.1, metadata⟩

/-- Each metric once, with at least one description and none of them twice. -/
structure MetadataMap.Concise (m : MetadataMap) : Prop where
  names : m.names.Nodup
  described : ∀ entry ∈ m, entry.2 ≠ []
  lists : ∀ entry ∈ m, entry.2.Nodup

section Targets

variable {m : MetadataMap} {metric : String}

theorem MetadataMap.toEntries_cons (entry : String × List Metadata) :
    toEntries (entry :: m)
      = (entry.2.map fun metadata => ⟨entry.1, metadata⟩) ++ m.toEntries := List.flatMap_cons

theorem metadataFor_toEntries (h : m.names.Nodup) :
    metadataFor m.toEntries metric = m.entriesOf metric := by
  induction m with
  | nil => rfl
  | cons entry m ih =>
    obtain ⟨hnew, hnames⟩ := List.nodup_cons.1 h
    rw [MetadataMap.toEntries_cons, metadataFor_append, metadataFor_single, ih hnames,
      MetadataMap.entriesOf_cons]
    split
    · rename_i heq
      rw [← heq, MetadataMap.entriesOf, MetadataMap.find?_eq_none hnew]
      exact List.append_nil _
    · rfl

/-- The metrics appear in the order of the map. -/
theorem distinct_toEntries (hnames : m.names.Nodup) (h : ∀ entry ∈ m, entry.2 ≠ []) :
    distinct (m.toEntries.map TargetEntry.metric) = m.names := by
  induction m using List.reverseRecOn with
  | nil => rfl
  | append_singleton m entry ih =>
    have hconcat : MetadataMap.names (m ++ [entry]) = MetadataMap.names m ++ [entry.1] :=
      List.map_append
    rw [hconcat] at hnames ⊢
    obtain ⟨hnodup, -, hapart⟩ := List.nodup_append.1 hnames
    have hrest := ih hnodup fun old hold => h old (List.mem_append_left _ hold)
    obtain ⟨metadata, list, hlist⟩ := List.exists_cons_of_ne_nil (h entry (by simp))
    have hentries : (MetadataMap.toEntries (m ++ [entry])).map TargetEntry.metric
        = (MetadataMap.toEntries m).map TargetEntry.metric ++ [entry.1]
          ++ list.map fun _ => entry.1 := by
      simp [MetadataMap.toEntries, hlist, Function.comp_def]
    have hnew : entry.1 ∉ MetadataMap.names m :=
      fun hmem => hapart _ hmem _ (List.mem_singleton_self _) rfl
    rw [hentries, distinct_append_of_subset (by simp), distinct_concat, hrest, if_neg hnew]

theorem MetadataMap.Concise.nodup_entriesOf (h : m.Concise) : (m.entriesOf metric).Nodup := by
  rw [MetadataMap.entriesOf]
  cases hfind : m.find? fun entry => entry.1 = metric with
  | none => exact List.nodup_nil
  | some entry => exact h.lists entry (List.mem_of_find?_eq_some hfind)

/-- However many targets tell of the metrics, the map is the same. -/
theorem groupByMetric_replicate (h : m.Concise) (n : Nat) :
    groupByMetric (List.replicate (n + 1) m.toEntries).flatten = m := by
  have hnames : (groupByMetric (List.replicate (n + 1) m.toEntries).flatten).names = m.names := by
    rw [names_groupByMetric, List.map_flatten, List.map_replicate, distinct_replicate,
      distinct_toEntries h.names h.described]
  refine MetadataMap.ext_entriesOf (hnames ▸ h.names) hnames fun metric => ?_
  rw [entriesOf_groupByMetric, metadataFor_replicate, distinct_replicate,
    metadataFor_toEntries h.names, distinct_of_nodup h.nodup_entriesOf]

end Targets

/-! ## Both dialects -/

/-- A repeated name takes the place of the one before. -/
theorem MetadataMap.nodup_names_overwrite {m : MetadataMap} (entry : String × List Metadata)
    (h : m.names.Nodup) : (MetadataMap.names (if m.any fun old => old.1 = entry.1 then
      m.map fun old => if old.1 = entry.1 then entry else old else m ++ [entry])).Nodup := by
  by_cases hmem : entry.1 ∈ m.names
  · rw [if_pos (any_iff.2 hmem), names_map]
    · exact h
    · intro old
      split
      · rename_i heq
        exact heq.symm
      · rfl
  · rw [if_neg fun hany => hmem (any_iff.1 hany), names, List.map_append, List.map_singleton,
      ← List.concat_eq_append]
    exact h.concat hmem

/-- A map that was read has no metric twice. -/
theorem MetadataMap.nodup_names_of_read {j : Json} {m : MetadataMap}
    (h : MetadataMap.read? j = some m) : m.names.Nodup := by
  unfold MetadataMap.read? at h
  split at h
  · obtain ⟨entries, -, hm⟩ := Option.bind_eq_some_iff.1 h
    clear h
    cases hm
    induction entries using List.reverseRecOn with
    | nil => exact List.nodup_nil
    | append_singleton entries entry ih =>
      rw [List.foldl_append]
      exact nodup_names_overwrite entry ih
  · cases h

theorem nodup_names_of_readOutcome {outcome : Outcome} {m : MetadataMap}
    (h : Question.read .current .allMetadata outcome = .ok (.all m)) : m.names.Nodup := by
  rw [Question.read] at h
  cases hread : readOutcome MetadataMap.read? outcome with
  | error e =>
    rw [hread] at h
    cases h
  | ok found =>
    rw [hread] at h
    cases h
    obtain ⟨j, -, hj⟩ := readOutcome_eq_ok_iff.1 hread
    exact MetadataMap.nodup_names_of_read hj

/-- With a legacy backend the map of all metrics and the answer for one metric agree: the metrics
are those of the entries, in the order of their first appearance, and so are the descriptions of
each metric. A map that targets tell, each of them the whole, is read as the map itself, as it is
from a backend of the current dialect. -/
theorem targets_do_not_show {outcome : Outcome} {entries : List TargetEntry}
    (h : readOutcome (Json.list? TargetEntry.read?) outcome = .ok entries) :
    ∃ map, Question.read .legacy .allMetadata outcome = .ok (.all map) ∧
      FirstAppearances (entries.map TargetEntry.metric) map.names ∧
      (∀ metric, FirstAppearances (metadataFor entries metric) (map.entriesOf metric)) ∧
      (∀ metric outcome' entries',
        readOutcome (Json.list? TargetEntry.read?) outcome' = .ok entries' →
        entries'.map TargetEntry.metadata = metadataFor entries metric →
          Question.read .legacy (.metadata metric) outcome'
            = .ok (.metadata (map.entriesOf metric))) ∧
      (∀ known : MetadataMap, known.Concise → ∀ targets,
        entries = (List.replicate targets known.toEntries).flatten →
          map = if targets = 0 then [] else known) ∧
      ∀ current known, Question.read .current .allMetadata current = .ok (.all known) →
        (∀ entry ∈ known, entry.2 ≠ []) → (∀ entry ∈ known, entry.2.Nodup) → ∀ targets,
          entries = (List.replicate (targets + 1) known.toEntries).flatten →
            Question.read .legacy .allMetadata outcome
              = Question.read .current .allMetadata current := by
  have hall : Question.read .legacy .allMetadata outcome
      = .ok (.all (groupByMetric entries)) := by
    rw [Question.read, h]
    rfl
  refine ⟨groupByMetric entries, hall, ?_, fun metric => ?_, ?_, ?_, ?_⟩
  · rw [names_groupByMetric]
    exact firstAppearances_distinct _
  · rw [entriesOf_groupByMetric]
    exact firstAppearances_distinct _
  · intro metric outcome' entries' hread hsame
    rw [entriesOf_groupByMetric, Question.read, hread, ← hsame]
    rfl
  · intro known hknown targets hentries
    rw [hentries]
    cases targets with
    | zero => rfl
    | succ n => exact groupByMetric_replicate hknown n
  · intro current known hread hdescribed hlists n hentries
    have hknown : known.Concise := ⟨nodup_names_of_readOutcome hread, hdescribed, hlists⟩
    rw [hall, hread, hentries, groupByMetric_replicate hknown]

/-- Two targets, each with two metrics. -/
theorem targets_do_not_show_pair :
    Question.read .legacy .allMetadata (.ok ⟨200, .ok ("\x7b\"status\":\"success\",\"data\":[" ++
        "\x7b\"metric\":\"up\",\"type\":\"gauge\"\x7d," ++
        "\x7b\"metric\":\"io\",\"type\":\"sum\"\x7d," ++
        "\x7b\"metric\":\"up\",\"type\":\"gauge\"\x7d," ++
        "\x7b\"metric\":\"io\",\"type\":\"sum\"\x7d]\x7d"), ""⟩)
      = .ok (.all [("up", [⟨"gauge", "", ""⟩]), ("io", [⟨"sum", "", ""⟩])]) := by
  have hconcise : MetadataMap.Concise
      [("up", [⟨"gauge", "", ""⟩]), ("io", [⟨"sum", "", ""⟩])] := ⟨by decide, by decide, by decide⟩
  have hentries : readOutcome (Json.list? TargetEntry.read?)
      (.ok ⟨200, .ok ("\x7b\"status\":\"success\",\"data\":[" ++
        "\x7b\"metric\":\"up\",\"type\":\"gauge\"\x7d," ++
        "\x7b\"metric\":\"io\",\"type\":\"sum\"\x7d," ++
        "\x7b\"metric\":\"up\",\"type\":\"gauge\"\x7d," ++
        "\x7b\"metric\":\"io\",\"type\":\"sum\"\x7d]\x7d"), ""⟩)
      = .ok (List.replicate 2 (MetadataMap.toEntries
        [("up", [⟨"gauge", "", ""⟩]), ("io", [⟨"sum", "", ""⟩])])).flatten := by
    decide +kernel
  obtain ⟨map, hall, -, -, -, hsame, -⟩ := targets_do_not_show hentries
  rw [hall, hsame _ hconcise 2 rfl]
  rfl

end PromqlServer.Prometheus
