import PromqlServer.Query.Completion

/-!
The names that `completion_context` can give, whatever the text is: a label is a label name, and a
metric is a metric name. Nothing else of the text gets into a query to the data source.
-/

namespace PromqlServer.Query

open PromqlServer.Text

/-- A letter or an underscore, then letters, digits and underscores. -/
def isLabelName (name : List Char) : Bool :=
  (name.head?.any isLabelStart) && name.all isLabelChar

/-- The same with colons. -/
def isMetricName (name : List Char) : Bool :=
  (name.head?.any isMetricStart) && name.all isMetricChar

/-- The names in a context are names. -/
def CompletionContext.isNamed : CompletionContext → Bool
  | .metricName _ => true
  | .labelName metric _ => metric.all fun m => isMetricName m.toList
  | .labelValue label _ => isLabelName label.toList

section Suffixes

variable {start inner : Char → Bool}

/-- The longest suffix of inner characters, from the first that may start a name. -/
theorem suffix_isName (cs : List Char) :
    let name := (longestSuffix inner cs).dropWhile fun c => !start c
    name = [] ∨ (name.head?.any start && name.all inner) = true := by
  intro name
  have hall : ∀ c ∈ name, inner c = true := by
    intro c hc
    have hsuffix : c ∈ longestSuffix inner cs := (List.dropWhile_suffix _).subset hc
    rw [longestSuffix, List.mem_reverse] at hsuffix
    exact List.all_eq_true.1 List.all_takeWhile c hsuffix
  cases hname : name with
  | nil => exact Or.inl rfl
  | cons c rest =>
    right
    have hstart : start c = true := by
      have hhead := List.head?_dropWhile_not (fun c => !start c) (longestSuffix inner cs)
      have hc : ((longestSuffix inner cs).dropWhile fun c => !start c).head? = some c := by
        show name.head? = some c
        rw [hname]
        rfl
      rw [hc] at hhead
      simpa using hhead
    rw [hname] at hall
    simp only [List.head?_cons, Option.any_some, Bool.and_eq_true]
    exact ⟨hstart, List.all_eq_true.2 hall⟩

end Suffixes

theorem labelSuffix_isName (cs : List Char) :
    labelSuffix cs = [] ∨ isLabelName (labelSuffix cs) = true := suffix_isName cs

theorem metricSuffix_isName (cs : List Char) :
    metricSuffix cs = [] ∨ isMetricName (metricSuffix cs) = true := suffix_isName cs

theorem labelValue_isName {inside label typed : List Char}
    (h : labelValue inside = some (label, typed)) : isLabelName label = true := by
  unfold labelValue at h
  simp only at h
  split at h
  · cases h
  · obtain ⟨before, -, h⟩ := Option.bind_eq_some_iff.1 h
    split at h
    · cases h
    · rename_i label' hne
      cases h
      exact (labelSuffix_isName _).resolve_left hne

theorem contextAfter_isNamed {before : List Char} {context : CompletionContext}
    (h : contextAfter before = some context) : context.isNamed = true := by
  unfold contextAfter at h
  split at h
  · cases h
    rfl
  · obtain ⟨inside, -, h⟩ := Option.bind_eq_some_iff.1 h
    split at h
    · rename_i label typed hvalue
      cases h
      rw [CompletionContext.isNamed, String.toList_ofList]
      exact labelValue_isName hvalue
    · split at h
      · cases h
      · obtain ⟨selected, -, h⟩ := Option.bind_eq_some_iff.1 h
        cases h
        rw [CompletionContext.isNamed, nonempty]
        rcases metricSuffix_isName (dropSuffix isBlank selected) with hnone | hname
        · simp [hnone]
        · split
          · rfl
          · rw [Option.all_some, String.toList_ofList]
            exact hname

/-- Whatever the text and the position are, the names in the context are names. -/
theorem completionContext_isNamed {content : List Char} {p : Position} {context : CompletionContext}
    (h : completionContext content p = some context) : context.isNamed = true := by
  obtain ⟨offset, -, h⟩ := Option.bind_eq_some_iff.1 h
  obtain ⟨before, -, h⟩ := Option.bind_eq_some_iff.1 h
  exact contextAfter_isNamed h

end PromqlServer.Query
