import Mathlib.Data.List.Infix
import PromqlServer.Proofs.Query.Braces
import PromqlServer.Proofs.Query.Matchers

/-!
Strings inside of a selector. `open_brace` knows three quotes and their escapes, while
`open_brace_quote` counts double quotes. Where every double quote delimits a string, their number
says whether the cursor is in one (`quoteOpen_iff`). An escaped quote makes the two differ.
-/

namespace PromqlServer.Query

open PromqlServer.Text

/-! ## The number of double quotes -/

/-- Every double quote opens or closes a string in double quotes. -/
def QuotesDelimit (text : List Char) : Prop :=
  ∀ front, front ++ ['"'] <+: text →
    (searched front).quote = none ∨
      (searched front).quote = some '"' ∧ (searched front).escaped = false

instance (text : List Char) : Decidable (QuotesDelimit text) :=
  decidable_of_iff (∀ front ∈ text.inits, front ++ ['"'] <+: text →
      (searched front).quote = none ∨
        (searched front).quote = some '"' ∧ (searched front).escaped = false)
    ⟨fun h front hfront =>
      h front ((List.mem_inits _ _).2 ((List.prefix_append _ _).trans hfront)) hfront,
      fun h front _ => h front⟩

section Counting

variable {text : List Char} {s : BraceScan} {offset : Nat} {c : Char}

/-- Other characters open and close no string in double quotes. -/
theorem BraceScan.step_quote_iff (hc : c ≠ '"') :
    (s.step offset c).quote = some '"' ↔ s.quote = some '"' := by
  have hpassed := s.passed offset c
  generalize s.step offset c = s' at hpassed
  cases hpassed with
  | escaped | escapes | within | opens | shuts | passes => rfl
  | closes hq _ hclose => simp [hq, ← hclose, hc]
  | quotes hq => simp [hq, hc]

theorem BraceScan.step_double (h : s.quote = none ∨ s.quote = some '"' ∧ s.escaped = false) :
    (s.step offset '"').quote = some '"' ↔ s.quote ≠ some '"' := by
  rcases h with hq | ⟨hq, hescaped⟩
  · simp [BraceScan.step, hq, isQuote]
  · simp [BraceScan.step, hq, hescaped]

/-- The number of double quotes is odd exactly if the text ends in a string in double quotes. -/
theorem quoteOpen_iff (h : QuotesDelimit text) :
    quoteOpen text = true ↔ (searched text).quote = some '"' := by
  induction text using List.reverseRecOn with
  | nil => decide
  | append_singleton text c ih =>
    have ih := ih fun front hfront => h front (hfront.trans (List.prefix_append _ _))
    rw [quoteOpen, beq_iff_eq] at ih ⊢
    rw [searched_concat, List.count_append]
    by_cases hc : c = '"'
    · subst hc
      rw [BraceScan.step_double (h text (List.prefix_refl _)), Ne, ← ih, List.count_singleton_self]
      omega
    · have hother : List.count '"' [c] = 0 :=
        List.count_eq_zero_of_not_mem (by simpa using Ne.symm hc)
      rw [BraceScan.step_quote_iff hc, ← ih, hother, Nat.add_zero]

end Counting

/-! ## The last closed value -/

/-- What stands between the last two double quotes. -/
def LastValue (inside value : List Char) : Prop :=
  ∃ front rest, inside = front ++ '"' :: (value ++ '"' :: rest) ∧ '"' ∉ value ∧ '"' ∉ rest

section Values

variable {inside : List Char}

/-- If the double quotes come in pairs, a value is being typed only if the last one that is closed
ends like a matcher. -/
theorem labelValue_eq_none_iff (h : quoteOpen inside = false) :
    labelValue inside = none ↔
      ¬ ∃ value label, LastValue inside value ∧ EndsInMatcher value label := by
  rw [← Option.not_isSome_iff_eq_none, not_iff_not, Option.isSome_iff_exists]
  constructor
  · rintro ⟨⟨label, typed⟩, hvalue⟩
    obtain ⟨text, rfl, htyped, hmatcher⟩ := labelValue_eq_some_iff.1 hvalue
    have hmem : '"' ∈ text := by
      by_contra hnot
      have hnone : text.count '"' = 0 := List.count_eq_zero_of_not_mem hnot
      have hnone' : typed.count '"' = 0 := List.count_eq_zero_of_not_mem htyped
      simp [quoteOpen, hnone, hnone'] at h
    obtain ⟨front, value, rfl, hlast⟩ := exists_last_cut hmem
    refine ⟨value, label, ⟨front, typed, by simp, hlast, htyped⟩, ?_⟩
    exact (endsInMatcher_cut front (by decide) (by decide) (by decide)).1 hmatcher
  · rintro ⟨value, label, ⟨front, rest, rfl, -, hrest⟩, hmatcher⟩
    refine ⟨(label, rest), labelValue_eq_some_iff.2 ⟨front ++ '"' :: value, by simp, hrest, ?_⟩⟩
    exact (endsInMatcher_cut front (by decide) (by decide) (by decide)).2 hmatcher

end Values

/-! ## The context -/

/-- Where every double quote behind the open brace delimits a string, no label names are proposed in
strings in double quotes; outside of strings label names are proposed, unless the last value in
front of the cursor ends like a matcher itself. -/
theorem strings_told_apart {content : String} {p : Position}
    {before after selected inside : List Char}
    (hcontent : content.toList = before ++ after)
    (hoffset : offsetAt content.toList p = some (byteSize before))
    (hbefore : before = selected ++ '{' :: inside)
    (hbrace : openBrace before = some (byteSize selected)) (hquotes : QuotesDelimit inside) :
    ((searched before).quote = some '"' →
      completionContext content.toList p = none ∨
        ∃ label typed, completionContext content.toList p = some (.labelValue label typed)) ∧
    ((searched before).quote = none →
      ((∃ metric typed, completionContext content.toList p = some (.labelName metric typed)) ↔
        ¬ ∃ value label, LastValue inside value ∧ EndsInMatcher value label)) := by
  subst hbefore
  rw [completionContext_eq hcontent hoffset, contextAfter_inside hbrace, quote_inside hbrace]
  constructor
  · intro hquote
    rw [if_pos ((quoteOpen_iff hquotes).2 hquote)]
    cases labelValue inside with
    | none => exact Or.inl rfl
    | some found => exact Or.inr ⟨_, _, rfl⟩
  · intro hquote
    have hopen : quoteOpen inside = false := by
      rw [← Bool.not_eq_true, quoteOpen_iff hquotes, hquote]
      simp
    rw [← labelValue_eq_none_iff hopen, hopen]
    cases labelValue inside with
    | none => simp
    | some found => simp

/-- Outside of strings, behind a string in other quotes and a closed value. -/
theorem strings_told_apart_closed :
    ∃ metric typed, completionContext "up\x7ba='b', job=\"c\", ins".toList ⟨0, 22⟩
      = some (.labelName metric typed) := by
  have hcontent : "up\x7ba='b', job=\"c\", ins".toList
      = "up\x7ba='b', job=\"c\", ins".toList ++ [] := by decide
  have hbefore : "up\x7ba='b', job=\"c\", ins".toList
      = "up".toList ++ '{' :: "a='b', job=\"c\", ins".toList := by decide
  have hnone : labelValue "a='b', job=\"c\", ins".toList = none := by decide
  have hvalue := (labelValue_eq_none_iff (by decide)).1 hnone
  exact ((strings_told_apart hcontent (by decide) hbefore (by decide) (by decide)).2 (by decide)).2
    hvalue

/-- An escaped double quote is counted: the text ends outside of strings, and no label names are
proposed. -/
theorem escaped_quote_counted :
    offsetAt "up\x7bjob=\"a\\\"b\", ins".toList ⟨0, 18⟩ = some 18 ∧
      openBrace "up\x7bjob=\"a\\\"b\", ins".toList = some 2 ∧
      (searched "up\x7bjob=\"a\\\"b\", ins".toList).quote = none ∧
      completionContext "up\x7bjob=\"a\\\"b\", ins".toList ⟨0, 18⟩ = none := by
  decide

end PromqlServer.Query
