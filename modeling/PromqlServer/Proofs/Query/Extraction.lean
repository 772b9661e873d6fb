import PromqlServer.Proofs.Query.Braces
import PromqlServer.Proofs.Query.Matchers
import PromqlServer.Proofs.Text.Patterns

/-!
The token that `completion_context` takes at the cursor. It is what the leftmost searches for its
four patterns find, names are the longest suffixes of their form, and a value is what follows the
last double quote if a matcher stands in front of it (`completion_extracts_token`).
-/

namespace PromqlServer.Query

open PromqlServer.Text

/-! ## The patterns -/

def nameForm (start inner : Char → Bool) : Pattern := .seq (.one start) (.many inner)

def labelForm : Pattern := nameForm isLabelStart isLabelChar

def metricForm : Pattern := nameForm isMetricStart isMetricChar

def labelAtEnd : Pattern := .seq (.keep labelForm) .stop

def metricAtEnd : Pattern := .seq (.keep metricForm) .stop

/-- A metric name with white space behind it. -/
def spacedForm : Pattern := .seq (.keep metricForm) (.many isBlank)

def metricBeforeBrace : Pattern := .seq spacedForm .stop

def operatorForm : Pattern :=
  .alt (.seq (.one (· == '=')) (.one (· == '~')))
    (.alt (.seq (.one (· == '!')) (.one (· == '~')))
      (.alt (.seq (.one (· == '!')) (.one (· == '='))) (.one (· == '='))))

/-- A label name, an operator and a double quote, with white space between them, and the value. -/
def valueForm : Pattern :=
  .seq (.keep labelForm) (.seq (.many isBlank) (.seq operatorForm (.seq (.many isBlank)
    (.seq (.one (· == '"')) (.keep (.many (· != '"')))))))

def valueAtEnd : Pattern := .seq valueForm .stop

section Forms

variable {start inner : Char → Bool} {text rest : List Char} {kept : List (List Char)}

theorem nameForm_takes (hstart : ∀ c, start c = true → inner c = true) :
    (nameForm start inner).Takes text kept rest ↔
      kept = [] ∧ (text.head?.any start && text.all inner) = true := by
  constructor
  · rintro ⟨_, rest, _, _, rfl, rfl, ⟨rfl, c, hc, rfl⟩, rfl, hrest⟩
    simpa [hc, hstart c hc] using hrest
  · rintro ⟨rfl, hname⟩
    cases text with
    | nil => cases hname
    | cons c text =>
      simp only [List.head?_cons, Option.any_some, List.all_cons, Bool.and_eq_true,
        List.all_eq_true] at hname
      exact ⟨[c], text, [], [], rfl, rfl, ⟨rfl, c, hname.1, rfl⟩, rfl, hname.2.2⟩

theorem labelForm_takes :
    labelForm.Takes text kept rest ↔ kept = [] ∧ isLabelName text = true := by
  apply nameForm_takes
  intro c hc
  simp only [isLabelStart, Bool.or_eq_true] at hc
  simp only [isLabelChar, Char.isAlphanum, Bool.or_eq_true]
  exact hc.imp_left Or.inl

theorem metricForm_takes :
    metricForm.Takes text kept rest ↔ kept = [] ∧ isMetricName text = true := by
  apply nameForm_takes
  intro c hc
  simp only [isMetricStart, isLabelStart, Bool.or_eq_true] at hc
  simp only [isMetricChar, isLabelChar, Char.isAlphanum, Bool.or_eq_true]
  exact hc.imp_left fun h => h.imp_left Or.inl

theorem operatorForm_takes :
    operatorForm.Takes text kept rest ↔ kept = [] ∧ text ∈ operators := by
  have hone : ∀ (d : Char) (text : List Char) (kept : List (List Char)) (rest : List Char),
      (Pattern.one (· == d)).Takes text kept rest ↔ kept = [] ∧ text = [d] := by
    intro d text kept rest
    simp [Pattern.Takes]
  have htwo : ∀ (d e : Char), (Pattern.seq (.one (· == d)) (.one (· == e))).Takes text kept rest ↔
      kept = [] ∧ text = [d, e] := by
    intro d e
    constructor
    · rintro ⟨_, _, _, _, rfl, rfl, hd, he⟩
      obtain ⟨rfl, rfl⟩ := (hone d _ _ _).1 hd
      obtain ⟨rfl, rfl⟩ := (hone e _ _ _).1 he
      exact ⟨rfl, rfl⟩
    · rintro ⟨rfl, rfl⟩
      exact ⟨[d], [e], [], [], rfl, rfl, (hone d _ _ _).2 ⟨rfl, rfl⟩, (hone e _ _ _).2 ⟨rfl, rfl⟩⟩
  simp only [operators, List.mem_cons, List.not_mem_nil, or_false, and_or_left]
  exact or_congr (htwo _ _) (or_congr (htwo _ _) (or_congr (htwo _ _) (hone _ _ _ _)))

theorem spacedForm_takes : spacedForm.Takes text kept rest ↔
    ∃ name blanks, text = name ++ blanks ∧ kept = [name] ∧ isMetricName name = true ∧
      ∀ c ∈ blanks, isBlank c = true := by
  constructor
  · rintro ⟨name, blanks, _, _, rfl, rfl, ⟨_, rfl, hname⟩, rfl, hblanks⟩
    obtain ⟨rfl, hmetric⟩ := metricForm_takes.1 hname
    exact ⟨name, blanks, rfl, rfl, hmetric, hblanks⟩
  · rintro ⟨name, blanks, rfl, rfl, hname, hblanks⟩
    exact ⟨name, blanks, [name], [], rfl, rfl, ⟨[], rfl, metricForm_takes.2 ⟨rfl, hname⟩⟩, rfl,
      hblanks⟩

theorem valueForm_takes : valueForm.Takes text kept rest ↔
    ∃ label blanks operator blanks' typed,
      text = label ++ (blanks ++ (operator ++ (blanks' ++ '"' :: typed))) ∧ kept = [label, typed] ∧
      isLabelName label = true ∧ (∀ c ∈ blanks, isBlank c = true) ∧ operator ∈ operators ∧
      (∀ c ∈ blanks', isBlank c = true) ∧ '"' ∉ typed := by
  have hnone : ∀ typed : List Char, (∀ c ∈ typed, (c != '"') = true) ↔ '"' ∉ typed := by
    intro typed
    simp only [bne_iff_ne]
    exact ⟨fun h hmem => h _ hmem rfl, fun h c hc heq => h (heq ▸ hc)⟩
  constructor
  · rintro ⟨label, _, _, _, rfl, rfl, ⟨_, rfl, hlabel⟩, blanks, _, _, _, rfl, rfl, ⟨rfl, hblanks⟩,
      operator, _, _, _, rfl, rfl, hop, blanks', _, _, _, rfl, rfl, ⟨rfl, hblanks'⟩,
      _, typed, _, _, rfl, rfl, ⟨rfl, c, hc, rfl⟩, _, rfl, rfl, htyped⟩
    obtain ⟨rfl, hname⟩ := labelForm_takes.1 hlabel
    obtain ⟨rfl, hmem⟩ := operatorForm_takes.1 hop
    obtain rfl : c = '"' := by simpa using hc
    exact ⟨label, blanks, operator, blanks', typed, rfl, rfl, hname, hblanks, hmem, hblanks',
      (hnone typed).1 htyped⟩
  · rintro ⟨label, blanks, operator, blanks', typed, rfl, rfl, hlabel, hblanks, hop, hblanks',
      htyped⟩
    refine ⟨label, _, [label], [typed], rfl, rfl, ⟨[], rfl, labelForm_takes.2 ⟨rfl, hlabel⟩⟩, ?_⟩
    refine ⟨blanks, _, [], [typed], rfl, rfl, ⟨rfl, hblanks⟩, ?_⟩
    refine ⟨operator, _, [], [typed], rfl, rfl, operatorForm_takes.2 ⟨rfl, hop⟩, ?_⟩
    refine ⟨blanks', _, [], [typed], rfl, rfl, ⟨rfl, hblanks'⟩, ?_⟩
    exact ⟨['"'], typed, [], [typed], rfl, rfl, ⟨rfl, '"', rfl, rfl⟩, [], rfl, rfl,
      (hnone typed).2 htyped⟩

end Forms

/-! ## What the searches find -/

section Searches

variable {cs selected inside : List Char}

/-- A search for a name finds the longest one. -/
theorem find_name {form : Pattern} {P : List Char → Prop} {w : Option (List Char)}
    (htakes : ∀ text kept, form.Takes text kept [] ↔ kept = [] ∧ P text) (hw : Longest P cs w) :
    (Pattern.seq (.keep form) .stop).find cs = w.map ([·]) := by
  have hfind : (Pattern.seq (.keep form) .stop).find (cs ++ []) = w.map ([·]) := by
    apply Pattern.find_before hw
    · intro v hv
      exact ⟨[], by simp, (htakes _ _).2 ⟨rfl, by simpa using hv⟩⟩
    · rintro text htext _ ⟨kept, rfl, htaken⟩
      obtain ⟨rfl, hP⟩ := (htakes text kept).1 htaken
      exact ⟨text, by simp, by simpa using htext, hP, rfl⟩
  rwa [List.append_nil] at hfind

theorem labelAtEnd_find (cs : List Char) :
    labelAtEnd.find cs = (someText (labelSuffix cs)).map ([·]) :=
  find_name (fun _ _ => labelForm_takes) (labelSuffix_longest cs)

theorem metricAtEnd_find (cs : List Char) :
    metricAtEnd.find cs = (someText (metricSuffix cs)).map ([·]) :=
  find_name (fun _ _ => metricForm_takes) (metricSuffix_longest cs)

/-- In front of a brace the search passes over white space. -/
theorem metricBeforeBrace_find (selected : List Char) :
    metricBeforeBrace.find selected
      = (someText (metricSuffix (dropSuffix isBlank selected))).map ([·]) := by
  have hblanks : ∀ c ∈ longestSuffix isBlank selected, isBlank c = true :=
    fun _ => of_mem_longestSuffix
  conv_lhs => rw [← dropSuffix_append_longestSuffix isBlank selected]
  apply Pattern.find_before (metricSuffix_longest _)
  · intro v hv
    exact spacedForm_takes.2 ⟨v, _, rfl, rfl, hv, hblanks⟩
  · rw [dropSuffix_append_longestSuffix]
    rintro text ⟨front, hfront⟩ kept htaken
    obtain ⟨name, blanks, rfl, rfl, hname, hall⟩ := spacedForm_takes.1 htaken
    have hstops : Stops isBlank (front ++ name) :=
      stops_append (stops_isBlank_of_isMetricName hname) (isMetricName_ne_nil hname)
    rw [← hfront, ← List.append_assoc, dropSuffix_of_stops hstops hall,
      longestSuffix_of_stops hstops hall]
    exact ⟨name, rfl, List.suffix_append _ _, hname, rfl⟩

/-- The matches of the value pattern, with the text in front of them cut as `stemOf` does. -/
theorem valueForm_cut {text : List Char} {kept : List (List Char)} (htext : text <:+ inside)
    (htaken : valueForm.Takes text kept []) :
    ∃ front label rest typed, inside = front ++ label ++ rest ++ '"' :: typed ∧
      text = label ++ (rest ++ '"' :: typed) ∧ kept = [label, typed] ∧ '"' ∉ typed ∧
      isLabelName label = true ∧ stemOf (front ++ label ++ rest) = some (front ++ label) := by
  obtain ⟨front, rfl⟩ := htext
  obtain ⟨label, blanks, operator, blanks', typed, rfl, rfl, hlabel, hblanks, hop, hblanks',
    htyped⟩ := valueForm_takes.1 htaken
  exact ⟨front, label, blanks ++ (operator ++ blanks'), typed, by simp, by simp, rfl, htyped,
    hlabel, stemOf_matcher front hlabel hblanks hop hblanks'⟩

/-- The search for a value finds what `labelValue` does. -/
theorem valueAtEnd_find (inside : List Char) :
    valueAtEnd.find inside = (labelValue inside).map fun (label, typed) => [label, typed] := by
  by_cases hquote : '"' ∈ inside
  · obtain ⟨text, typed, rfl, htyped⟩ := exists_last_cut hquote
    -- The cut at the last quote is the same for all matches.
    have hcut : ∀ v kept, v <:+ text ++ '"' :: typed → valueForm.Takes v kept [] →
        ∃ front label rest, text = front ++ label ++ rest ∧ v = label ++ (rest ++ '"' :: typed) ∧
          kept = [label, typed] ∧ isLabelName label = true ∧
            stemOf text = some (front ++ label) := by
      intro v kept hv htaken
      obtain ⟨front, label, rest, typed', heq, rfl, rfl, htyped', hlabel, hstem⟩ :=
        valueForm_cut hv htaken
      obtain ⟨rfl, rfl⟩ := last_cut_unique htyped htyped' heq
      exact ⟨front, label, rest, rfl, rfl, rfl, hlabel, hstem⟩
    rw [labelValue_append htyped]
    cases hstem : stemOf text with
    | none =>
      apply Pattern.find_eq_none
      intro v hv kept htaken
      obtain ⟨front, label, rest, -, -, -, -, hsome⟩ := hcut v kept hv htaken
      rw [hstem] at hsome
      cases hsome
    | some stem =>
      obtain ⟨blanks, operator, blanks', rfl, hblanks, hop, hblanks'⟩ := of_stemOf hstem
      rw [Option.bind_some, Option.map_map, List.append_assoc]
      apply Pattern.find_before (labelSuffix_longest stem)
      · intro v hv
        exact valueForm_takes.2 ⟨v, blanks, operator, blanks', typed, by simp, rfl, hv, hblanks,
          hop, hblanks', htyped⟩
      · intro v hv kept htaken
        rw [← List.append_assoc] at hv
        obtain ⟨front, label, rest, heq, rfl, rfl, hlabel, hsome⟩ := hcut v kept hv htaken
        obtain rfl : stem = front ++ label := Option.some.inj (hstem.symm.trans hsome)
        obtain rfl := List.append_cancel_left heq
        exact ⟨label, rfl, List.suffix_append _ _, hlabel, rfl⟩
  · rw [labelValue_of_notMem hquote]
    apply Pattern.find_eq_none
    intro v hv kept htaken
    obtain ⟨front, label, rest, typed, rfl, -⟩ := valueForm_cut hv htaken
    exact hquote (by simp)

end Searches

/-! ## The context -/

/-- The first part that a search keeps. -/
def firstKept (found : Option (List (List Char))) : Option (List Char) := found.bind List.head?

/-- What is being typed at the end of a text, by the patterns. -/
def contextBySearch (before : List Char) : Option CompletionContext :=
  match openBrace before with
  | none => some (.metricName (String.ofList ((firstKept (metricAtEnd.find before)).getD [])))
  | some brace => do
    let inside ← dropBytes (brace + 1) before
    match valueAtEnd.find inside with
    | some [label, typed] => some (.labelValue (String.ofList label) (String.ofList typed))
    | _ =>
      if quoteOpen inside then none
      else
        let selected ← takeBytes brace before
        some (.labelName ((firstKept (metricBeforeBrace.find selected)).map String.ofList)
          (String.ofList ((firstKept (labelAtEnd.find inside)).getD [])))

@[simp] theorem firstKept_map (w : Option (List Char)) : firstKept (w.map ([·])) = w := by
  cases w <;> rfl

/-- The longest suffixes are what the searches find. -/
theorem contextAfter_eq_contextBySearch (before : List Char) :
    contextAfter before = contextBySearch before := by
  unfold contextAfter contextBySearch
  cases openBrace before with
  | none => simp [metricAtEnd_find]
  | some brace =>
    simp only
    congr 1
    funext inside
    rw [valueAtEnd_find]
    cases labelValue inside with
    | none => simp [metricBeforeBrace_find, labelAtEnd_find, nonempty_eq]
    | some found => rfl

/-- What the context of a text with an open brace is made of: `selected` is the text in front of the
brace, and `inside` the text behind it. -/
structure Selects (selected inside : List Char) (context : Option CompletionContext) : Prop where
  value : ∀ label typed, context = some (.labelValue label typed) ↔
    EndsInValue inside label.toList typed.toList
  typed : ∀ metric typed, context = some (.labelName metric typed) →
    ∃ name, Longest (isLabelName · = true) inside name ∧ typed = String.ofList (name.getD [])
  metric : ∀ metric typed, context = some (.labelName metric typed) →
    ∃ stem blanks name, selected = stem ++ blanks ∧ Stops isBlank stem ∧
      (∀ c ∈ blanks, isBlank c = true) ∧ Longest (isMetricName · = true) stem name ∧
      metric = name.map String.ofList
  inside : ∀ typed, context ≠ some (.metricName typed)

theorem contextAfter_selects {selected inside : List Char}
    (hbrace : openBrace (selected ++ '{' :: inside) = some (byteSize selected)) :
    Selects selected inside (contextAfter (selected ++ '{' :: inside)) := by
  rw [contextAfter_inside hbrace]
  cases hvalue : labelValue inside with
  | some found =>
    obtain ⟨label, typed⟩ := found
    constructor
    case value =>
      intro label' typed'
      rw [← labelValue_eq_some_iff, hvalue]
      simp [← String.toList_inj]
    all_goals simp
  | none =>
    have hnone : ∀ label typed, ¬ EndsInValue inside label typed := by
      intro label typed hends
      rw [labelValue_eq_some_iff.2 hends] at hvalue
      cases hvalue
    by_cases hopen : quoteOpen inside = true
    · simp only [hopen, if_true]
      exact ⟨by simp [hnone], by simp, by simp, by simp⟩
    · simp only [hopen]
      constructor
      case value => simp [hnone]
      case typed =>
        intro metric typed h
        cases h
        exact ⟨_, labelSuffix_longest inside, by simp⟩
      case metric =>
        intro metric typed h
        cases h
        exact ⟨dropSuffix isBlank selected, longestSuffix isBlank selected, _,
          (dropSuffix_append_longestSuffix _ _).symm, stops_dropSuffix _ _,
          fun _ => of_mem_longestSuffix, metricSuffix_longest _, nonempty_eq _⟩
      case inside => simp

/-- What is typed at a position is the token that the text in front of it ends in. Outside of braces
it is the longest metric name. Inside it is a value exactly if a matcher stands in front of the last
double quote, and otherwise, if anything, the longest label name. -/
theorem completion_extracts_token (content : String) (p : Position) :
    (offsetAt content.toList p = none ∧ completionContext content.toList p = none) ∨
    ∃ before after, content.toList = before ++ after ∧
      offsetAt content.toList p = some (byteSize before) ∧
      completionContext content.toList p = contextBySearch before ∧
      match openBrace before with
      | none => ∃ name, Longest (isMetricName · = true) before name ∧
          completionContext content.toList p
            = some (.metricName (String.ofList (name.getD [])))
      | some brace => ∃ selected inside, before = selected ++ '{' :: inside ∧
          brace = byteSize selected ∧
          Selects selected inside (completionContext content.toList p) := by
  cases hoffset : offsetAt content.toList p with
  | none =>
    left
    exact ⟨rfl, completionContext_eq_none hoffset⟩
  | some offset =>
    right
    obtain ⟨before, after, hcut, rfl⟩ := offsetAt_cut hoffset
    rw [completionContext_eq hcut hoffset]
    refine ⟨before, after, hcut, rfl, contextAfter_eq_contextBySearch before, ?_⟩
    cases hbrace : openBrace before with
    | none =>
      refine ⟨_, metricSuffix_longest before, ?_⟩
      rw [contextAfter, hbrace, getD_someText]
    | some brace =>
      obtain ⟨selected, inside, rfl, rfl⟩ := openBrace_cut hbrace
      exact ⟨selected, inside, rfl, rfl, contextAfter_selects hbrace⟩

end PromqlServer.Query
