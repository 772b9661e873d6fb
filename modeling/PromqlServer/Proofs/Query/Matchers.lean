import PromqlServer.Proofs.Query.Names
import PromqlServer.Proofs.Text.Cuts
import PromqlServer.Proofs.Url.Readings

/-!
Names and label matchers at the end of a text, as `completion_context` looks for them. `labelSuffix`
and `metricSuffix` give the longest names, and `labelValue` finds a value exactly if a matcher
stands in front of the last double quote (`labelValue_eq_some_iff`).
-/

namespace PromqlServer.Query

open PromqlServer.Text

/-! ## Names -/

/-- A text that is not empty. -/
def someText (cs : List Char) : Option (List Char) := if cs.isEmpty then none else some cs

@[simp] theorem someText_nil : someText [] = none := rfl

@[simp] theorem someText_cons {c : Char} {cs : List Char} : someText (c :: cs) = some (c :: cs) :=
  rfl

@[simp] theorem getD_someText (cs : List Char) : (someText cs).getD [] = cs := by
  cases cs <;> rfl

theorem nonempty_eq (cs : List Char) : nonempty cs = (someText cs).map String.ofList := by
  cases cs <;> rfl

section Names

variable {start inner : Char → Bool} {v cs : List Char}

/-- A suffix that starts with a character of a class starts at the first one or behind it. -/
theorem suffix_dropWhile {p : Char → Bool} (h : v <:+ cs) (hhead : v.head?.any p = true) :
    v <:+ cs.dropWhile fun c => !p c := by
  induction cs with
  | nil => exact h
  | cons c cs ih =>
    rw [List.dropWhile_cons]
    split
    · rename_i hc
      rcases List.suffix_cons_iff.1 h with rfl | h
      · simp at hc hhead
        rw [hhead] at hc
        cases hc
      · exact ih h
    · exact h

/-- The longest suffix of inner characters, from the first that may start a name, is the longest
name. -/
theorem suffix_longest (start inner : Char → Bool) (cs : List Char) :
    Longest (fun v => (v.head?.any start && v.all inner) = true) cs
      (someText ((longestSuffix inner cs).dropWhile fun c => !start c)) := by
  have hevery : ∀ v, v <:+ cs → (v.head?.any start && v.all inner) = true →
      v <:+ (longestSuffix inner cs).dropWhile fun c => !start c := by
    intro v hv hname
    rw [Bool.and_eq_true, List.all_eq_true] at hname
    exact suffix_dropWhile (suffix_longestSuffix hv hname.2) hname.1
  have hsuffix : ((longestSuffix inner cs).dropWhile fun c => !start c) <:+ cs :=
    (List.dropWhile_suffix _).trans ⟨_, dropSuffix_append_longestSuffix inner cs⟩
  have hname := @suffix_isName start inner cs
  simp only at hname
  generalize ((longestSuffix inner cs).dropWhile fun c => !start c) = w at *
  cases w with
  | nil =>
    intro v hv hname
    rw [List.suffix_nil.1 (hevery v hv hname)] at hname
    cases hname
  | cons c w => exact ⟨hsuffix, hname.resolve_left (List.cons_ne_nil _ _), hevery⟩

end Names

theorem labelSuffix_longest (cs : List Char) :
    Longest (isLabelName · = true) cs (someText (labelSuffix cs)) :=
  suffix_longest isLabelStart isLabelChar cs

theorem metricSuffix_longest (cs : List Char) :
    Longest (isMetricName · = true) cs (someText (metricSuffix cs)) :=
  suffix_longest isMetricStart isMetricChar cs

section Characters

variable {c : Char} {name : List Char}

theorem not_isBlank_of_isLabelChar (h : isLabelChar c = true) : isBlank c = false := by
  obtain ⟨hlow, hhigh, -⟩ := Url.toNat_of_isWordChar h
  simp only [isBlank, Bool.or_eq_false_iff, Bool.and_eq_false_iff, decide_eq_false_iff_not,
    beq_eq_false_iff_ne]
  omega

theorem not_isBlank_of_isMetricChar (h : isMetricChar c = true) : isBlank c = false := by
  rw [isMetricChar, Bool.or_eq_true, decide_eq_true_eq] at h
  rcases h with h | rfl
  · exact not_isBlank_of_isLabelChar h
  · decide

/-- No blank stands at the end of a name. -/
theorem stops_isBlank_of_isLabelName (h : isLabelName name = true) : Stops isBlank name := by
  rw [isLabelName, Bool.and_eq_true, List.all_eq_true] at h
  exact fun c hc => not_isBlank_of_isLabelChar (h.2 c (List.mem_of_getLast? hc))

theorem stops_isBlank_of_isMetricName (h : isMetricName name = true) : Stops isBlank name := by
  rw [isMetricName, Bool.and_eq_true, List.all_eq_true] at h
  exact fun c hc => not_isBlank_of_isMetricChar (h.2 c (List.mem_of_getLast? hc))

theorem isLabelName_ne_nil (h : isLabelName name = true) : name ≠ [] := by
  rintro rfl
  cases h

theorem isMetricName_ne_nil (h : isMetricName name = true) : name ≠ [] := by
  rintro rfl
  cases h

end Characters

/-! ## Values -/

/-- The operators that compare a label with a value. -/
def operators : List (List Char) := [['=', '~'], ['!', '~'], ['!', '='], ['=']]

/-- The text ends in a label name and a matching operator, with white space behind each of them. -/
def EndsInMatcher (text label : List Char) : Prop :=
  ∃ stem blanks operator blanks', text = stem ++ (blanks ++ (operator ++ blanks')) ∧
    Longest (isLabelName · = true) stem (some label) ∧ (∀ c ∈ blanks, isBlank c = true) ∧
    operator ∈ operators ∧ ∀ c ∈ blanks', isBlank c = true

/-- A matcher stands in front of the last double quote, and `typed` is what follows the quote. -/
def EndsInValue (inside label typed : List Char) : Prop :=
  ∃ text, inside = text ++ '"' :: typed ∧ '"' ∉ typed ∧ EndsInMatcher text label

/-- The text in front of a matching operator at its end, white space aside. -/
def stemOf (text : List Char) : Option (List Char) :=
  (dropMatcher (dropSuffix isBlank text)).map (dropSuffix isBlank)

section Values

variable {text stem blanks blanks' operator inside label typed : List Char}

theorem dropMatcher_append (h : operator ∈ operators) (hstops : Stops (· == '!') text) :
    dropMatcher (text ++ operator) = some text := by
  simp only [operators, List.mem_cons, List.not_mem_nil, or_false] at h
  rcases h with rfl | rfl | rfl | rfl
  · simp [dropMatcher]
  · simp [dropMatcher]
  · simp [dropMatcher]
  · rcases List.eq_nil_or_concat text with rfl | ⟨front, c, rfl⟩
    · rfl
    · have hc : c ≠ '!' := by simpa using hstops c (by simp)
      simp [dropMatcher, hc]

theorem eq_append_of_dropMatcher (h : dropMatcher text = some stem) :
    ∃ operator ∈ operators, text = stem ++ operator := by
  unfold dropMatcher at h
  split at h
  all_goals cases h
  · rename_i heq
    refine ⟨['=', '~'], by simp [operators], ?_⟩
    rw [← text.reverse_reverse, heq]
    simp
  · rename_i heq
    refine ⟨['!', '~'], by simp [operators], ?_⟩
    rw [← text.reverse_reverse, heq]
    simp
  · rename_i heq
    refine ⟨['!', '='], by simp [operators], ?_⟩
    rw [← text.reverse_reverse, heq]
    simp
  · rename_i heq
    refine ⟨['='], by simp [operators], ?_⟩
    rw [← text.reverse_reverse, heq]
    simp

theorem stops_isBlank_operator (h : operator ∈ operators) :
    Stops isBlank operator ∧ operator ≠ [] := by
  simp only [operators, List.mem_cons, List.not_mem_nil, or_false] at h
  rcases h with rfl | rfl | rfl | rfl <;> exact ⟨by simp [Stops, isBlank], by simp⟩

theorem stops_bang_append (hstem : Stops (· == '!') stem)
    (hblanks : ∀ c ∈ blanks, isBlank c = true) :
    Stops (· == '!') (stem ++ blanks) := by
  rcases List.eq_nil_or_concat blanks with rfl | ⟨front, c, rfl⟩
  · simpa using hstem
  · have hc : isBlank c = true := hblanks c (by simp)
    intro d hd
    have hcd : c = d := by simpa using hd
    subst hcd
    rw [beq_eq_false_iff_ne]
    rintro rfl
    cases hc

/-- A text is divided in one way into what is in front of an operator and the rest. -/
theorem stemOf_append (hstem : Stops isBlank stem) (hbang : Stops (· == '!') stem)
    (hblanks : ∀ c ∈ blanks, isBlank c = true) (hop : operator ∈ operators)
    (hblanks' : ∀ c ∈ blanks', isBlank c = true) :
    stemOf (stem ++ (blanks ++ (operator ++ blanks'))) = some stem := by
  obtain ⟨hstops, hne⟩ := stops_isBlank_operator hop
  have htext : stem ++ (blanks ++ (operator ++ blanks'))
      = (stem ++ blanks ++ operator) ++ blanks' := by
    simp
  rw [stemOf, htext, dropSuffix_of_stops (stops_append hstops hne) hblanks',
    dropMatcher_append hop (stops_bang_append hbang hblanks), Option.map_some,
    dropSuffix_of_stops hstem hblanks]

theorem of_stemOf (h : stemOf text = some stem) :
    ∃ blanks operator blanks', text = stem ++ (blanks ++ (operator ++ blanks')) ∧
      (∀ c ∈ blanks, isBlank c = true) ∧ operator ∈ operators ∧
        ∀ c ∈ blanks', isBlank c = true := by
  obtain ⟨front, hfront, rfl⟩ := Option.map_eq_some_iff.1 h
  obtain ⟨operator, hop, hdropped⟩ := eq_append_of_dropMatcher hfront
  refine ⟨longestSuffix isBlank front, operator, longestSuffix isBlank text, ?_, ?_, hop, ?_⟩
  · rw [← List.append_assoc, dropSuffix_append_longestSuffix, ← List.append_assoc, ← hdropped,
      dropSuffix_append_longestSuffix]
  · exact fun c => of_mem_longestSuffix
  · exact fun c => of_mem_longestSuffix

/-- A label name in front of the blanks and the operator ends with none of their characters. -/
theorem stops_of_isLabelName (front : List Char) (h : isLabelName label = true) :
    Stops isBlank (front ++ label) ∧ Stops (· == '!') (front ++ label) := by
  have hne := isLabelName_ne_nil h
  refine ⟨stops_append (stops_isBlank_of_isLabelName h) hne, stops_append ?_ hne⟩
  rw [isLabelName, Bool.and_eq_true, List.all_eq_true] at h
  intro c hc
  have hlabel := h.2 c (List.mem_of_getLast? hc)
  rw [beq_eq_false_iff_ne]
  rintro rfl
  cases hlabel

/-- A matcher at the end of a text has its label where the text is cut. -/
theorem stemOf_matcher (front : List Char) (hlabel : isLabelName label = true)
    (hblanks : ∀ c ∈ blanks, isBlank c = true) (hop : operator ∈ operators)
    (hblanks' : ∀ c ∈ blanks', isBlank c = true) :
    stemOf (front ++ label ++ (blanks ++ (operator ++ blanks'))) = some (front ++ label) := by
  obtain ⟨hstem, hbang⟩ := stops_of_isLabelName front hlabel
  exact stemOf_append hstem hbang hblanks hop hblanks'

theorem endsInMatcher_iff : EndsInMatcher text label ↔
    ∃ stem, stemOf text = some stem ∧ Longest (isLabelName · = true) stem (some label) := by
  constructor
  · rintro ⟨stem, blanks, operator, blanks', rfl, hlabel, hblanks, hop, hblanks'⟩
    obtain ⟨⟨front, rfl⟩, hname, -⟩ := id hlabel
    exact ⟨_, stemOf_matcher front hname hblanks hop hblanks', hlabel⟩
  · rintro ⟨stem, hstem, hlabel⟩
    obtain ⟨blanks, operator, blanks', rfl, hblanks, hop, hblanks'⟩ := of_stemOf hstem
    exact ⟨stem, blanks, operator, blanks', rfl, hlabel, hblanks, hop, hblanks'⟩

/-- Only what follows a character that is in no label name matters to a label name. -/
theorem longest_label_append (front : List Char) {d : Char} (h : isLabelChar d = false)
    {name : Option (List Char)} :
    Longest (isLabelName · = true) (front ++ d :: text) name ↔
      Longest (isLabelName · = true) text name := by
  have hstops : Stops isLabelChar (front ++ [d]) :=
    stops_append (by simpa [Stops] using h) (by simp)
  have hsame : labelSuffix (front ++ d :: text) = labelSuffix text := by
    rw [List.append_cons, labelSuffix, longestSuffix_append_of_stops hstops, labelSuffix]
  have hwhole := labelSuffix_longest (front ++ d :: text)
  rw [hsame] at hwhole
  constructor
  · intro hname
    rw [hname.unique hwhole]
    exact labelSuffix_longest text
  · intro hname
    rw [hname.unique (labelSuffix_longest text)]
    exact hwhole

/-- A matching operator with white space on both sides. -/
def Operates (tail : List Char) : Prop :=
  ∃ blanks operator blanks', tail = blanks ++ (operator ++ blanks') ∧
    (∀ c ∈ blanks, isBlank c = true) ∧ operator ∈ operators ∧ ∀ c ∈ blanks', isBlank c = true

/-- A matcher stands behind a character that neither a label nor an operator goes over. -/
theorem endsInMatcher_append (front : List Char) {d : Char} (hd : isLabelChar d = false)
    (hcut : ∀ lead, ¬ Operates (lead ++ d :: text)) :
    EndsInMatcher (front ++ d :: text) label ↔ EndsInMatcher text label := by
  constructor
  · rintro ⟨stem, blanks, operator, blanks', heq, hlabel, hblanks, hop, hblanks'⟩
    have hbehind : ∃ more, stem = front ++ d :: more ∧
        text = more ++ (blanks ++ (operator ++ blanks')) := by
      rw [List.append_cons] at heq
      rcases List.append_eq_append_iff.1 heq with ⟨more, hstem, htext⟩ | ⟨lead, hfront, htail⟩
      · exact ⟨more, by rw [hstem, ← List.append_cons], htext⟩
      rcases List.suffix_concat_iff.1 ⟨stem, hfront.symm⟩ with rfl | ⟨lead, rfl, -⟩
      · exact ⟨[], by simpa using hfront.symm, htail.symm⟩
      · rw [← List.append_cons] at htail
        exact absurd ⟨blanks, operator, blanks', htail.symm, hblanks, hop, hblanks'⟩ (hcut lead)
    obtain ⟨more, rfl, rfl⟩ := hbehind
    exact ⟨more, blanks, operator, blanks', rfl, (longest_label_append front hd).1 hlabel, hblanks,
      hop, hblanks'⟩
  · rintro ⟨stem, blanks, operator, blanks', rfl, hlabel, hblanks, hop, hblanks'⟩
    exact ⟨front ++ d :: stem, blanks, operator, blanks', by simp,
      (longest_label_append front hd).2 hlabel, hblanks, hop, hblanks'⟩

theorem Operates.mem {tail : List Char} {c : Char} (h : Operates tail) (hc : c ∈ tail) :
    isBlank c = true ∨ c ∈ ['=', '!', '~'] := by
  obtain ⟨blanks, operator, blanks', rfl, hblanks, hop, hblanks'⟩ := h
  rw [List.mem_append, List.mem_append] at hc
  rcases hc with hc | hc | hc
  · exact Or.inl (hblanks c hc)
  · have hall : ∀ operator ∈ operators, ∀ c ∈ operator, c ∈ ['=', '!', '~'] := by
      simp [operators]
    exact Or.inr (hall operator hop c hc)
  · exact Or.inl (hblanks' c hc)

/-- What follows white space is the start of the operator. -/
theorem Operates.starts {front rest : List Char} {c d : Char}
    (h : Operates (front ++ d :: c :: rest)) (hd : isBlank d = true) (hc : isBlank c = false) :
    c ∈ ['=', '!'] := by
  obtain ⟨blanks, operator, blanks', heq, hblanks, hop, hblanks'⟩ := h
  have hstart : ∀ operator ∈ operators, ∀ c ∈ operator.head?, c ∈ ['=', '!'] := by
    simp [operators]
  have hd' : d ∉ operator := by
    have hall : ∀ operator ∈ operators, ∀ c ∈ operator, isBlank c = false := by
      simp [operators, isBlank]
    intro hmem
    rw [hall operator hop d hmem] at hd
    cases hd
  have hnotMem : ∀ cs : List Char, (∀ c ∈ cs, isBlank c = true) → c ∉ cs := by
    intro cs hcs hmem
    rw [hcs c hmem] at hc
    cases hc
  obtain ⟨-, hne⟩ := stops_isBlank_operator hop
  cases operator with
  | nil => exact absurd rfl hne
  | cons o operator =>
    rcases List.append_eq_append_iff.1 heq with ⟨more, rfl, hmore⟩ | ⟨more, rfl, hmore⟩
    · -- The white space in front of the operator goes on for `more`.
      match more with
      | [] => exact absurd (List.mem_cons.2 (Or.inl (List.cons.inj hmore).1)) hd'
      | [_] =>
        obtain rfl : c = o := (List.cons.inj (List.cons.inj hmore).2).1
        exact hstart _ hop c rfl
      | _ :: _ :: more =>
        obtain rfl := (List.cons.inj (List.cons.inj hmore).2).1
        exact absurd (by simp) (hnotMem _ hblanks)
    · rcases List.append_eq_append_iff.1 hmore with ⟨more', -, htail⟩ | ⟨more', hoperator, htail⟩
      · exact absurd (by rw [htail]; simp) (hnotMem _ hblanks')
      · cases more' with
        | nil =>
          rw [List.nil_append] at htail
          exact absurd (by rw [← htail]; simp) (hnotMem _ hblanks')
        | cons e more' =>
          obtain rfl : d = e := (List.cons.inj htail).1
          exact absurd (by rw [hoperator]; simp) hd'

/-- No matcher goes over a character that is part of none. -/
theorem endsInMatcher_cut (front : List Char) {c : Char} (hlabel : isLabelChar c = false)
    (hblank : isBlank c = false) (hop : c ∉ ['=', '!', '~']) :
    EndsInMatcher (front ++ c :: text) label ↔ EndsInMatcher text label := by
  apply endsInMatcher_append front hlabel
  intro lead hoperates
  rcases hoperates.mem (c := c) (by simp) with h | h
  · rw [h] at hblank
    cases hblank
  · exact hop h

/-- No matcher goes over white space and a character behind it that starts no operator. -/
theorem endsInMatcher_word (front : List Char) {c d : Char} (hd : isBlank d = true)
    (hc : isBlank c = false) (hop : c ∉ ['=', '!']) :
    EndsInMatcher (front ++ d :: c :: text) label ↔ EndsInMatcher (c :: text) label := by
  have hlabel : isLabelChar d = false := by
    cases h : isLabelChar d with
    | false => rfl
    | true => rw [not_isBlank_of_isLabelChar h] at hd; cases hd
  exact endsInMatcher_append front hlabel fun _ hoperates => hop (hoperates.starts hd hc)

/-- The last double quote cuts the text in front of the value. -/
theorem labelValue_append (h : '"' ∉ typed) :
    labelValue (text ++ '"' :: typed)
      = (stemOf text).bind fun stem => (someText (labelSuffix stem)).map (·, typed) := by
  have hstops : Stops (· ≠ '"') (text ++ ['"']) := stops_append (by simp [Stops]) (by simp)
  have htyped : ∀ c ∈ typed, decide (c ≠ '"') = true := by
    intro c hc
    rw [decide_eq_true_eq]
    rintro rfl
    exact h hc
  rw [List.append_cons, labelValue]
  simp only [longestSuffix_of_stops hstops htyped, dropSuffix_of_stops hstops htyped,
    List.reverse_append, List.reverse_cons, List.reverse_nil, List.nil_append, List.cons_append,
    List.reverse_reverse, stemOf, Option.bind_eq_bind, Option.bind_map]
  congr 1
  funext stem
  simp only [Function.comp]
  cases labelSuffix (dropSuffix isBlank stem) <;> rfl

theorem labelValue_of_notMem (h : '"' ∉ inside) : labelValue inside = none := by
  have hall : ∀ c ∈ inside, decide (c ≠ '"') = true := by
    intro c hc
    rw [decide_eq_true_eq]
    rintro rfl
    exact h hc
  have hnone : dropSuffix (· ≠ '"') ([] ++ inside) = [] :=
    dropSuffix_of_stops (by simp [Stops]) hall
  rw [List.nil_append] at hnone
  rw [labelValue]
  simp only [hnone, List.reverse_nil]

theorem endsInValue_append (h : '"' ∉ typed) {typed' : List Char} :
    EndsInValue (text ++ '"' :: typed) label typed' ↔
      typed' = typed ∧ EndsInMatcher text label := by
  constructor
  · rintro ⟨text', heq, htyped', hmatcher⟩
    obtain ⟨rfl, rfl⟩ := last_cut_unique h htyped' heq
    exact ⟨rfl, hmatcher⟩
  · rintro ⟨rfl, hmatcher⟩
    exact ⟨text, rfl, h, hmatcher⟩

/-- A value is being typed exactly if the text ends in one. -/
theorem labelValue_eq_some_iff :
    labelValue inside = some (label, typed) ↔ EndsInValue inside label typed := by
  by_cases hquote : '"' ∈ inside
  · obtain ⟨text, typed', rfl, htyped'⟩ := exists_last_cut hquote
    rw [labelValue_append htyped', endsInValue_append htyped', endsInMatcher_iff,
      Option.bind_eq_some_iff]
    constructor
    · rintro ⟨stem, hstem, hlabel⟩
      obtain ⟨label', hlabel', heq⟩ := Option.map_eq_some_iff.1 hlabel
      cases heq
      exact ⟨rfl, stem, hstem, hlabel' ▸ labelSuffix_longest stem⟩
    · rintro ⟨rfl, stem, hstem, hlabel⟩
      exact ⟨stem, hstem, by rw [(labelSuffix_longest stem).unique hlabel, Option.map_some]⟩
  · rw [labelValue_of_notMem hquote]
    constructor
    · intro h
      cases h
    · rintro ⟨text, rfl, -⟩
      exact absurd (by simp) hquote

end Values

end PromqlServer.Query
