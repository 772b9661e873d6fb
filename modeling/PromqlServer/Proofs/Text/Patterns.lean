import PromqlServer.Proofs.Text.Cuts

/-!
Patterns of text and their leftmost search. `Pattern.ways` lists the ways to match a pattern in the
order in which they are tried; `find_eq_some_iff` says that the search for a pattern that has to end
where the text does finds the longest suffix of its form.
-/

namespace PromqlServer.Text

/-! ## Search -/

inductive Pattern where
  /-- One character of a class. -/
  | one (p : Char → Bool)
  /-- Any number of characters of a class, as many as possible. -/
  | many (p : Char → Bool)
  | seq (first second : Pattern)
  /-- The second only where the first does not lead to a match. -/
  | alt (first second : Pattern)
  /-- What is matched here is kept. -/
  | keep (inner : Pattern)
  /-- The end of the text. -/
  | stop

structure Match where
  /-- What was kept, in the order of the text. -/
  kept : List (List Char)
  rest : List Char
  deriving DecidableEq, Repr

/-- What is left behind characters of a class, the least first. -/
def leftBehind (p : Char → Bool) : List Char → List (List Char)
  | [] => [[]]
  | c :: cs => if p c then leftBehind p cs ++ [c :: cs] else [c :: cs]

/-- All ways to match a pattern at the start of a text, the preferred ones first. -/
def Pattern.ways : Pattern → List Char → List Match
  | .one _, [] => []
  | .one p, c :: cs => if p c then [⟨[], cs⟩] else []
  | .many p, cs => (leftBehind p cs).map fun rest => ⟨[], rest⟩
  | .seq first second, cs => (first.ways cs).flatMap fun m =>
      (second.ways m.rest).map fun n => ⟨m.kept ++ n.kept, n.rest⟩
  | .alt first second, cs => first.ways cs ++ second.ways cs
  | .keep inner, cs => (inner.ways cs).map fun m =>
      ⟨cs.take (cs.length - m.rest.length) :: m.kept, m.rest⟩
  | .stop, cs => if cs.isEmpty then [⟨[], []⟩] else []

/-- What the preferred match at the leftmost place keeps. -/
def Pattern.find (pattern : Pattern) : List Char → Option (List (List Char))
  | [] => (pattern.ways []).head?.map Match.kept
  | c :: cs => ((pattern.ways (c :: cs)).head?.map Match.kept).or (pattern.find cs)

/-! ## The form of a match -/

/-- A pattern takes `text` up, with `rest` behind it, and keeps parts of it. -/
def Pattern.Takes : Pattern → (text : List Char) → (kept : List (List Char)) → (rest : List Char) →
    Prop
  | .one p, text, kept, _ => kept = [] ∧ ∃ c, p c = true ∧ text = [c]
  | .many p, text, kept, _ => kept = [] ∧ ∀ c ∈ text, p c = true
  | .seq first second, text, kept, rest => ∃ text₁ text₂ kept₁ kept₂, text = text₁ ++ text₂ ∧
      kept = kept₁ ++ kept₂ ∧ first.Takes text₁ kept₁ (text₂ ++ rest) ∧
      second.Takes text₂ kept₂ rest
  | .alt first second, text, kept, rest => first.Takes text kept rest ∨ second.Takes text kept rest
  | .keep inner, text, kept, rest => ∃ kept', kept = text :: kept' ∧ inner.Takes text kept' rest
  | .stop, text, kept, rest => text = [] ∧ kept = [] ∧ rest = []

section Ways

variable {p : Char → Bool} {pattern : Pattern} {cs rest : List Char} {kept : List (List Char)}

theorem mem_leftBehind :
    rest ∈ leftBehind p cs ↔ ∃ text, cs = text ++ rest ∧ ∀ c ∈ text, p c = true := by
  constructor
  · intro h
    induction cs with
    | nil => exact ⟨[], (List.mem_singleton.1 h).symm, by simp⟩
    | cons c cs ih =>
      rw [leftBehind] at h
      split at h
      · rename_i hc
        rcases List.mem_append.1 h with h | h
        · obtain ⟨text, rfl, htext⟩ := ih h
          exact ⟨c :: text, rfl, List.forall_mem_cons.2 ⟨hc, htext⟩⟩
        · exact ⟨[], (List.mem_singleton.1 h).symm, by simp⟩
      · exact ⟨[], (List.mem_singleton.1 h).symm, by simp⟩
  · rintro ⟨text, rfl, htext⟩
    induction text with
    | nil => cases rest <;> simp [leftBehind]; split <;> simp
    | cons c text ih =>
      obtain ⟨hc, htext⟩ := List.forall_mem_cons.1 htext
      rw [List.cons_append, leftBehind, if_pos hc]
      exact List.mem_append_left _ (ih htext)

/-- The ways to match a pattern are its matches. -/
theorem Pattern.mem_ways :
    ⟨kept, rest⟩ ∈ pattern.ways cs ↔ ∃ text, cs = text ++ rest ∧ pattern.Takes text kept rest := by
  induction pattern generalizing cs kept rest with
  | one p =>
    cases cs with
    | nil => simp [Pattern.ways, Pattern.Takes]
    | cons c cs =>
      by_cases hc : p c = true
      · simp only [Pattern.ways, hc, ↓reduceIte, List.mem_singleton, Match.mk.injEq, Pattern.Takes]
        constructor
        · rintro ⟨rfl, rfl⟩
          exact ⟨[c], rfl, rfl, c, hc, rfl⟩
        · rintro ⟨text, htext, rfl, d, -, rfl⟩
          exact ⟨rfl, (List.cons.inj htext).2.symm⟩
      · simp only [Pattern.ways, hc, Pattern.Takes]
        constructor
        · intro h
          cases h
        · rintro ⟨text, htext, -, d, hd, rfl⟩
          rw [(List.cons.inj htext).1] at hc
          exact absurd hd hc
  | many p =>
    simp only [Pattern.ways, List.mem_map, Match.mk.injEq, Pattern.Takes, mem_leftBehind]
    constructor
    · rintro ⟨_, ⟨text, rfl, htext⟩, rfl, rfl⟩
      exact ⟨text, rfl, rfl, htext⟩
    · rintro ⟨text, rfl, rfl, htext⟩
      exact ⟨rest, ⟨text, rfl, htext⟩, rfl, rfl⟩
  | seq first second ih₁ ih₂ =>
    simp only [Pattern.ways, List.mem_flatMap, List.mem_map, Match.mk.injEq, Pattern.Takes]
    constructor
    · rintro ⟨⟨kept₁, rest₁⟩, hm, ⟨kept₂, rest₂⟩, hn, rfl, rfl⟩
      obtain ⟨text₁, rfl, h₁⟩ := ih₁.1 hm
      obtain ⟨text₂, rfl, h₂⟩ := ih₂.1 hn
      exact ⟨text₁ ++ text₂, by simp, text₁, text₂, kept₁, kept₂, rfl, rfl, h₁, h₂⟩
    · rintro ⟨_, rfl, text₁, text₂, kept₁, kept₂, rfl, rfl, h₁, h₂⟩
      refine ⟨⟨kept₁, text₂ ++ rest⟩, ih₁.2 ⟨text₁, by simp, h₁⟩, ⟨kept₂, rest⟩, ?_, rfl, rfl⟩
      exact ih₂.2 ⟨text₂, rfl, h₂⟩
  | alt first second ih₁ ih₂ =>
    simp only [Pattern.ways, List.mem_append, Pattern.Takes, ih₁, ih₂, and_or_left, exists_or]
  | keep inner ih =>
    simp only [Pattern.ways, List.mem_map, Match.mk.injEq, Pattern.Takes]
    constructor
    · rintro ⟨⟨kept', rest'⟩, hm, rfl, rfl⟩
      obtain ⟨text, rfl, htext⟩ := ih.1 hm
      exact ⟨text, rfl, kept', by simp, htext⟩
    · rintro ⟨text, rfl, kept', rfl, htext⟩
      exact ⟨⟨kept', rest⟩, ih.2 ⟨text, rfl, htext⟩, by simp, rfl⟩
  | stop =>
    cases cs with
    | nil =>
      simp only [Pattern.ways, List.isEmpty_nil, ↓reduceIte, List.mem_singleton, Match.mk.injEq,
        Pattern.Takes]
      constructor
      · rintro ⟨rfl, rfl⟩
        exact ⟨[], rfl, rfl, rfl, rfl⟩
      · rintro ⟨text, -, -, rfl, rfl⟩
        exact ⟨rfl, rfl⟩
    | cons c cs =>
      simp only [Pattern.ways, List.isEmpty_cons, Pattern.Takes]
      constructor
      · intro h
        cases h
      · rintro ⟨text, htext, rfl, -, rfl⟩
        cases htext

end Ways

/-! ## A match up to the end -/

/-- The texts that a pattern takes up as a whole. -/
def Pattern.Form (pattern : Pattern) (text : List Char) : Prop := ∃ kept, pattern.Takes text kept []

/-- What is kept of a suffix does not depend on the way in which it is matched. -/
def Pattern.Settled (pattern : Pattern) (cs : List Char) : Prop :=
  ∀ text, text <:+ cs → ∀ kept kept', pattern.Takes text kept [] → pattern.Takes text kept' [] →
    kept = kept'

section Endings

variable {pattern : Pattern} {c : Char} {cs : List Char} {kept : List (List Char)}

theorem Pattern.mem_ways_stop {m : Match} :
    m ∈ (pattern.seq .stop).ways cs ↔ m.rest = [] ∧ pattern.Takes cs m.kept [] := by
  obtain ⟨kept, rest⟩ := m
  rw [Pattern.mem_ways]
  constructor
  · rintro ⟨_, rfl, text₁, text₂, kept₁, kept₂, rfl, rfl, h, rfl, rfl, rfl⟩
    exact ⟨rfl, by simpa using h⟩
  · rintro ⟨rfl, h⟩
    exact ⟨cs, by simp, cs, [], kept, [], by simp, by simp, h, rfl, rfl, rfl⟩

theorem Pattern.head?_ways_stop (hsettled : pattern.Settled cs) :
    ((pattern.seq .stop).ways cs).head?.map Match.kept = some kept ↔ pattern.Takes cs kept [] := by
  cases hways : (pattern.seq .stop).ways cs with
  | nil =>
    constructor
    · intro h
      cases h
    · intro h
      have hmem : ⟨kept, []⟩ ∈ (pattern.seq .stop).ways cs := Pattern.mem_ways_stop.2 ⟨rfl, h⟩
      rw [hways] at hmem
      cases hmem
  | cons m ms =>
    have hm : m ∈ (pattern.seq .stop).ways cs := by simp [hways]
    have hkept := (Pattern.mem_ways_stop.1 hm).2
    constructor
    · intro h
      cases h
      exact hkept
    · intro h
      exact congrArg some (hsettled cs (List.suffix_refl cs) _ _ hkept h)

theorem Pattern.head?_ways_stop_eq_none (hsettled : pattern.Settled cs) :
    ((pattern.seq .stop).ways cs).head?.map Match.kept = none ↔ ¬ pattern.Form cs := by
  rw [Option.eq_none_iff_forall_ne_some, Pattern.Form, not_exists]
  exact forall_congr' fun kept => not_congr (Pattern.head?_ways_stop hsettled)

theorem longest_self {P : List Char → Prop} (h : P cs) : Longest P cs (some cs) :=
  ⟨List.suffix_refl _, h, fun _ hv _ => hv⟩

theorem longest_cons {P : List Char → Prop} {w : Option (List Char)} (h : ¬ P (c :: cs)) :
    Longest P (c :: cs) w ↔ Longest P cs w := by
  have hsuffix : ∀ v, P v → (v <:+ c :: cs ↔ v <:+ cs) := by
    intro v hv
    rw [List.suffix_cons_iff]
    exact or_iff_right fun heq => h (heq ▸ hv)
  cases w with
  | none => exact forall_congr' fun v => ⟨fun hv h hP => hv ((hsuffix v hP).2 h) hP,
      fun hv h hP => hv ((hsuffix v hP).1 h) hP⟩
  | some w =>
    constructor
    · rintro ⟨hw, hP, hlongest⟩
      exact ⟨(hsuffix w hP).1 hw, hP, fun v hv hPv => hlongest v ((hsuffix v hPv).2 hv) hPv⟩
    · rintro ⟨hw, hP, hlongest⟩
      exact ⟨(hsuffix w hP).2 hw, hP, fun v hv hPv => hlongest v ((hsuffix v hPv).1 hv) hPv⟩

theorem longest_nil {P : List Char → Prop} (h : ¬ P []) : Longest P [] none := by
  intro v hv
  rw [List.suffix_nil.1 hv]
  exact h

/-- The leftmost match that ends with the text is the longest suffix of the form. -/
theorem Pattern.find_longest (hsettled : pattern.Settled cs) :
    ∃ w, Longest pattern.Form cs w ∧
      ∀ kept, (pattern.seq .stop).find cs = some kept ↔
        ∃ v, w = some v ∧ pattern.Takes v kept [] := by
  induction cs with
  | nil =>
    by_cases hform : pattern.Form []
    · refine ⟨some [], longest_self hform, fun kept => ?_⟩
      rw [Pattern.find, Pattern.head?_ways_stop hsettled]
      simp
    · refine ⟨none, longest_nil hform, fun kept => ?_⟩
      rw [Pattern.find, (Pattern.head?_ways_stop_eq_none hsettled).2 hform]
      simp
  | cons c cs ih =>
    by_cases hform : pattern.Form (c :: cs)
    · refine ⟨some (c :: cs), longest_self hform, fun kept => ?_⟩
      obtain ⟨kept', hkept'⟩ := hform
      rw [Pattern.find, (Pattern.head?_ways_stop hsettled).2 hkept', Option.some_or,
        ← (Pattern.head?_ways_stop hsettled).2 hkept', Pattern.head?_ways_stop hsettled]
      simp
    · obtain ⟨w, hw, hfind⟩ := ih fun v hv => hsettled v (hv.trans (List.suffix_cons c cs))
      refine ⟨w, (longest_cons hform).2 hw, fun kept => ?_⟩
      rw [Pattern.find, (Pattern.head?_ways_stop_eq_none hsettled).2 hform, Option.none_or]
      exact hfind kept

/-- A search finds what the longest suffix of the form keeps. -/
theorem Pattern.find_eq_some_iff (hsettled : pattern.Settled cs) :
    (pattern.seq .stop).find cs = some kept ↔
      ∃ v, Longest pattern.Form cs (some v) ∧ pattern.Takes v kept [] := by
  obtain ⟨w, hw, hfind⟩ := Pattern.find_longest hsettled
  rw [hfind]
  constructor
  · rintro ⟨v, rfl, hv⟩
    exact ⟨v, hw, hv⟩
  · rintro ⟨v, hlongest, hv⟩
    exact ⟨v, hw.unique hlongest, hv⟩

theorem Pattern.find_eq_none (h : ∀ text, text <:+ cs → ∀ kept, ¬ pattern.Takes text kept []) :
    (pattern.seq .stop).find cs = none := by
  have hsettled : pattern.Settled cs := fun text htext kept _ htaken _ =>
    absurd htaken (h text htext kept)
  rw [Option.eq_none_iff_forall_ne_some]
  intro kept hfound
  obtain ⟨v, hv, htaken⟩ := (Pattern.find_eq_some_iff hsettled).1 hfound
  exact h v hv.1 kept htaken

/-- If a match takes up `tail` at the end of the text and a part of `stem` in front of it that has
the form `P`, then the search finds the longest such part. -/
theorem Pattern.find_before {P : List Char → Prop} {stem tail : List Char} {w : Option (List Char)}
    {keeps : List Char → List (List Char)} (hw : Longest P stem w)
    (hmatch : ∀ v, P v → pattern.Takes (v ++ tail) (keeps v) [])
    (honly : ∀ text, text <:+ stem ++ tail → ∀ kept, pattern.Takes text kept [] →
      ∃ v, text = v ++ tail ∧ v <:+ stem ∧ P v ∧ kept = keeps v) :
    (pattern.seq .stop).find (stem ++ tail) = w.map keeps := by
  have hsettled : pattern.Settled (stem ++ tail) := by
    intro text htext kept kept' h h'
    obtain ⟨v, rfl, -, -, rfl⟩ := honly text htext kept h
    obtain ⟨v', heq, -, -, rfl⟩ := honly _ htext kept' h'
    rw [List.append_cancel_right heq]
  have hlongest : ∀ v, Longest P stem (some v) →
      Longest pattern.Form (stem ++ tail) (some (v ++ tail)) := by
    rintro v ⟨hv, hP, hmost⟩
    refine ⟨List.suffix_append_self_iff.2 hv, ⟨_, hmatch v hP⟩, ?_⟩
    rintro text htext ⟨kept, hkept⟩
    obtain ⟨v', rfl, hv', hP', -⟩ := honly text htext kept hkept
    exact List.suffix_append_self_iff.2 (hmost v' hv' hP')
  apply Option.ext
  intro kept
  rw [Pattern.find_eq_some_iff hsettled, Option.map_eq_some_iff]
  constructor
  · rintro ⟨text, htext, htaken⟩
    obtain ⟨v, rfl, hv, hP, rfl⟩ := honly text htext.1 kept htaken
    refine ⟨v, hw.unique ⟨hv, hP, fun v' hv' hP' => ?_⟩, rfl⟩
    have hform : pattern.Form (v' ++ tail) := ⟨_, hmatch v' hP'⟩
    exact List.suffix_append_self_iff.1
      (htext.2.2 _ (List.suffix_append_self_iff.2 hv') hform)
  · rintro ⟨v, rfl, rfl⟩
    exact ⟨v ++ tail, hlongest v hw, hmatch v hw.2.1⟩

end Endings

end PromqlServer.Text
