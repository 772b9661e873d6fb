import Mathlib.Data.List.Forall2
import Mathlib.Data.List.Induction
import PromqlServer.Proofs.Text.Cuts
import PromqlServer.Query.Completion

/-!
`open_brace`, the search for the selector around the cursor. `Passed` says all that one character
can do to it; the brace that is found in the end stands in the text outside of strings
(`openBrace_cut`), and the string that the text ends in is the one that the text behind the brace
ends in.
-/

namespace PromqlServer.Query

open PromqlServer.Text

/-! ## One character -/

/-- All that the search can do at a character. -/
inductive Passed (s : BraceScan) (offset : Nat) (c : Char) : BraceScan → Prop
  | escaped {q : Char} : s.quote = some q → s.escaped = true →
      Passed s offset c { s with escaped := false }
  | escapes {q : Char} : s.quote = some q → s.escaped = false → c = '\\' → isRawQuote q = false →
      Passed s offset c { s with escaped := true }
  | closes {q : Char} : s.quote = some q → s.escaped = false → c = q →
      Passed s offset c { s with quote := none }
  | within {q : Char} : s.quote = some q → s.escaped = false → c ≠ q → Passed s offset c s
  | quotes : s.quote = none → isQuote c = true → Passed s offset c { s with quote := some c }
  | opens : s.quote = none → c = '{' → Passed s offset c { s with braces := offset :: s.braces }
  | shuts : s.quote = none → c = '}' → Passed s offset c { s with braces := s.braces.tail }
  | passes : s.quote = none → isQuote c = false → c ≠ '{' → c ≠ '}' → Passed s offset c s

theorem BraceScan.passed (s : BraceScan) (offset : Nat) (c : Char) :
    Passed s offset c (s.step offset c) := by
  unfold BraceScan.step
  split
  · rename_i q hq
    by_cases hescaped : s.escaped = true
    · rw [if_pos hescaped]
      exact .escaped hq hescaped
    rw [if_neg hescaped]
    rw [Bool.not_eq_true] at hescaped
    split
    · rename_i hback
      simp only [Bool.and_eq_true, decide_eq_true_eq, Bool.not_eq_eq_eq_not, Bool.not_true] at hback
      exact .escapes hq hescaped hback.1 hback.2
    · split
      · rename_i hc
        exact .closes hq hescaped hc
      · rename_i hc
        exact .within hq hescaped hc
  · rename_i hq
    by_cases hquote : isQuote c = true
    · rw [if_pos hquote]
      exact .quotes hq hquote
    rw [if_neg hquote]
    rw [Bool.not_eq_true] at hquote
    split
    · rename_i hc
      exact .opens hq hc
    · rename_i hopen
      split
      · rename_i hc
        exact .shuts hq hc
      · rename_i hshut
        exact .passes hq hquote hopen hshut

theorem BraceScan.step_open {s : BraceScan} {offset : Nat} (h : s.quote = none) :
    s.step offset '{' = { s with braces := offset :: s.braces } := by
  simp [BraceScan.step, h, isQuote]

/-- Braces do not matter for strings. -/
theorem BraceScan.step_strings {s s' : BraceScan} (hquote : s.quote = s'.quote)
    (hescaped : s.escaped = s'.escaped) (offset offset' : Nat) (c : Char) :
    (s.step offset c).quote = (s'.step offset' c).quote ∧
      (s.step offset c).escaped = (s'.step offset' c).escaped := by
  obtain ⟨quote, escaped, braces⟩ := s
  obtain ⟨quote', escaped', braces'⟩ := s'
  cases hquote
  cases hescaped
  cases quote with
  | none =>
    simp only [BraceScan.step]
    repeat' split
    all_goals exact ⟨rfl, rfl⟩
  | some q =>
    simp only [BraceScan.step]
    repeat' split
    all_goals exact ⟨rfl, rfl⟩

/-! ## A whole text -/

section Texts

variable {offset : Nat} {a b text selected inside : List Char} {c : Char} {s s' : BraceScan}

theorem braceScan_append :
    braceScan offset (a ++ b) s = braceScan (offset + byteSize a) b (braceScan offset a s) := by
  induction a generalizing offset s with
  | nil => rfl
  | cons c a ih => rw [List.cons_append, braceScan, ih, braceScan, byteSize, Nat.add_assoc]

/-- Where the search stands at the end of a text. -/
def searched (text : List Char) : BraceScan := braceScan 0 text BraceScan.empty

theorem searched_append : searched (a ++ b) = braceScan (byteSize a) b (searched a) := by
  rw [searched, braceScan_append, Nat.zero_add]
  rfl

theorem searched_concat : searched (a ++ [c]) = (searched a).step (byteSize a) c := by
  rw [searched_append]
  rfl

theorem openBrace_eq : openBrace text = (searched text).braces.head? := rfl

theorem braceScan_strings (hquote : s.quote = s'.quote) (hescaped : s.escaped = s'.escaped)
    (offset offset' : Nat) (text : List Char) :
    (braceScan offset text s).quote = (braceScan offset' text s').quote ∧
      (braceScan offset text s).escaped = (braceScan offset' text s').escaped := by
  induction text generalizing offset offset' s s' with
  | nil => exact ⟨hquote, hescaped⟩
  | cons c text ih =>
    obtain ⟨hq, he⟩ := BraceScan.step_strings hquote hescaped offset offset' c
    exact ih hq he _ _

/-- What the search knows of the text that it has seen. -/
structure Standing (text : List Char) (s : BraceScan) : Prop where
  /-- Only in strings something is escaped. -/
  outside : s.quote = none → s.escaped = false
  quotes : ∀ q ∈ s.quote, isQuote q = true
  braces : ∀ b ∈ s.braces, ∃ selected inside, text = selected ++ '{' :: inside ∧
    b = byteSize selected ∧ (searched selected).quote = none

theorem standing_searched (text : List Char) : Standing text (searched text) := by
  induction text using List.reverseRecOn with
  | nil =>
    exact ⟨fun _ => rfl, fun _ hq => absurd hq (Option.not_mem_none _),
      fun b hb => absurd hb List.not_mem_nil⟩
  | append_singleton text c ih =>
    have hkept : ∀ b ∈ (searched text).braces, ∃ selected inside,
        text ++ [c] = selected ++ '{' :: inside ∧ b = byteSize selected ∧
          (searched selected).quote = none := by
      intro b hb
      obtain ⟨selected, inside, rfl, hsize, hquote⟩ := ih.braces b hb
      exact ⟨selected, inside ++ [c], by simp, hsize, hquote⟩
    have hpassed := (searched text).passed (byteSize text) c
    rw [searched_concat]
    generalize (searched text).step (byteSize text) c = s at hpassed
    cases hpassed with
    | escaped => exact ⟨fun _ => rfl, ih.quotes, hkept⟩
    | escapes hq | within hq =>
      refine ⟨fun hnone => ?_, ih.quotes, hkept⟩
      rw [hq] at hnone
      cases hnone
    | closes _ hescaped =>
      exact ⟨fun _ => hescaped, fun _ hq => absurd hq (Option.not_mem_none _), hkept⟩
    | quotes _ hc =>
      refine ⟨fun hnone => absurd hnone (Option.some_ne_none _), ?_, hkept⟩
      rintro q ⟨⟩
      exact hc
    | opens hquote hc =>
      subst hc
      refine ⟨ih.outside, ih.quotes, List.forall_mem_cons.2 ⟨?_, hkept⟩⟩
      exact ⟨text, [], rfl, rfl, hquote⟩
    | shuts => exact ⟨ih.outside, ih.quotes, fun b hb => hkept b (List.mem_of_mem_tail hb)⟩
    | passes => exact ⟨ih.outside, ih.quotes, hkept⟩

theorem openBrace_cut {b : Nat} (h : openBrace text = some b) :
    ∃ selected inside, text = selected ++ '{' :: inside ∧ b = byteSize selected := by
  rw [openBrace_eq] at h
  obtain ⟨selected, inside, htext, hsize, -⟩ :=
    (standing_searched text).braces b (List.mem_of_mem_head? h)
  exact ⟨selected, inside, htext, hsize⟩

theorem byteSize_inj_of_prefix {x y x' y' : List Char} (h : x ++ y = x' ++ y')
    (hsize : byteSize x = byteSize x') : x = x' ∧ y = y' := by
  have hcut : some (x, y) = some (x', y') := by
    rw [← cutAt_append x y, ← cutAt_append x' y', h, hsize]
  cases hcut
  exact ⟨rfl, rfl⟩

/-- The text ends in a string if the text behind the open brace does, and in the same. -/
theorem quote_inside (h : openBrace (selected ++ '{' :: inside) = some (byteSize selected)) :
    (searched (selected ++ '{' :: inside)).quote = (searched inside).quote := by
  rw [openBrace_eq] at h
  obtain ⟨selected', inside', htext, hsize, hquote⟩ :=
    (standing_searched _).braces _ (List.mem_of_mem_head? h)
  obtain ⟨rfl, hinside⟩ := byteSize_inj_of_prefix htext hsize
  cases hinside
  have hbrace : searched (selected ++ ['{'])
      = { searched selected with braces := byteSize selected :: (searched selected).braces } := by
    rw [searched_concat, BraceScan.step_open hquote]
  have hescaped := (standing_searched selected).outside hquote
  rw [List.append_cons, searched_append, hbrace]
  exact (braceScan_strings hquote hescaped _ _ inside).1

end Texts

/-! ## What does not matter -/

/-- A character that can neither delimit a string nor open or shut a brace. -/
def isMute (c : Char) : Bool := !isQuote c && c != '{' && c != '}'

section Mute

variable {offset : Nat} {a b text : List Char} {c : Char} {s : BraceScan}

theorem isMute_iff : isMute c = true ↔ isQuote c = false ∧ c ≠ '{' ∧ c ≠ '}' := by
  simp [isMute, and_assoc]

/-- Only the escape of the next character can come from such a character. -/
theorem BraceScan.step_mute (hs : ∀ q ∈ s.quote, isQuote q = true) (hc : isMute c = true) :
    ∃ escaped, s.step offset c = { s with escaped := escaped } := by
  obtain ⟨hquote, hopen, hshut⟩ := isMute_iff.1 hc
  have hpassed := s.passed offset c
  generalize s.step offset c = s' at hpassed
  cases hpassed with
  | escaped | escapes => exact ⟨_, rfl⟩
  | within | passes => exact ⟨s.escaped, rfl⟩
  | closes hq _ hclose =>
    rw [hclose, hs _ hq] at hquote
    cases hquote
  | quotes _ hc' =>
    rw [hc'] at hquote
    cases hquote
  | opens _ hc' => exact absurd hc' hopen
  | shuts _ hc' => exact absurd hc' hshut

theorem braceScan_mute (hs : ∀ q ∈ s.quote, isQuote q = true) (h : ∀ c ∈ text, isMute c = true) :
    ∃ escaped, braceScan offset text s = { s with escaped := escaped } := by
  induction text generalizing offset s with
  | nil => exact ⟨s.escaped, rfl⟩
  | cons c text ih =>
    obtain ⟨hc, htext⟩ := List.forall_mem_cons.1 h
    obtain ⟨escaped, hstep⟩ := BraceScan.step_mute hs hc
    rw [braceScan, hstep]
    exact ih hs htext

/-- One that is not a backslash ends an escape. -/
theorem searched_rests (hc : isMute c = true) (hback : c ≠ '\\') :
    searched (a ++ [c]) = { searched a with escaped := false } := by
  obtain ⟨hquote, hopen, hshut⟩ := isMute_iff.1 hc
  have hrested : ∀ t : BraceScan, t.escaped = false → t = { t with escaped := false } := by
    rintro ⟨quote, escaped, braces⟩ ⟨⟩
    rfl
  have hstanding := standing_searched a
  have hpassed := (searched a).passed (byteSize a) c
  rw [searched_concat]
  generalize (searched a).step (byteSize a) c = s at hpassed
  cases hpassed with
  | escaped => rfl
  | escapes _ _ hc' => exact absurd hc' hback
  | within _ hescaped => exact hrested _ hescaped
  | passes hq => exact hrested _ (hstanding.outside hq)
  | closes hq _ hclose =>
    rw [hclose, hstanding.quotes _ hq] at hquote
    cases hquote
  | quotes _ hc' =>
    rw [hc'] at hquote
    cases hquote
  | opens _ hc' => exact absurd hc' hopen
  | shuts _ hc' => exact absurd hc' hshut

/-- Text without quotes and braces leaves no trace behind the next character. -/
theorem searched_mute (hb : ∀ d ∈ b, isMute d = true) (hc : isMute c = true) (hback : c ≠ '\\') :
    searched (a ++ b ++ [c]) = searched (a ++ [c]) := by
  obtain ⟨escaped, hscan⟩ := braceScan_mute (standing_searched a).quotes hb
  rw [searched_rests hc hback, searched_rests hc hback, searched_append, hscan]

end Mute

/-! ## Two texts with the same end -/

/-- An open brace that stands in the same place of two texts, `a ++ y` and `a' ++ y`: at an offset
that both know from their first parts, or in the part that they share. -/
inductive SamePlace (a a' y : List Char) (b b' : Nat) : Prop
  | early : b = b' → b ∈ (searched a).braces → SamePlace a a' y b b'
  | late {front inside : List Char} : y = front ++ '{' :: inside → b = byteSize (a ++ front) →
      b' = byteSize (a' ++ front) → SamePlace a a' y b b'

section Ends

variable {a a' y : List Char} {c : Char} {b b' offset : Nat} {s : BraceScan}

theorem SamePlace.mono (h : SamePlace a a' y b b') : SamePlace a a' (y ++ [c]) b b' := by
  cases h with
  | early heq hb => exact .early heq hb
  | @late front inside hy hb hb' =>
    have hlonger : y ++ [c] = front ++ '{' :: (inside ++ [c]) := by simp [hy]
    exact .late hlonger hb hb'

theorem BraceScan.step_braces : (s.step offset c).braces
    = if s.quote = none ∧ c = '{' then offset :: s.braces
      else if s.quote = none ∧ c = '}' then s.braces.tail else s.braces := by
  have hpassed := s.passed offset c
  generalize s.step offset c = s' at hpassed
  cases hpassed with
  | escaped hq | escapes hq | closes hq | within hq => simp [hq]
  | quotes hq hc =>
    have hopen : c ≠ '{' := by rintro rfl; cases hc
    have hshut : c ≠ '}' := by rintro rfl; cases hc
    simp [hopen, hshut]
  | opens hq hc => simp [hq, hc]
  | shuts hq hc => simp [hq, hc]
  | passes _ _ hopen hshut => simp [hopen, hshut]

/-- Texts that are alike to the search up to some point are alike from there on. -/
theorem braces_alike (h : searched a = searched a') (y : List Char) :
    List.Forall₂ (SamePlace a a' y) (searched (a ++ y)).braces (searched (a' ++ y)).braces := by
  induction y using List.reverseRecOn with
  | nil =>
    rw [List.append_nil, List.append_nil, ← h]
    exact List.forall₂_same.2 fun b hb => .early rfl hb
  | append_singleton y c ih =>
    have hquote : (searched (a ++ y)).quote = (searched (a' ++ y)).quote := by
      rw [searched_append, searched_append, h]
      exact (braceScan_strings rfl rfl _ _ y).1
    have hkept := ih.imp fun _ _ h => h.mono (c := c)
    rw [← List.append_assoc, ← List.append_assoc, searched_concat, searched_concat,
      BraceScan.step_braces, BraceScan.step_braces, hquote]
    split
    · rename_i hopen
      obtain ⟨-, rfl⟩ := hopen
      exact .cons (.late rfl rfl rfl) hkept
    · split
      · rw [← List.drop_one, ← List.drop_one]
        exact List.forall₂_drop 1 hkept
      · exact hkept

/-- The innermost open brace stands in the same place of both. -/
theorem openBrace_alike (h : searched a = searched a') (y : List Char) :
    (openBrace (a ++ y) = none ∧ openBrace (a' ++ y) = none) ∨
      ∃ b b', openBrace (a ++ y) = some b ∧ openBrace (a' ++ y) = some b' ∧
        SamePlace a a' y b b' := by
  have halike := braces_alike h y
  rw [openBrace_eq, openBrace_eq]
  generalize (searched (a ++ y)).braces = braces at halike
  generalize (searched (a' ++ y)).braces = braces' at halike
  cases halike with
  | nil => exact Or.inl ⟨rfl, rfl⟩
  | cons hplace _ => exact Or.inr ⟨_, _, rfl, rfl, hplace⟩

end Ends

/-! ## The context -/

section Contexts

variable {content before after selected inside : List Char} {p : Position}

theorem completionContext_eq_none (h : offsetAt content p = none) :
    completionContext content p = none := by
  rw [completionContext, h]
  rfl

theorem completionContext_eq (hcut : content = before ++ after)
    (hoffset : offsetAt content p = some (byteSize before)) :
    completionContext content p = contextAfter before := by
  rw [completionContext, hoffset, hcut]
  simp

theorem dropBytes_brace :
    dropBytes (byteSize selected + 1) (selected ++ '{' :: inside) = some inside := by
  have hsize : byteSize selected + 1 = byteSize (selected ++ ['{']) := by
    rw [byteSize_append]
    rfl
  rw [hsize, List.append_cons selected '{' inside, dropBytes_append]

/-- Both parts of the text are there to look at. -/
theorem contextAfter_inside
    (hbrace : openBrace (selected ++ '{' :: inside) = some (byteSize selected)) :
    contextAfter (selected ++ '{' :: inside)
      = match labelValue inside with
        | some (label, typed) => some (.labelValue (String.ofList label) (String.ofList typed))
        | none =>
          if quoteOpen inside then none
          else some (.labelName (nonempty (metricSuffix (dropSuffix isBlank selected)))
            (String.ofList (labelSuffix inside))) := by
  cases hvalue : labelValue inside with
  | none => simp [contextAfter, hbrace, dropBytes_brace, hvalue]
  | some found => simp [contextAfter, hbrace, dropBytes_brace, hvalue]

end Contexts

end PromqlServer.Query
