import PromqlServer.Url.Edit

/-!
Text that gets into a URL as it is. Words stand for themselves in a path and are never taken for dot
segments, and they are read after what was read before them. A value of a form has no character left
that would end it.
-/

namespace PromqlServer

/-- What is read in two steps is read in each of them. -/
theorem bind_eq_ok {ε α β : Type} {x : Except ε α} {f : α → Except ε β} {b : β}
    (h : (x >>= f) = .ok b) : ∃ a, x = .ok a ∧ f a = .ok b := by
  cases x with
  | error e => cases h
  | ok a => exact ⟨a, rfl, h⟩

namespace Url

/-! ## What stays -/

theorem withParameters_frame (u : Url) (pairs : List (String × String)) :
    (u.withParameters pairs).scheme = u.scheme ∧
      (u.withParameters pairs).authority = u.authority ∧
      (u.withParameters pairs).path = u.path := by
  unfold withParameters
  split
  · exact ⟨rfl, rfl, rfl⟩
  · split <;> exact ⟨rfl, rfl, rfl⟩

theorem withPath_frame (u : Url) (path : String) :
    (u.withPath path).scheme = u.scheme ∧ (u.withPath path).authority = u.authority := by
  simp only [withPath]
  split <;> exact ⟨rfl, rfl⟩

/-! ## Plain paths -/

/-- Letters, digits and underscores, which stand for themselves in a path. -/
def isWordChar (c : Char) : Bool := c.isAlphanum || c = '_'

/-- Words with slashes between them. -/
def IsPlain (cs : List Char) : Prop := ∀ c ∈ cs, c = '/' ∨ isWordChar c = true

instance : DecidablePred IsPlain := List.decidableBAll fun c => c = '/' ∨ isWordChar c = true

section Words

variable {c : Char} {cs segment path : List Char}

theorem ne_of_isWordChar (h : isWordChar c = true) {d : Char} (hd : isWordChar d = false) :
    c ≠ d := by
  rintro rfl
  rw [h] at hd
  cases hd

theorem toNat_of_isWordChar (h : isWordChar c = true) : 0x20 < c.toNat ∧ c.toNat ≤ 0x7E ∧
    c.toNat ≠ 0x60 := by
  have hval : c.toNat = c.val.toNat := rfl
  have hword : isWordChar c = ((decide (c.val ≥ 65 ∧ c.val ≤ 90) || c.val ≥ 97 && c.val ≤ 122)
      || c.val ≥ 48 && c.val ≤ 57 || c = '_') := rfl
  simp only [hword, ge_iff_le, Bool.or_eq_true, Bool.and_eq_true, decide_eq_true_eq,
    UInt32.le_iff_toNat_le] at h
  rw [hval]
  rcases h with ((⟨hl, hu⟩ | ⟨hl, hu⟩) | ⟨hl, hu⟩) | rfl
  · have hl' : 65 ≤ c.val.toNat := hl
    have hu' : c.val.toNat ≤ 90 := hu
    omega
  · have hl' : 97 ≤ c.val.toNat := hl
    have hu' : c.val.toNat ≤ 122 := hu
    omega
  · have hl' : 48 ≤ c.val.toNat := hl
    have hu' : c.val.toNat ≤ 57 := hu
    omega
  · decide

theorem pathSet_of_isWordChar (h : isWordChar c = true) : pathSet c = false := by
  obtain ⟨hlow, hhigh, hquote⟩ := toNat_of_isWordChar h
  have hlow' : ¬ c.toNat < 0x20 := by omega
  have hhigh' : ¬ 0x7E < c.toNat := by omega
  have hne : ∀ {d : Char}, isWordChar d = false → c ≠ d := ne_of_isWordChar h
  simp only [pathSet, fragmentSet, controlSet, hlow', hhigh', hquote, decide_false, Bool.or_false,
    hne (show isWordChar ' ' = false by decide), hne (show isWordChar '"' = false by decide),
    hne (show isWordChar '<' = false by decide), hne (show isWordChar '>' = false by decide),
    hne (show isWordChar '#' = false by decide), hne (show isWordChar '?' = false by decide),
    hne (show isWordChar '{' = false by decide), hne (show isWordChar '}' = false by decide)]

theorem isSlash_of_isWordChar (h : isWordChar c = true) (kind : Kind) :
    isSlash kind c = false := by
  have hne : ∀ {d : Char}, isWordChar d = false → c ≠ d := ne_of_isWordChar h
  simp [isSlash, hne (show isWordChar '/' = false by decide),
    hne (show isWordChar '\\' = false by decide)]

/-- All ways to write a dot segment but dots alone have a percent sign. -/
theorem not_dot_of_notMem (hpercent : '%' ∉ segment) (hsingle : segment ≠ ['.'])
    (hdouble : segment ≠ ['.', '.']) :
    isSingleDot segment = false ∧ isDoubleDot segment = false := by
  have hform : ∀ form ∈ dotForms, form = ['.'] ∨ '%' ∈ form := by decide
  constructor
  · rw [isSingleDot, ← Bool.not_eq_true, List.contains_iff_mem]
    intro hmem
    exact (hform segment hmem).elim hsingle hpercent
  · rw [isDoubleDot, ← Bool.not_eq_true]
    intro hany
    obtain ⟨a, ha, hrest⟩ := List.any_eq_true.1 hany
    obtain ⟨b, hb, heq⟩ := List.any_eq_true.1 hrest
    obtain rfl : segment = a ++ b := of_decide_eq_true heq
    rw [List.mem_append, not_or] at hpercent
    obtain rfl := (hform a ha).resolve_right hpercent.1
    obtain rfl := (hform b hb).resolve_right hpercent.2
    exact hdouble rfl

theorem not_dot_of_word (h : ∀ c ∈ segment, isWordChar c = true) :
    isSingleDot segment = false ∧ isDoubleDot segment = false := by
  have hnotMem : ∀ {d : Char}, isWordChar d = false → d ∉ segment := fun hd hmem =>
    ne_of_isWordChar (h _ hmem) hd rfl
  have hdot : '.' ∉ segment := hnotMem (by decide)
  refine not_dot_of_notMem (hnotMem (by decide)) ?_ ?_
  · rintro rfl
    exact hdot (by simp)
  · rintro rfl
    exact hdot (by simp)

/-- What is no dot segment is added to a path as it is. -/
theorem addSegment_of_not_dot (h : isSingleDot segment = false ∧ isDoubleDot segment = false)
    (slash : Bool) :
    addSegment .special path segment slash
      = path ++ segment ++ (if slash then ['/'] else []) := by
  simp [addSegment, h.1, h.2]

/-- What is read up to a slash does not depend on what comes after it. -/
theorem readPath_append (kind : Kind) (hkind : kind ≠ .file) (before after : List Char)
    (path segment : List Char) :
    readPath kind (fun _ => false) path segment (before ++ '/' :: after)
      = readPath kind (fun _ => false)
        (readPath kind (fun _ => false) path segment (before ++ ['/'])).1 [] after := by
  have hslash : isSlash kind '/' = true := by simp [isSlash]
  induction before generalizing path segment with
  | nil =>
    have hlast : ∀ path, addSegment kind path [] false = path := by
      intro path
      have hempty : ∀ c ∈ ([] : List Char), isWordChar c = true := by simp
      obtain ⟨hsingle, hdouble⟩ := not_dot_of_word hempty
      simp [addSegment, hsingle, hdouble, hkind]
    simp only [List.nil_append, readPath, hslash, if_true, List.reverse_nil, hlast]
  | cons c before ih =>
    simp only [List.cons_append, readPath]
    split
    · exact ih _ _
    · exact ih _ _

end Words

/-! ## Encoded characters -/

theorem upperHex_isAlphanum (n : Nat) (h : n < 16) : (upperHex n).isAlphanum = true := by
  have hall : ∀ n : Fin 16, (upperHex n.1).isAlphanum = true := by decide
  exact hall ⟨n, h⟩

/-- A character is kept, or percent signs and digits stand for it. -/
theorem mem_encodeChar {set : Char → Bool} {c x : Char} (h : x ∈ encodeChar set c) :
    x = '%' ∨ x.isAlphanum = true ∨ x = c ∧ set c = false := by
  rw [encodeChar] at h
  split at h
  · obtain ⟨b, -, hx⟩ := List.mem_flatMap.1 h
    have hb : b.toNat < 256 := b.toNat_lt
    simp only [encodeByte, List.mem_cons, List.not_mem_nil, or_false] at hx
    rcases hx with rfl | rfl | rfl
    · exact Or.inl rfl
    · exact Or.inr (Or.inl (upperHex_isAlphanum _ (by omega)))
    · exact Or.inr (Or.inl (upperHex_isAlphanum _ (by omega)))
  · rename_i hkept
    exact Or.inr (Or.inr ⟨List.mem_singleton.1 h, Bool.not_eq_true _ ▸ hkept⟩)

/-! ## Forms -/

/-- What is left of a name or value of a form: letters, digits, four marks, plus and percent
signs. -/
def isFormChar (c : Char) : Bool :=
  c.isAlphanum || ['*', '-', '.', '_', '+', '%'].contains c

theorem encodeForm_isForm (cs : List Char) : ∀ c ∈ encodeForm cs, isFormChar c = true := by
  intro x hx
  obtain ⟨c, -, hx⟩ := List.mem_flatMap.1 hx
  split at hx
  · cases List.mem_singleton.1 hx
    decide
  · rcases mem_encodeChar hx with rfl | halpha | ⟨rfl, hkept⟩
    · decide
    · rw [isFormChar, halpha]
      rfl
    · simp only [formSet, Bool.not_eq_false', Bool.or_eq_true, decide_eq_true_eq] at hkept
      rcases hkept with (((halpha | rfl) | rfl) | rfl) | rfl
      · rw [isFormChar, halpha]
        rfl
      all_goals decide

/-- One parameter, whose name and value have nothing in them that ends a parameter. -/
theorem formQuery_singleton (name value : String) :
    (formQuery [(name, value)]).toList = encodeForm name.toList ++ '=' :: encodeForm value.toList ∧
      '&' ∉ (formQuery [(name, value)]).toList ∧ '#' ∉ (formQuery [(name, value)]).toList ∧
      (formQuery [(name, value)]).toList.count '=' = 1 := by
  have hquery : (formQuery [(name, value)]).toList
      = encodeForm name.toList ++ '=' :: encodeForm value.toList := by
    show (String.ofList (encodeForm name.toList) ++ "="
      ++ String.ofList (encodeForm value.toList)).toList = _
    simp
  have hnotin : ∀ {c : Char} (cs : List Char), isFormChar c = false → c ∉ encodeForm cs := by
    intro c cs hc hmem
    rw [encodeForm_isForm cs c hmem] at hc
    cases hc
  rw [hquery]
  refine ⟨rfl, ?_, ?_, ?_⟩
  · simp [hnotin name.toList (show isFormChar '&' = false by decide),
      hnotin value.toList (show isFormChar '&' = false by decide)]
  · simp [hnotin name.toList (show isFormChar '#' = false by decide),
      hnotin value.toList (show isFormChar '#' = false by decide)]
  · simp [List.count_eq_zero.2 (hnotin name.toList (show isFormChar '=' = false by decide)),
      List.count_eq_zero.2 (hnotin value.toList (show isFormChar '=' = false by decide))]

end Url

end PromqlServer
