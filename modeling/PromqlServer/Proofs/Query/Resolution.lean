import PromqlServer.Proofs.Query.Braces

/-!
Where `offset_at` finds positions. A position is found if the text has its line, and then between
two characters of this line; a later position is not found earlier (`offsetAt_mono`); and the
position that is counted at a place of the text is found at this place (`Position.origin_after`). A
word of 32 bits is enough to count the columns, as long as it can measure the text
(`columnOffset32_eq`).
-/

namespace PromqlServer.Text

/-! ## Places -/

section Places

variable {a b cs : List Char} {p q : Position} {n : Nat}

theorem byteSize_ofList (cs : List Char) : (String.ofList cs).utf8ByteSize = byteSize cs := by
  induction cs with
  | nil => rfl
  | cons c cs ih =>
    rw [← List.singleton_append, String.ofList_append, String.utf8ByteSize_append, ih,
      ← String.singleton_eq_ofList, String.utf8ByteSize_singleton]
    rfl

/-- The places between characters are the lengths of the parts that a text can start with. -/
theorem isValid_iff {content : String} : (String.Pos.Raw.mk n).IsValid content ↔
    ∃ before after, content.toList = before ++ after ∧ n = byteSize before := by
  rw [String.Pos.Raw.isValid_iff_exists_append]
  constructor
  · rintro ⟨front, back, rfl, hend⟩
    refine ⟨front.toList, back.toList, String.toList_append, ?_⟩
    rw [← byteSize_ofList, String.ofList_toList]
    exact congrArg String.Pos.Raw.byteIdx hend
  · rintro ⟨before, after, hcut, rfl⟩
    refine ⟨String.ofList before, String.ofList after, ?_, ?_⟩
    · rw [← String.ofList_append, ← hcut, String.ofList_toList]
    · rw [← byteSize_ofList]
      rfl

/-- The position at the end of a text is told by its line feeds and what stands behind the last of
them. -/
theorem Position.origin_after (cs : List Char) :
    Position.origin.after cs = ⟨cs.count '\n', width (longestSuffix (· ≠ '\n') cs)⟩ := by
  have hcolumn : (Position.origin.after cs).character
      = width (longestSuffix (· ≠ '\n') cs) := by
    induction cs using line_induction with
    | last l hl =>
      have hall : ∀ c ∈ l, decide (c ≠ '\n') = true := by
        intro c hc
        exact decide_eq_true fun heq => hl (heq ▸ hc)
      have hwhole : longestSuffix (· ≠ '\n') l = l :=
        longestSuffix_of_stops (a := []) (by simp [Stops]) hall
      rw [Position.after_of_notMem hl, hwhole]
      exact Nat.zero_add _
    | more l cs hl ih =>
      have hstops : Stops (· ≠ '\n') (l ++ ['\n']) := by simp [Stops]
      rw [Position.origin_after_line hl, ih, List.append_cons,
        longestSuffix_append_of_stops hstops]
  rw [← Position.origin_after_count, ← hcolumn]

/-! ## The order of places -/

theorem columnOffset_mono {character character' : Nat} (h : character ≤ character') (units : Nat)
    (cs : List Char) : columnOffset character units cs ≤ columnOffset character' units cs := by
  induction cs generalizing units with
  | nil => exact Nat.le_refl _
  | cons c cs ih =>
    rw [columnOffset, columnOffset]
    split
    · exact Nat.zero_le _
    · rename_i hstop
      simp only [Bool.or_eq_true, decide_eq_true_eq, not_or] at hstop
      rw [if_neg (by simp [hstop.2]; omega)]
      exact Nat.add_le_add_left (ih _) _

/-- What has fewer line feeds of a text in it is shorter. -/
theorem byteSize_le_of_count (ha : a <+: cs) (hb : b <+: cs) (h : a.count '\n' < b.count '\n') :
    byteSize a ≤ byteSize b := by
  rcases List.prefix_or_prefix_of_prefix ha hb with ⟨more, rfl⟩ | hba
  · rw [byteSize_append]
    exact Nat.le_add_right _ _
  · have hcount := hba.sublist.count_le '\n'
    omega

/-- In front of a position that is found every position is found, and none of them further on. -/
theorem offsetAt_mono (h : p ≤ q) (hq : offsetAt cs q = some n) :
    ∃ m, offsetAt cs p = some m ∧ m ≤ n := by
  obtain ⟨before', after', rfl, rfl, hcount'⟩ := offsetAt_line hq
  rcases Position.le_iff.1 h with hline | ⟨hline, hcharacter⟩
  · have hle : p.line ≤ (before' ++ after').count '\n' := by
      rw [List.count_append]
      omega
    obtain ⟨before, after, hcut, hcount, hp⟩ := offsetAt_found hle
    refine ⟨byteSize before, hp, byteSize_le_of_count ⟨after, hcut.symm⟩ ⟨after', rfl⟩ ?_⟩
    omega
  · -- both columns are counted from the start of the same line
    rw [offsetAt, ← hline] at hq
    obtain ⟨found, hstart, hcolumn⟩ := Option.bind_eq_some_iff.1 hq
    refine ⟨found.1 + columnOffset p.character 0 found.2, by simp [offsetAt, hstart], ?_⟩
    rw [← Option.some.inj hcolumn]
    exact Nat.add_le_add_left (columnOffset_mono hcharacter 0 _) _

end Places

/-! ## Columns in words -/

/-- As `columnOffset`, with the units counted in a word, which wraps around. -/
def columnOffset32 (character : UInt32) : UInt32 → List Char → Nat
  | _, [] => 0
  | units, c :: cs =>
    if character ≤ units || c = '\n' then 0
    else c.utf8Size + columnOffset32 character (units + UInt32.ofNat (units16 c)) cs

/-- As `offsetAt`, with the units counted in a word. -/
def offsetAt32 (content : List Char) (line character : UInt32) : Option Nat := do
  let (start, text) ← lineStart line.toNat content
  return start + columnOffset32 character 0 text

theorem units16_le (c : Char) : units16 c ≤ 2 := by
  unfold units16
  split <;> decide

/-- The count does not wrap around in a text that a word can measure. -/
theorem columnOffset32_eq (character : UInt32) {units : UInt32} {cs : List Char}
    (h : units.toNat + width cs < UInt32.size) :
    columnOffset32 character units cs = columnOffset character.toNat units.toNat cs := by
  induction cs generalizing units with
  | nil => rfl
  | cons c cs ih =>
    have hunits := units16_le c
    rw [width, UInt32.size] at h
    have hnext : (units + UInt32.ofNat (units16 c)).toNat = units.toNat + units16 c := by
      rw [UInt32.toNat_add, UInt32.toNat_ofNat']
      omega
    rw [columnOffset32, columnOffset, ih (by rw [UInt32.size]; omega), hnext]
    simp only [UInt32.le_iff_toNat_le]

theorem offsetAt32_eq {content : List Char} (h : width content < UInt32.size)
    (line character : UInt32) :
    offsetAt32 content line character = offsetAt content ⟨line.toNat, character.toNat⟩ := by
  by_cases hline : line.toNat ≤ content.count '\n'
  · obtain ⟨above, text, rfl, -, hstart⟩ := lineStart_cut hline
    rw [width_append] at h
    have hcolumn : columnOffset32 character 0 text = columnOffset character.toNat 0 text :=
      columnOffset32_eq character (by rw [UInt32.toNat_zero]; omega)
    simp [offsetAt32, offsetAt, hstart, hcolumn]
  · have hstart := lineStart_past (Nat.lt_of_not_le hline)
    simp [offsetAt32, offsetAt, hstart]

end PromqlServer.Text

namespace PromqlServer.Query

open PromqlServer.Text

/-- What is found at the positions of a text. -/
structure Resolved (content : String) : Prop where
  /-- Columns can be counted in words of 32 bits. -/
  counted : ∀ line character : UInt32, offsetAt32 content.toList line character
    = offsetAt content.toList ⟨line.toNat, character.toNat⟩
  /-- Only positions below the last line are not found. -/
  missing : ∀ p, offsetAt content.toList p = none ↔ content.toList.count '\n' < p.line
  /-- Every line that is there can be cut off where it starts. -/
  started : ∀ n ≤ content.toList.count '\n', ∃ start text,
    lineStart n content.toList = some (start, text) ∧ dropBytes start content.toList = some text
  /-- A position is found between two characters, behind the line feed in front of its line and not
  behind the one at its end: as many line feeds stand in front of it as lines do. The text in front
  of it can be cut off there, and can be cut at its open brace. -/
  placed : ∀ p offset, offsetAt content.toList p = some offset →
    (String.Pos.Raw.mk offset).IsValid content ∧ ∃ before,
      takeBytes offset content.toList = some before ∧ before.count '\n' = p.line ∧
      ∀ brace, openBrace before = some brace →
        (takeBytes brace before).isSome ∧ (dropBytes (brace + 1) before).isSome
  /-- Positions are found in their order. -/
  ordered : ∀ p q, p ≤ q → ∀ offset, offsetAt content.toList q = some offset →
    ∃ earlier, offsetAt content.toList p = some earlier ∧ earlier ≤ offset
  /-- A place between two characters is found by the line feeds in front of it and the units behind
  the last of them. -/
  inverted : ∀ offset, (String.Pos.Raw.mk offset).IsValid content → ∃ before,
    takeBytes offset content.toList = some before ∧
      offsetAt content.toList ⟨before.count '\n', width (longestSuffix (· ≠ '\n') before)⟩
        = some offset

/-- The text in front of an open brace and the text behind it can be cut off. -/
theorem cuts_at_brace {before : List Char} {brace : Nat} (h : openBrace before = some brace) :
    (takeBytes brace before).isSome ∧ (dropBytes (brace + 1) before).isSome := by
  obtain ⟨selected, inside, rfl, rfl⟩ := openBrace_cut h
  rw [takeBytes_append, dropBytes_brace]
  exact ⟨rfl, rfl⟩

/-- In a text that a word can measure, positions are found on their lines and in their order, all
that is cut is cut between characters, and every place between characters is found by the position
that is counted there. -/
theorem positions_resolve {content : String} (hsize : width content.toList < UInt32.size) :
    Resolved content where
  counted := offsetAt32_eq hsize
  missing _ := offsetAt_eq_none_iff
  started n hn := by
    obtain ⟨above, text, hcut, -, hstart⟩ := lineStart_cut hn
    exact ⟨byteSize above, text, hstart, by rw [hcut, dropBytes_append]⟩
  placed p offset hoffset := by
    obtain ⟨before, after, hcut, rfl, hcount⟩ := offsetAt_line hoffset
    refine ⟨isValid_iff.2 ⟨before, after, hcut, rfl⟩, before, ?_, hcount, fun _ => cuts_at_brace⟩
    rw [hcut, takeBytes_append]
  ordered _ _ hle _ hoffset := offsetAt_mono hle hoffset
  inverted offset hvalid := by
    obtain ⟨before, after, hcut, rfl⟩ := isValid_iff.1 hvalid
    refine ⟨before, by rw [hcut, takeBytes_append], ?_⟩
    rw [hcut, ← Position.origin_after, offsetAt_after]

/-- A column inside of a character of two units and four bytes is found behind the character. -/
theorem positions_resolve_pair :
    width "é😀\x7b\n€".toList < UInt32.size ∧ offsetAt32 "é😀\x7b\n€".toList 0 2 = some 6 ∧
      ∃ before, takeBytes 6 "é😀\x7b\n€".toList = some before ∧ before.count '\n' = 0 := by
  have hsize : width "é😀\x7b\n€".toList < UInt32.size := by decide
  have hresolved := positions_resolve hsize
  have hoffset : offsetAt "é😀\x7b\n€".toList ⟨0, 2⟩ = some 6 := by decide
  obtain ⟨-, before, hbefore, hcount, -⟩ := hresolved.placed ⟨0, 2⟩ 6 hoffset
  exact ⟨hsize, (hresolved.counted 0 2).trans hoffset, before, hbefore, hcount⟩

end PromqlServer.Query
