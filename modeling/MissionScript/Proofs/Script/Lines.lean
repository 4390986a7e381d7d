import MissionScript.Proofs.Script.Instruction

/-!
# Lines

The lines of a source are cut twice. Blocks are made of lines that end in line feeds; within a block, a
carriage return ends a line too. A line is read as it is when more text stands behind it, and so is the
statement on it.
-/

namespace MissionScript

/-! ### Cutting a text into lines -/

theorem flatten_consToFirst (c : Char) (lines : List Text) :
    (consToFirst c lines).flatten = c :: lines.flatten := by
  cases lines <;> rfl

/-- Nothing is lost when a text is cut into lines. -/
theorem flatten_cutLines (text : Text) : (cutLines text).flatten = text := by
  fun_induction cutLines text with
  | case1 => rfl
  | case2 text ih => rw [List.flatten_cons, ih]; rfl
  | case3 c text _ _ ih => rw [List.flatten_cons, ih]; rfl
  | case4 c text _ _ ih => rw [flatten_consToFirst, ih]

/-- A line that is cut off from what stands behind it. -/
structure IsLine (line rest : Text) : Prop where
  alone : cutLines line = [line]
  /-- A line feed ends it. -/
  feed : '\n' ∉ line.dropLast
  ended : rest ≠ [] → line.getLast? = some '\n' ∨ line.getLast? = some '\r' ∧ rest.head? ≠ some '\n'

namespace IsLine

variable {line rest : Text}

theorem filled (isLine : IsLine line rest) : line ≠ [] := by
  rintro rfl
  cases isLine.alone

end IsLine

/-- What is cut off first is a line, and the rest is cut as it would be on its own. -/
theorem isLine_of_cutLines {text line : Text} {lines : List Text} (cut : cutLines text = line :: lines) :
    IsLine line lines.flatten ∧ cutLines lines.flatten = lines := by
  fun_induction cutLines text generalizing line lines with
  | case1 => cases cut
  | case2 text ih =>
      cases cut
      rw [flatten_cutLines]
      exact ⟨⟨by simp [cutLines], by decide, fun _ => .inl rfl⟩, rfl⟩
  | case3 c text other ends ih =>
      cases cut
      rw [flatten_cutLines]
      refine ⟨⟨by simp [cutLines, ends], List.not_mem_nil, fun _ => ?_⟩, rfl⟩
      rw [Bool.or_eq_true, beq_iff_eq, beq_iff_eq] at ends
      rcases ends with rfl | rfl
      · refine .inr ⟨rfl, fun feed => ?_⟩
        obtain ⟨behind, rfl⟩ := List.head?_eq_some_iff.mp feed
        exact other behind rfl rfl
      · exact .inl rfl
  | case4 c text other inside ih =>
      rw [Bool.or_eq_true, beq_iff_eq, beq_iff_eq, not_or] at inside
      cases behind : cutLines text with
      | nil =>
          rw [behind] at cut
          cases cut
          refine ⟨⟨?_, List.not_mem_nil, fun none => absurd rfl none⟩, rfl⟩
          simp [cutLines, inside, consToFirst]
      | cons first others =>
          rw [behind] at cut
          cases cut
          obtain ⟨isLine, rest⟩ := ih behind
          have filled := isLine.filled
          refine ⟨⟨?_, ?_, fun more => ?_⟩, rest⟩
          · simp [cutLines, inside, isLine.alone, consToFirst]
          · rw [List.dropLast_cons_of_ne_nil filled, List.mem_cons, not_or]
            exact ⟨Ne.symm inside.2, isLine.feed⟩
          · rw [List.getLast?_cons_of_ne_nil filled]
            exact isLine.ended more

theorem cutLines_cons {c : Char} {text : Text} (other : c = '\r' → text.head? ≠ some '\n') :
    cutLines (c :: text) =
      if c == '\r' || c == '\n' then [c] :: cutLines text else consToFirst c (cutLines text) := by
  rw [cutLines]
  rintro behind rfl rfl
  exact other rfl rfl

/-- A text may be cut where a line ends. -/
theorem cutLines_append {left right : Text}
    (ended : ∀ c ∈ left.getLast?, right ≠ [] → c = '\n' ∨ c = '\r' ∧ right.head? ≠ some '\n') :
    cutLines (left ++ right) = cutLines left ++ cutLines right := by
  fun_induction cutLines left with
  | case1 => rfl
  | case2 text ih =>
      have rest := ih fun c last => ended c (List.mem_getLast?_cons (List.mem_getLast?_cons last))
      rw [List.cons_append, List.cons_append, cutLines, rest]
      rfl
  | case3 c text other ends ih =>
      have rest := ih fun d last => ended d (List.mem_getLast?_cons last)
      have apart : c = '\r' → (text ++ right).head? ≠ some '\n' := by
        rintro rfl
        cases text with
        | nil =>
            intro feed
            rcases ended _ rfl (by rintro rfl; cases feed) with same | ⟨-, apart⟩
            · cases same
            · exact apart feed
        | cons d text =>
            intro feed
            exact other text rfl (congrArg (· :: text) (Option.some.inj feed))
      rw [List.cons_append, cutLines_cons apart, if_pos ends, rest]
      rfl
  | case4 c text other inside ih =>
      have rest := ih fun d last => ended d (List.mem_getLast?_cons last)
      have apart : c = '\r' → (text ++ right).head? ≠ some '\n' := by
        rintro rfl
        exact absurd rfl inside
      rw [List.cons_append, cutLines_cons apart, if_neg inside, rest]
      cases cut : cutLines text with
      | cons first others => rfl
      | nil =>
          obtain rfl : text = [] := by rw [← flatten_cutLines text, cut]; rfl
          by_cases none : right = []
          · rw [none]
            rfl
          · rcases ended c rfl none with rfl | ⟨rfl, -⟩
            · exact absurd rfl inside
            · exact absurd rfl inside

/-- The lines behind some others are cut as they would be on their own. -/
theorem cutLines_flatten_of_append {text : Text} {before lines : List Text}
    (cut : cutLines text = before ++ lines) : cutLines lines.flatten = lines := by
  induction before generalizing text with
  | nil =>
      rw [List.nil_append] at cut
      rw [← cut, flatten_cutLines]
  | cons line before ih => exact ih (isLine_of_cutLines cut).2

namespace IsLine

variable {line rest more : Text}

/-- It does not matter what stands behind a line, as long as it does not go on with its end. -/
theorem congr (isLine : IsLine line rest) (filled : rest ≠ [])
    (same : more.head? = some '\n' → rest.head? = some '\n') : IsLine line more where
  alone := isLine.alone
  feed := isLine.feed
  ended _ := (isLine.ended filled).imp_right fun ⟨last, apart⟩ => ⟨last, fun feed => apart (same feed)⟩

theorem of_prefix (isLine : IsLine line rest) (leads : more <+: rest) : IsLine line more := by
  by_cases filled : more = []
  · exact ⟨isLine.alone, isLine.feed, fun more => absurd filled more⟩
  · refine isLine.congr ?_ fun feed => Text.head?_of_prefix leads filled ▸ feed
    rintro rfl
    exact filled (List.prefix_nil.mp leads)

theorem append (isLine : IsLine line rest) (filled : rest ≠ []) (more : Text) :
    IsLine line (rest ++ more) :=
  isLine.congr filled fun feed => Text.head?_of_prefix (List.prefix_append rest more) filled ▸ feed

theorem cutLines_append (isLine : IsLine line rest) :
    cutLines (line ++ rest) = line :: cutLines rest := by
  rw [MissionScript.cutLines_append, isLine.alone, List.singleton_append]
  intro c last filled
  rw [Option.mem_def] at last
  rcases isLine.ended filled with feed | ⟨alone, apart⟩
  · exact .inl (Option.some.inj (last.symm.trans feed))
  · exact .inr ⟨Option.some.inj (last.symm.trans alone), apart⟩

end IsLine

/-! ### Lines that end in line feeds -/

namespace Text

theorem lines_cons_of_ne {c : Char} (other : c ≠ '\n') (text : Text) :
    lines (c :: text) = consToFirst c (lines text) := by
  rw [lines, if_neg (by simpa using other)]
  cases lines text <;> rfl

theorem lines_feed (text : Text) : lines ('\n' :: text) = ['\n'] :: lines text := rfl

theorem flatten_lines (text : Text) : (lines text).flatten = text := by
  induction text with
  | nil => rfl
  | cons c text ih =>
      by_cases feed : c = '\n'
      · rw [feed, lines_feed, List.flatten_cons, ih]
        rfl
      · rw [lines_cons_of_ne feed, flatten_consToFirst, ih]

theorem lines_eq_nil_iff {text : Text} : lines text = [] ↔ text = [] := by
  constructor
  · intro none
    rw [← flatten_lines text, none]
    rfl
  · rintro rfl
    rfl

/-- A text may be cut behind a line feed. -/
theorem lines_append {left : Text} (feed : ∀ c ∈ left.getLast?, c = '\n') (right : Text) :
    lines (left ++ right) = lines left ++ lines right := by
  induction left with
  | nil => rfl
  | cons c left ih =>
      have rest := ih fun d last => feed d (List.mem_getLast?_cons last)
      by_cases here : c = '\n'
      · rw [here, List.cons_append, lines_feed, rest, lines_feed]
        rfl
      · rw [List.cons_append, lines_cons_of_ne here, rest, lines_cons_of_ne here]
        cases cut : lines left with
        | nil =>
            rw [lines_eq_nil_iff.mp cut] at feed
            exact absurd (feed c rfl) here
        | cons first others => rfl

/-- All lines end in line feeds if the text does. -/
theorem getLast?_of_mem_lines {text : Text} (feed : ∀ c ∈ text.getLast?, c = '\n') :
    ∀ line ∈ lines text, line.getLast? = some '\n' := by
  induction text with
  | nil => exact List.forall_mem_nil _
  | cons c text ih =>
      have rest := ih fun d last => feed d (List.mem_getLast?_cons last)
      by_cases here : c = '\n'
      · rw [here, lines_feed]
        exact List.forall_mem_cons.mpr ⟨rfl, rest⟩
      · rw [lines_cons_of_ne here]
        cases cut : lines text with
        | nil =>
            rw [lines_eq_nil_iff.mp cut] at feed
            exact absurd (feed c rfl) here
        | cons first others =>
            rw [cut] at rest
            obtain ⟨last, rest⟩ := List.forall_mem_cons.mp rest
            exact List.forall_mem_cons.mpr ⟨List.mem_getLast?_cons last, rest⟩

/-- The line that starts with a text which has no line feed in front of its end. -/
theorem exists_lines_append {line : Text} (filled : line ≠ []) (inside : '\n' ∉ line.dropLast)
    (rest : Text) : ∃ more others, lines (line ++ rest) = (line ++ more) :: others ∧ more <+: rest ∧
      (line.getLast? = some '\n' → more = []) := by
  induction line with
  | nil => exact absurd rfl filled
  | cons c line ih =>
      cases line with
      | nil =>
          by_cases here : c = '\n'
          · exact ⟨[], lines rest, by rw [here]; rfl, List.nil_prefix, fun _ => rfl⟩
          · have last : [c].getLast? ≠ some '\n' := fun feed => here (Option.some.inj feed)
            rw [List.cons_append, List.nil_append, lines_cons_of_ne here]
            cases cut : lines rest with
            | nil => exact ⟨[], [], rfl, List.nil_prefix, fun _ => rfl⟩
            | cons first others =>
                refine ⟨first, others, rfl, ⟨others.flatten, ?_⟩, fun feed => absurd feed last⟩
                rw [← flatten_lines rest, cut]
                rfl
      | cons d line =>
          rw [List.dropLast_cons_of_ne_nil (List.cons_ne_nil d line), List.mem_cons, not_or] at inside
          obtain ⟨more, others, cut, leads, ended⟩ := ih (List.cons_ne_nil d line) inside.2
          refine ⟨more, others, ?_, leads, fun feed => ended ?_⟩
          · rw [List.cons_append, lines_cons_of_ne (Ne.symm inside.1), cut]
            rfl
          · rwa [List.getLast?_cons_of_ne_nil (List.cons_ne_nil d line)] at feed

end Text

/-! ### Lists of lines -/

/-- The lines of a text: only the last of them can be without a line feed at its end. -/
structure AreLines (lines : List Text) : Prop where
  each : ∀ line ∈ lines, line ≠ [] ∧ '\n' ∉ line.dropLast
  ended : lines.IsChain fun line _ => line.getLast? = some '\n'

theorem areLines_append {before after : List Text} :
    AreLines (before ++ after) ↔ AreLines before ∧
      (after ≠ [] → ∀ last ∈ before.getLast?, last.getLast? = some '\n') ∧ AreLines after := by
  have first {p : Prop} : (∀ next ∈ after.head?, p) ↔ (after ≠ [] → p) := by
    cases after <;> simp
  constructor
  · rintro ⟨each, ended⟩
    obtain ⟨above, below⟩ := List.forall_mem_append.mp each
    obtain ⟨endedAbove, endedBelow, between⟩ := List.isChain_append.mp ended
    exact ⟨⟨above, endedAbove⟩, fun filled last final => first.mp (between last final) filled,
      ⟨below, endedBelow⟩⟩
  · rintro ⟨above, between, below⟩
    refine ⟨List.forall_mem_append.mpr ⟨above.each, below.each⟩, ?_⟩
    exact List.isChain_append.mpr ⟨above.ended, below.ended, fun last final =>
      first.mpr fun filled => between filled last final⟩

theorem areLines_singleton {line : Text} : AreLines [line] ↔ line ≠ [] ∧ '\n' ∉ line.dropLast := by
  constructor
  · exact fun are => are.each line List.mem_cons_self
  · exact fun single => ⟨List.forall_mem_singleton.mpr single, .singleton _⟩

theorem areLines_cons {line : Text} {lines : List Text} :
    AreLines (line :: lines) ↔ (line ≠ [] ∧ '\n' ∉ line.dropLast) ∧
      (lines ≠ [] → line.getLast? = some '\n') ∧ AreLines lines := by
  rw [← List.singleton_append, areLines_append, areLines_singleton]
  simp

theorem areLines_lines (text : Text) : AreLines text.lines := by
  induction text with
  | nil => exact ⟨List.forall_mem_nil _, .nil⟩
  | cons c text ih =>
      by_cases feed : c = '\n'
      · rw [feed, Text.lines_feed, areLines_cons]
        exact ⟨⟨List.cons_ne_nil _ _, List.not_mem_nil⟩, fun _ => rfl, ih⟩
      · rw [Text.lines_cons_of_ne feed]
        cases cut : Text.lines text with
        | nil => exact areLines_singleton.mpr ⟨List.cons_ne_nil _ _, List.not_mem_nil⟩
        | cons first others =>
            rw [cut, areLines_cons] at ih
            obtain ⟨⟨filled, single⟩, ended, others⟩ := ih
            rw [consToFirst, areLines_cons, List.dropLast_cons_of_ne_nil filled, List.mem_cons, not_or,
              List.getLast?_cons_of_ne_nil filled]
            exact ⟨⟨List.cons_ne_nil _ _, Ne.symm feed, single⟩, ended, others⟩

namespace Text

theorem lines_of_single {line : Text} (filled : line ≠ []) (single : '\n' ∉ line.dropLast) :
    lines line = [line] := by
  obtain ⟨more, others, cut, leads, -⟩ := exists_lines_append filled single []
  rw [List.append_nil, List.prefix_nil.mp leads, List.append_nil] at cut
  have whole := flatten_lines line
  rw [cut, List.flatten_cons, List.append_right_eq_self, List.flatten_eq_nil_iff] at whole
  cases others with
  | nil => exact cut
  | cons other others =>
      have member : other ∈ Text.lines line := cut ▸ List.mem_cons_of_mem _ List.mem_cons_self
      exact absurd (whole other List.mem_cons_self) ((areLines_lines line).each other member).1

theorem lines_flatten {lines : List Text} (are : AreLines lines) : Text.lines lines.flatten = lines := by
  induction lines with
  | nil => rfl
  | cons line lines ih =>
      obtain ⟨⟨filled, single⟩, ended, below⟩ := areLines_cons.mp are
      have here := lines_of_single filled single
      by_cases only : lines = []
      · rwa [only, List.flatten_singleton]
      · rw [List.flatten_cons, lines_append, here, ih below]
        · rfl
        · intro c final
          rw [ended only] at final
          exact (Option.some.inj final).symm

end Text

theorem cutLines_eq_lines {text : Text} (noReturn : '\r' ∉ text) : cutLines text = text.lines := by
  fun_induction cutLines text with
  | case1 => rfl
  | case2 text ih => exact absurd List.mem_cons_self noReturn
  | case3 c text _ ends ih =>
      obtain ⟨other, noReturn⟩ := not_or.mp (mt List.mem_cons.mpr noReturn)
      rw [Bool.or_eq_true, beq_iff_eq, beq_iff_eq] at ends
      rw [ends.resolve_left (Ne.symm other), ih noReturn]
      rfl
  | case4 c text _ inside ih =>
      obtain ⟨other, noReturn⟩ := not_or.mp (mt List.mem_cons.mpr noReturn)
      rw [Bool.or_eq_true, beq_iff_eq, beq_iff_eq, not_or] at inside
      rw [ih noReturn, Text.lines_cons_of_ne inside.2]

/-! ### The code of a line -/

namespace Text

/-- A comment starts in the line, or its code goes on with what stands behind it. -/
theorem splitComment_append (line more : Text) :
    (splitComment (line ++ more)).1 = (splitComment line).1 ∨
      (splitComment line).1 = line ∧ ∃ code, code <+: more ∧
        (splitComment (line ++ more)).1 = line ++ code := by
  let code (g : Glyph) : Bool := !(g.isFree && g.char == '%')
  obtain ⟨inner, split⟩ := glyphs_append line
  have both : (line ++ more).glyphs.takeWhile code =
      if (line.glyphs.takeWhile code).length = line.glyphs.length then
        line.glyphs ++ (glyphsFrom (Literal.ofText line) inner more).takeWhile code
      else line.glyphs.takeWhile code := by
    rw [split, List.takeWhile_append]
  change ofGlyphs ((line ++ more).glyphs.takeWhile code) = ofGlyphs (line.glyphs.takeWhile code) ∨
    ofGlyphs (line.glyphs.takeWhile code) = line ∧ ∃ rest, rest <+: more ∧
      ofGlyphs ((line ++ more).glyphs.takeWhile code) = line ++ rest
  rw [both]
  split
  · rename_i whole
    rw [(List.takeWhile_prefix code).eq_of_length whole, ofGlyphs_append, ofGlyphs_glyphs]
    have leads := (List.takeWhile_prefix code (l := glyphsFrom (Literal.ofText line) inner more)).map
      Glyph.char
    rw [show (glyphsFrom _ inner more).map Glyph.char = more from ofGlyphs_glyphsFrom ..] at leads
    exact .inr ⟨rfl, _, leads, rfl⟩
  · exact .inl rfl

theorem splitComment_of_isBlank {c : Char} (blank : isBlank c) (text : Text) :
    (splitComment (c :: text)).1 = c :: (splitComment text).1 := by
  have other : (c == '%') = false := by
    rw [beq_eq_false_iff_ne]
    rintro rfl
    revert blank
    decide
  unfold splitComment
  dsimp only
  rw [glyphs_of_isBlank blank, List.takeWhile_cons_of_pos (by rw [other]; rfl)]
  rfl

/-- Blanks in front of a line are no part of a comment. -/
theorem splitComment_trimStart (text : Text) :
    (splitComment text.trimStart).1 = (splitComment text).1.trimStart := by
  induction text with
  | nil => rfl
  | cons c text ih =>
      by_cases blank : isBlank c
      · rw [splitComment_of_isBlank blank, trimStart, trimStart, List.dropWhile_cons_of_pos blank,
          List.dropWhile_cons_of_pos blank]
        exact ih
      · rw [trimStart, List.dropWhile_cons_of_neg blank, trimStart, dropWhile_eq_self]
        intro d first
        cases code : (splitComment (c :: text)).1 with
        | nil =>
            rw [code] at first
            cases first
        | cons e rest =>
            have leads := splitComment_prefix (c :: text)
            rw [code] at first leads
            obtain ⟨same, -⟩ := List.cons_prefix_cons.mp leads
            cases first
            rw [same]
            exact Bool.eq_false_iff.mpr blank

end Text

/-- The remote keyword is not part of a comment. -/
theorem splitComment_dropRemoteKeyword (line : Text) :
    (Text.splitComment (dropRemoteKeyword line)).1 = dropRemoteKeyword (Text.splitComment line).1 := by
  have blanks {c : Char} (blank : c = ' ' ∨ c = '\t') : isBlank c := by
    rcases blank with rfl | rfl <;> decide
  by_cases remote : IsRemote line.trimStart
  · obtain ⟨c, rest, blank, leads⟩ := isRemote_iff.mp remote
    have behind := Text.splitComment_of_isBlank (blanks blank) rest
    rw [dropRemoteKeyword_of_remote blank leads, behind, dropRemoteKeyword_of_remote blank]
    rw [← Text.splitComment_trimStart, leads, ← behind]
    rcases blank with rfl | rfl <;> rfl
  · rw [dropRemoteKeyword_eq_self remote, dropRemoteKeyword_eq_self]
    intro code
    obtain ⟨c, rest, blank, leads⟩ := isRemote_iff.mp code
    rw [← Text.splitComment_trimStart] at leads
    obtain ⟨behind, whole⟩ := leads ▸ Text.splitComment_prefix line.trimStart
    refine remote (isRemote_iff.mpr ⟨c, rest ++ behind, blank, ?_⟩)
    rw [← whole]
    exact List.append_assoc ..

end MissionScript
