import MissionScript.Proofs.Script.Literal
import MissionScript.Proofs.Text
import MissionScript.Script.Statement

/-!
# Instructions

An instruction is what is left of a line when its blanks, its comment and its remote keyword are cut
off. It is read from the line that holds nothing but itself and a semicolon, unless that line has
something to be cut off once more.
-/

namespace MissionScript

/-! ### Lines -/

/-- A line ends with a carriage return, a line feed, or both. -/
def isLineEnd (c : Char) : Bool := c == '\r' || c == '\n'

theorem isBlank_of_isLineEnd {c : Char} (ends : isLineEnd c) : isBlank c = true := by
  simp only [isLineEnd, Bool.or_eq_true, beq_iff_eq] at ends
  rcases ends with rfl | rfl
  · decide
  · decide

/-- Nothing but line ends follows a line end. -/
def EndsOnce (text : Text) : Prop := text.Pairwise fun c d => isLineEnd c → isLineEnd d

theorem EndsOnce.sublist {part text : Text} (ends : EndsOnce text) (sublist : part.Sublist text) :
    EndsOnce part :=
  List.Pairwise.sublist sublist ends

theorem endsOnce_consToFirst {c : Char} {lines : List Text} (inside : isLineEnd c = false)
    (each : ∀ line ∈ lines, EndsOnce line) : ∀ line ∈ consToFirst c lines, EndsOnce line := by
  intro line member
  cases lines with
  | nil =>
      rw [consToFirst, List.mem_singleton] at member
      rw [member]
      exact List.pairwise_singleton _ _
  | cons first others =>
      rw [consToFirst, List.mem_cons] at member
      rcases member with rfl | member
      · refine List.pairwise_cons.mpr ⟨fun d _ ends => ?_, each first (List.mem_cons_self ..)⟩
        rw [inside] at ends
        cases ends
      · exact each line (List.mem_cons_of_mem _ member)

theorem endsOnce_of_mem_cutLines {block : Text} : ∀ line ∈ cutLines block, EndsOnce line := by
  fun_induction cutLines block with
  | case1 => simp
  | case2 text ih =>
      intro line member
      rcases List.mem_cons.mp member with rfl | member
      · exact List.pairwise_pair.mpr fun _ => rfl
      · exact ih line member
  | case3 c text _ ends ih =>
      intro line member
      rcases List.mem_cons.mp member with rfl | member
      · exact List.pairwise_singleton _ _
      · exact ih line member
  | case4 c text _ inside ih => exact endsOnce_consToFirst (Bool.eq_false_iff.mpr inside) ih

theorem endsOnce_of_mem_blockLines {block : Text} : ∀ line ∈ blockLines block, EndsOnce line := by
  unfold blockLines
  split
  · intro line member
    rw [List.mem_singleton.mp member]
    exact List.Pairwise.nil
  · exact endsOnce_of_mem_cutLines

theorem cutLines_of_single {text : Text} (filled : text ≠ [])
    (single : ∀ c ∈ text, isLineEnd c = false) : cutLines text = [text] := by
  fun_induction cutLines text with
  | case1 => exact absurd rfl filled
  | case2 text ih =>
      have ends := single '\r' (List.mem_cons_self ..)
      cases ends
  | case3 c text _ ends ih =>
      have inside := single c (List.mem_cons_self ..)
      rw [isLineEnd, ends] at inside
      cases inside
  | case4 c text _ inside ih =>
      cases text with
      | nil => rfl
      | cons d text =>
          rw [ih (List.cons_ne_nil _ _) fun e member => single e (List.mem_cons_of_mem _ member)]
          rfl

/-- A text of a line that does not end in a blank holds no line end. -/
theorem EndsOnce.single {text : Text} (ends : EndsOnce text)
    (last : ∀ c ∈ text.getLast?, isBlank c = false) : ∀ c ∈ text, isLineEnd c = false := by
  intro c member
  obtain ⟨before, after, rfl⟩ := List.append_of_mem member
  rw [Bool.eq_false_iff]
  intro here
  have behind := (List.pairwise_append.mp ends).2.1
  obtain ⟨d, final⟩ : ∃ d, (c :: after).getLast? = some d :=
    ⟨_, List.getLast?_eq_some_getLast (List.cons_ne_nil c after)⟩
  have ended : isLineEnd d := by
    rcases List.mem_cons.mp (List.mem_of_getLast? final) with rfl | member
    · exact here
    · exact (List.pairwise_cons.mp behind).1 d member here
  have blank := last d (by rw [List.getLast?_append, final]; rfl)
  rw [isBlank_of_isLineEnd ended] at blank
  cases blank

/-! ### Reading an instruction -/

/-- A text that can be the instruction of a line. -/
structure IsInstruction (text : Text) : Prop extends Text.Trimmed text where
  single : ∀ c ∈ text, isLineEnd c = false
  uncommented : Uncommented text

theorem dropRemoteKeyword_sublist (line : Text) : (dropRemoteKeyword line).Sublist line := by
  rw [dropRemoteKeyword]
  split
  · rename_i rest found
    split
    · have suffix : rest <:+ line.trimStart := by
        rw [Text.after?_eq_some_iff.mp found]
        exact List.suffix_append _ _
      exact suffix.sublist.trans (List.dropWhile_sublist _)
    · exact List.Sublist.refl _
  · exact List.Sublist.refl _

theorem Text.splitComment_prefix (line : Text) : (Text.splitComment line).1 <+: line := by
  have taken := (List.takeWhile_prefix (fun g : Glyph => !(g.isFree && g.char == '%'))
    (l := line.glyphs)).map Glyph.char
  rwa [show line.glyphs.map Glyph.char = line from Text.ofGlyphs_glyphs line] at taken

theorem splitComment_sublist (line : Text) : (Text.splitComment line).1.Sublist line :=
  (Text.splitComment_prefix line).sublist

theorem trim_sublist (text : Text) : text.trim.Sublist text :=
  (Text.dropEndWhile_prefix _ _).sublist.trans (List.dropWhile_sublist _)

theorem instructionOf_sublist (code : Text) : (instructionOf code).Sublist code :=
  ((Text.dropEndWhile_prefix _ _).trans (Text.dropEndWhile_prefix _ _)).sublist.trans (trim_sublist code)

theorem isInstruction_instructionOf {code : Text} (ends : EndsOnce code)
    (uncommented : Uncommented code) (filled : instructionOf code ≠ []) :
    IsInstruction (instructionOf code) := by
  have leads : instructionOf code <+: code.trimStart :=
    ((Text.dropEndWhile_prefix _ _).trans (Text.dropEndWhile_prefix _ _)).trans
      (Text.dropEndWhile_prefix _ _)
  have last : ∀ c ∈ (instructionOf code).getLast?, isBlank c = false := Text.getLast?_dropEndWhile
  refine ⟨⟨filled, ?_, last⟩, ?_, uncommented.trimStart.of_prefix leads⟩
  · rw [Text.head?_of_prefix leads filled]
    exact Text.head?_dropWhile
  · exact EndsOnce.single (ends.sublist (instructionOf_sublist code)) last

namespace Reading

/-- The reading of an instruction that stands alone. -/
def ofInstruction (keywords : Keywords) (instruction : Text) : Reading where
  instruction
  shape := shapeOf keywords instruction

end Reading

/-- A block holds nothing but comments, or the reading has an instruction and its shape. -/
theorem readLines_shape (keywords : Keywords) {lines : List Text} (preface : Text)
    (ends : ∀ line ∈ lines, EndsOnce line) :
    (readLines keywords preface lines).shape = .comment ∨
      IsInstruction (readLines keywords preface lines).instruction ∧
        (readLines keywords preface lines).shape =
          shapeOf keywords (readLines keywords preface lines).instruction := by
  induction lines generalizing preface with
  | nil => exact .inl rfl
  | cons line lines ih =>
      have others := ih (preface ++ line) fun other member => ends other (List.mem_cons_of_mem _ member)
      rw [readLines]
      dsimp only
      split
      · exact others
      split
      · exact others
      rename_i filled
      have inside : (Text.splitComment (dropRemoteKeyword line)).1.Sublist line :=
        (splitComment_sublist _).trans (dropRemoteKeyword_sublist line)
      have proper := isInstruction_instructionOf
        ((ends line (List.mem_cons_self ..)).sublist inside) (uncommented_splitComment _)
        (by simpa using filled)
      dsimp only
      exact .inr ⟨proper, rfl⟩

/-! ### Reading it again -/

/-- The text starts with the remote keyword and a blank. -/
def IsRemote (text : Text) : Prop :=
  text.takeWhile isWordChar = remoteKeyword ∧
    ((text.dropWhile isWordChar).head? = some ' ' ∨ (text.dropWhile isWordChar).head? = some '\t')

theorem isRemote_iff {text : Text} :
    IsRemote text ↔ ∃ c rest, (c = ' ' ∨ c = '\t') ∧ text = remoteKeyword ++ c :: rest := by
  constructor
  · rintro ⟨word, behind⟩
    rw [← List.takeWhile_append_dropWhile (p := isWordChar) (l := text), word]
    rcases behind with space | tab
    · obtain ⟨rest, behind⟩ := List.head?_eq_some_iff.mp space
      exact ⟨' ', rest, .inl rfl, by rw [behind]⟩
    · obtain ⟨rest, behind⟩ := List.head?_eq_some_iff.mp tab
      exact ⟨'\t', rest, .inr rfl, by rw [behind]⟩
  · have letters : ∀ c ∈ remoteKeyword, isWordChar c = true := List.all_eq_true.mp (by decide)
    rintro ⟨c, rest, blank, rfl⟩
    rw [IsRemote, List.takeWhile_append_of_pos letters, List.dropWhile_append_of_pos letters]
    rcases blank with rfl | rfl
    · exact ⟨List.append_nil _, .inl rfl⟩
    · exact ⟨List.append_nil _, .inr rfl⟩

theorem dropRemoteKeyword_of_remote {line rest : Text} {c : Char} (blank : c = ' ' ∨ c = '\t')
    (leads : line.trimStart = remoteKeyword ++ c :: rest) : dropRemoteKeyword line = c :: rest := by
  rw [dropRemoteKeyword, Text.after?_eq_some_iff.mpr leads]
  rcases blank with rfl | rfl <;> rfl

theorem dropRemoteKeyword_eq_self {line : Text} (here : ¬ IsRemote line.trimStart) :
    dropRemoteKeyword line = line := by
  rw [dropRemoteKeyword]
  split
  · rename_i rest found
    split
    · rename_i blank
      refine absurd (isRemote_iff.mpr ?_) here
      rw [Text.after?_eq_some_iff.mp found]
      rw [Bool.or_eq_true, beq_iff_eq, beq_iff_eq] at blank
      rcases blank with space | tab
      · obtain ⟨behind, rfl⟩ := List.head?_eq_some_iff.mp space
        exact ⟨' ', behind, .inl rfl, rfl⟩
      · obtain ⟨behind, rfl⟩ := List.head?_eq_some_iff.mp tab
        exact ⟨'\t', behind, .inr rfl, rfl⟩
    · rfl
  · rfl

theorem Uncommented.head?_ne {text : Text} (uncommented : Uncommented text) :
    (text.head? == some '%') = false := by
  cases text with
  | nil => rfl
  | cons c text =>
      rw [beq_eq_false_iff_ne]
      intro percent
      have first := uncommented ⟨c, Literal.covers {} c, 0⟩ (List.mem_cons_self ..)
      rw [Option.some.inj percent] at first
      revert first
      decide

theorem dropEndWhile_semicolon {text : Text} (last : text.getLast? ≠ some ';') :
    Text.dropEndWhile (· == ';') (text ++ [';']) = text := by
  rw [Text.dropEndWhile_concat_of_pos rfl, Text.dropEndWhile_eq_self]
  intro c final
  rw [beq_eq_false_iff_ne]
  rintro rfl
  exact last final

/-- An instruction that nothing more is cut off from is read from a line of its own. -/
theorem Reading.ofBlock_instruction {keywords : Keywords} {instruction : Text}
    (proper : IsInstruction instruction) (last : instruction.getLast? ≠ some ';')
    (here : ¬ IsRemote (instruction ++ [';'])) :
    Reading.ofBlock keywords (instruction ++ [';']) = .ok (ofInstruction keywords instruction) := by
  have trimmed := proper.append_semicolon
  have single : ∀ c ∈ instruction ++ [';'], isLineEnd c = false := by
    intro c member
    rcases List.mem_append.mp member with member | member
    · exact proper.single c member
    · rw [List.mem_singleton.mp member]
      rfl
  have lines : blockLines (instruction ++ [';']) = [instruction ++ [';']] := by
    rw [blockLines, cutLines_of_single trimmed.filled single]
  have filled : Text.isBlankText (instruction ++ [';']) = false := by
    rw [Text.isBlankText, List.all_append]
    exact Bool.and_false _
  have noRemark : isRemark (instruction ++ [';']) = false := by
    rw [isRemark, trimmed.trim, proper.uncommented.append_semicolon.head?_ne]
    simp
  have whole : dropRemoteKeyword (instruction ++ [';']) = instruction ++ [';'] := by
    apply dropRemoteKeyword_eq_self
    rwa [Text.trimStart, Text.dropWhile_eq_self trimmed.first]
  have code : instructionOf (instruction ++ [';']) = instruction := by
    rw [instructionOf, trimmed.trim, dropEndWhile_semicolon last]
    exact Text.dropEndWhile_eq_self proper.last
  rw [Reading.ofBlock, lines, List.all_cons, filled, Bool.false_and, if_neg Bool.false_ne_true,
    readLines, noRemark, if_neg Bool.false_ne_true, whole,
    splitComment_eq proper.uncommented.append_semicolon]
  dsimp only
  rw [code, if_neg (by simpa using proper.filled)]
  rfl

end MissionScript
