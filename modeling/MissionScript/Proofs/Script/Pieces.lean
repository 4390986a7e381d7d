import MissionScript.Proofs.Script.Retention

/-!
# Pieces

The statements on a line are its pieces, and what is read from a piece is its code. Behind a blank outside
literals, and behind a semicolon outside groups, a text is read as one that stands alone. So the pieces
in front of a semicolon do not depend on what stands behind it, and blanks and comments at the ends of a
piece are no part of its statement.
-/

namespace MissionScript

/-! ### Reading on -/

namespace Literal

variable {p q : Literal}

theorem alike_foldl (alike : Alike p q) (text : Text) :
    Alike (text.foldl step p) (text.foldl step q) := by
  induction text generalizing p q with
  | nil => exact alike
  | cons c text ih => exact ih (alike.step c)

theorem ofText_append (left right : Text) : ofText (left ++ right) = right.foldl step (ofText left) :=
  List.foldl_append

/-- Only quotes open and close literals. -/
theorem inside_foldl {text : Text} (plain : '\'' ∉ text) : (text.foldl step p).inside = p.inside := by
  induction text generalizing p with
  | nil => rfl
  | cons c text ih =>
      rw [List.mem_cons, not_or] at plain
      have other : (c == '\'') = false := beq_eq_false_iff_ne.mpr (Ne.symm plain.1)
      rw [List.foldl_cons, ih plain.2]
      simp [step, covers, other]

end Literal

/-- No literal is open at the end of the text. -/
def IsClosed (text : Text) : Prop := (Literal.ofText text).inside = false

instance (text : Text) : Decidable (IsClosed text) :=
  inferInstanceAs (Decidable ((Literal.ofText text).inside = false))

theorem isClosed_append {left right : Text} (plain : '\'' ∉ right) :
    IsClosed (left ++ right) ↔ IsClosed left := by
  rw [IsClosed, IsClosed, Literal.ofText_append, Literal.inside_foldl plain]

theorem isClosed_append_of_alike {left : Text} (alike : (Literal.ofText left).Alike {}) (right : Text) :
    IsClosed (left ++ right) ↔ IsClosed right := by
  rw [IsClosed, IsClosed, Literal.ofText_append, (Literal.alike_foldl alike right).1]
  rfl

/-- Behind a blank or a semicolon a literal may start. -/
theorem alike_concat {text : Text} (closed : IsClosed text) {c : Char}
    (starts : c = ' ' ∨ c = ';') : (Literal.ofText (text ++ [c])).Alike {} := by
  have plain : '\'' ∉ [c] := by
    rcases starts with rfl | rfl <;> decide
  refine ⟨(isClosed_append plain).mpr closed, ?_⟩
  rw [Literal.ofText_append]
  rcases starts with rfl | rfl
  · rfl
  · rfl

/-- The code of a text does not depend on the groups around it. -/
theorem takeWhile_glyphsFrom {p q : Literal} (alike : p.Alike q) (depth inner : Nat) (text : Text) :
    Text.ofGlyphs ((glyphsFrom p depth text).takeWhile fun g => !(g.isFree && g.char == '%')) =
      Text.ofGlyphs ((glyphsFrom q inner text).takeWhile fun g => !(g.isFree && g.char == '%')) := by
  induction text generalizing p q depth inner with
  | nil => rfl
  | cons c text ih =>
      rw [glyphsFrom, glyphsFrom, alike.covers c, List.takeWhile_cons, List.takeWhile_cons]
      change Text.ofGlyphs (if (!(!q.covers c && c == '%')) = true then _ else _) =
        Text.ofGlyphs (if (!(!q.covers c && c == '%')) = true then _ else _)
      split
      · exact congrArg (c :: ·) (ih (alike.step c) _ _)
      · rfl

namespace Text

theorem splitComment_eq_self_iff {line : Text} : (splitComment line).1 = line ↔ Uncommented line := by
  constructor
  · intro whole
    rw [← whole]
    exact uncommented_splitComment line
  · intro uncommented
    rw [splitComment_eq uncommented]

/-- The code goes on behind a text that is read to its end. -/
theorem splitComment_append_of_alike {left : Text} (uncommented : Uncommented left)
    (alike : (Literal.ofText left).Alike {}) (right : Text) :
    (splitComment (left ++ right)).1 = left ++ (splitComment right).1 := by
  obtain ⟨inner, split⟩ := glyphs_append left
  have all : ∀ g ∈ left.glyphs, (!(g.isFree && g.char == '%')) = true := by
    intro g member
    rw [uncommented g member]
    rfl
  unfold splitComment
  dsimp only
  rw [split, List.takeWhile_append_of_pos all, ofGlyphs_append, ofGlyphs_glyphs,
    takeWhile_glyphsFrom alike inner 0 right]
  rfl

end Text

theorem uncommented_append {left : Text} (uncommented : Uncommented left)
    (alike : (Literal.ofText left).Alike {}) (right : Text) :
    Uncommented (left ++ right) ↔ Uncommented right := by
  rw [← Text.splitComment_eq_self_iff, ← Text.splitComment_eq_self_iff,
    Text.splitComment_append_of_alike uncommented alike, List.append_cancel_left_eq]

/-! ### Pieces -/

/-- The pieces that the semicolons outside groups, literals and comments end, and what is left behind the
last of them. -/
def cutPieces : List Glyph → List Text
  | [] => [[]]
  | g :: rest =>
    if g.isFree && g.char == '%' then [Text.ofGlyphs (g :: rest)]
    else if g.isTop && g.char == ';' then [g.char] :: cutPieces rest
    else consToFirst g.char (cutPieces rest)

/-- The pieces of a text. -/
def Text.pieces (text : Text) : List Text := cutPieces text.glyphs

theorem cutPieces_ne_nil (gs : List Glyph) : cutPieces gs ≠ [] := by
  cases gs with
  | nil => exact List.cons_ne_nil _ _
  | cons g rest =>
      rw [cutPieces]
      split
      · exact List.cons_ne_nil _ _
      split
      · exact List.cons_ne_nil _ _
      · cases cutPieces rest <;> exact List.cons_ne_nil _ _

/-- The first of the pieces goes on from what has been read of it. -/
theorem cutAfterSemicolons_eq (piece : Text) (gs : List Glyph) :
    (cutAfterSemicolons piece gs).1 ++ [(cutAfterSemicolons piece gs).2] =
      (cutPieces gs).modifyHead (piece.reverse ++ ·) := by
  induction gs generalizing piece with
  | nil =>
      rw [cutPieces, List.modifyHead_cons, List.append_nil]
      rfl
  | cons g rest ih =>
      rw [cutAfterSemicolons, cutPieces]
      split
      · rfl
      split
      · dsimp only
        rw [List.cons_append, ih, List.modifyHead_cons, List.reverse_cons]
        cases cutPieces rest <;> rfl
      · rw [ih, List.reverse_cons]
        cases h : cutPieces rest with
        | nil => exact absurd h (cutPieces_ne_nil rest)
        | cons first others =>
            rw [consToFirst, List.modifyHead_cons, List.modifyHead_cons, List.append_assoc]
            rfl

/-- No comment starts in the glyphs. -/
def NoComment (gs : List Glyph) : Prop := ∀ g ∈ gs, (g.isFree && g.char == '%') = false

/-- The pieces in front of a semicolon do not depend on what stands behind it. -/
theorem cutPieces_semicolon {front : List Glyph} (code : NoComment front) {g : Glyph} (top : g.isTop)
    (semicolon : g.char = ';') :
    ∃ first others, ∀ rest, cutPieces (front ++ g :: rest) = first :: (others ++ cutPieces rest) := by
  induction front with
  | nil =>
      refine ⟨[g.char], [], fun rest => ?_⟩
      rw [List.nil_append, cutPieces, if_neg (by simp [semicolon]), if_pos (by simp [top, semicolon])]
      rfl
  | cons h front ih =>
      obtain ⟨here, code⟩ := List.forall_mem_cons.mp code
      obtain ⟨first, others, cut⟩ := ih code
      by_cases ends : h.isTop && h.char == ';'
      · refine ⟨[h.char], first :: others, fun rest => ?_⟩
        rw [List.cons_append, cutPieces, here, if_neg Bool.false_ne_true, if_pos ends, cut]
        rfl
      · refine ⟨h.char :: first, others, fun rest => ?_⟩
        rw [List.cons_append, cutPieces, here, if_neg Bool.false_ne_true, if_neg ends, cut]
        rfl

/-- The first piece, if there is more than one. -/
theorem cutPieces_cases (gs : List Glyph) :
    cutPieces gs = [Text.ofGlyphs gs] ∨ ∃ front g rest, gs = front ++ g :: rest ∧ NoComment front ∧
      g.isTop ∧ g.char = ';' ∧
        ∀ more, cutPieces (front ++ g :: more) = Text.ofGlyphs (front ++ [g]) :: cutPieces more := by
  induction gs with
  | nil => exact .inl rfl
  | cons g gs ih =>
      rw [cutPieces]
      split
      · exact .inl rfl
      rename_i code
      split
      · rename_i ends
        rw [Bool.and_eq_true, beq_iff_eq] at ends
        refine .inr ⟨[], g, gs, rfl, List.forall_mem_nil _, ends.1, ends.2, fun more => ?_⟩
        rw [List.nil_append, cutPieces, if_neg code, if_pos (by simp [ends])]
        rfl
      · rename_i inside
        rcases ih with alone | ⟨front, h, rest, rfl, uncommented, top, semicolon, cut⟩
        · rw [alone]
          exact .inl rfl
        · refine .inr ⟨g :: front, h, rest, rfl, ?_, top, semicolon, fun more => ?_⟩
          · exact List.forall_mem_cons.mpr ⟨Bool.eq_false_iff.mpr code, uncommented⟩
          · rw [List.cons_append, cutPieces, if_neg code, if_neg inside, cut]
            rfl

/-- The text ends with a semicolon that ends a statement, if no comment starts in front of it. -/
def endsPiece (text : Text) : Bool := text.glyphs.getLast?.any fun g => g.isTop && g.char == ';'

theorem endsPiece_iff {text : Text} :
    endsPiece text ↔ ∃ front g, text.glyphs = front ++ [g] ∧ g.isTop ∧ g.char = ';' := by
  rw [endsPiece, Option.any_eq_true]
  constructor
  · rintro ⟨g, last, ends⟩
    rw [Bool.and_eq_true, beq_iff_eq] at ends
    obtain ⟨front, whole⟩ := List.getLast?_eq_some_iff.mp last
    exact ⟨front, g, whole, ends⟩
  · rintro ⟨front, g, whole, ends⟩
    refine ⟨g, ?_, by simpa using ends⟩
    rw [whole, List.getLast?_concat]

theorem getLast?_of_endsPiece {text : Text} (ends : endsPiece text) : text.getLast? = some ';' := by
  obtain ⟨front, g, whole, -, semicolon⟩ := endsPiece_iff.mp ends
  rw [← Text.ofGlyphs_glyphs text, whole, Text.ofGlyphs_append, ← semicolon]
  exact List.getLast?_concat

/-- What stands behind a semicolon is read as if it stood alone. -/
theorem separate_of_endsPiece {text : Text} (ends : endsPiece text) :
    (Literal.ofText text).Alike {} ∧
      ∀ more : Text, (text ++ more).glyphs = text.glyphs ++ more.glyphs := by
  obtain ⟨front, g, whole, top, semicolon⟩ := endsPiece_iff.mp ends
  obtain rfl : text = Text.ofGlyphs front ++ [';'] := by
    rw [← Text.ofGlyphs_glyphs text, whole, Text.ofGlyphs_append, ← semicolon]
    rfl
  obtain ⟨inner, split⟩ := glyphs_append (Text.ofGlyphs front)
  have last := split [';']
  rw [whole] at last
  obtain ⟨-, last⟩ := List.append_inj' last rfl
  obtain rfl := (List.cons.inj last).1
  obtain ⟨free, level⟩ : (Literal.ofText (Text.ofGlyphs front)).covers ';' = false ∧ inner = 0 := by
    simp only [Glyph.isTop, Glyph.isFree, Bool.and_eq_true, Bool.not_eq_true', beq_iff_eq] at top
    exact top.1.1
  have after : (Literal.ofText (Text.ofGlyphs front ++ [';'])).Alike {} := by
    rw [Literal.ofText_append]
    refine ⟨?_, rfl⟩
    change (Literal.covers _ ';' && _) = false
    rw [free, Bool.false_and]
  have single : glyphsFrom (Literal.ofText (Text.ofGlyphs front)) inner [';'] = [⟨';', false, 0⟩] := by
    rw [glyphsFrom, glyphsFrom, free, level]
  refine ⟨after, fun more => ?_⟩
  rw [Literal.ofText_append] at after
  rw [List.append_assoc, split, split [';'], single, List.append_assoc, List.singleton_append, glyphsFrom,
    free, level]
  exact congrArg (_ ++ _ :: ·) (glyphsFrom_alike after 0 more)

/-- A piece with its semicolon. -/
structure IsPiece (piece : Text) : Prop where
  ends : endsPiece piece
  uncommented : Uncommented piece
  cut : ∀ more : Text, (piece ++ more).pieces = piece :: more.pieces

theorem IsPiece.filled {piece : Text} (isPiece : IsPiece piece) : piece ≠ [] := by
  rintro rfl
  cases isPiece.ends

theorem pieces_cases (text : Text) :
    text.pieces = [text] ∨ ∃ piece rest, IsPiece piece ∧ text = piece ++ rest := by
  have whole := Text.ofGlyphs_glyphs text
  rcases cutPieces_cases text.glyphs with alone | ⟨front, g, rest, split, code, top, semicolon, cut⟩
  · exact .inl (alone.trans (congrArg (· :: []) whole))
  refine .inr ⟨Text.ofGlyphs (front ++ [g]), Text.ofGlyphs rest, ?_, ?_⟩
  · obtain ⟨inner, read⟩ := glyphs_append (Text.ofGlyphs (front ++ [g]))
    have here : (Text.ofGlyphs (front ++ [g])).glyphs = front ++ [g] := by
      have both := read (Text.ofGlyphs rest)
      rw [← Text.ofGlyphs_append, List.append_assoc, List.singleton_append, ← split, whole, split,
        ← List.singleton_append, ← List.append_assoc] at both
      exact (List.append_inj both (by simp)).1.symm
    have ends : endsPiece (Text.ofGlyphs (front ++ [g])) := endsPiece_iff.mpr ⟨front, g, here, top, semicolon⟩
    refine ⟨ends, ?_, fun more => ?_⟩
    · rw [Uncommented, here]
      refine List.forall_mem_append.mpr ⟨code, List.forall_mem_singleton.mpr ?_⟩
      simp [semicolon]
    · rw [Text.pieces, (separate_of_endsPiece ends).2, here, List.append_assoc, List.singleton_append, cut]
      rfl
  · rw [← whole, split, ← Text.ofGlyphs_append, List.append_assoc, List.singleton_append]

/-- The pieces of a text end with semicolons, except for the last one. -/
theorem exists_pieces (text : Text) :
    ∃ (pieces : List Text) (last : Text), (∀ piece ∈ pieces, IsPiece piece) ∧ last.pieces = [last] ∧
      text = pieces.flatten ++ last := by
  rcases pieces_cases text with alone | ⟨piece, rest, isPiece, whole⟩
  · exact ⟨[], text, List.forall_mem_nil _, alone, rfl⟩
  · have shorter : rest.length < text.length := by
      rw [whole, List.length_append]
      exact Nat.lt_add_of_pos_left (List.length_pos_iff.mpr isPiece.filled)
    obtain ⟨pieces, last, each, alone, behind⟩ := exists_pieces rest
    refine ⟨piece :: pieces, last, List.forall_mem_cons.mpr ⟨isPiece, each⟩, alone, ?_⟩
    rw [whole, behind, List.flatten_cons, List.append_assoc]
termination_by text.length

theorem pieces_append {pieces : List Text} (each : ∀ piece ∈ pieces, IsPiece piece) (more : Text) :
    Text.pieces (pieces.flatten ++ more) = pieces ++ more.pieces := by
  induction pieces with
  | nil => rfl
  | cons piece pieces ih =>
      obtain ⟨here, each⟩ := List.forall_mem_cons.mp each
      rw [List.flatten_cons, List.append_assoc, here.cut, ih each, List.cons_append]

/-- Behind whole pieces a text is read as if it stood alone. -/
theorem alike_flatten {pieces : List Text} (each : ∀ piece ∈ pieces, IsPiece piece) :
    (Literal.ofText pieces.flatten).Alike {} ∧ Uncommented pieces.flatten := by
  induction pieces with
  | nil => exact ⟨⟨rfl, rfl⟩, List.forall_mem_nil _⟩
  | cons piece pieces ih =>
      obtain ⟨here, each⟩ := List.forall_mem_cons.mp each
      obtain ⟨alike, uncommented⟩ := ih each
      have first := (separate_of_endsPiece here.ends).1
      rw [List.flatten_cons]
      refine ⟨?_, (uncommented_append here.uncommented first _).mpr uncommented⟩
      rw [Literal.ofText_append]
      have through := Literal.alike_foldl first pieces.flatten
      exact ⟨through.1.trans alike.1, through.2.trans alike.2⟩

/-! ### The ends of pieces -/

/-- Blanks, or a comment behind a space. -/
def IsTail (tail : Text) : Prop := tail.isBlankText ∨ ∃ comment, tail = ' ' :: '%' :: comment

/-- A tail adds nothing but blanks to the code in front of it, if no literal is open there. -/
theorem splitComment_append_tail {text tail : Text} (closed : Uncommented text → IsClosed text)
    (isTail : IsTail tail) : ∃ blanks, Text.isBlankText blanks ∧
      (Text.splitComment (text ++ tail)).1 = (Text.splitComment text).1 ++ blanks ∧
        (¬Uncommented text → blanks = []) := by
  by_cases uncommented : Uncommented text
  · rw [Text.splitComment_eq_self_iff.mpr uncommented]
    rcases isTail with blank | ⟨comment, rfl⟩
    · have plain : '%' ∉ tail := Text.not_mem_of_isBlankText (by decide) blank
      rw [Text.splitComment_eq_self_iff.mpr (uncommented.append tail plain)]
      exact ⟨tail, blank, rfl, fun commented => absurd uncommented commented⟩
    · have alike := alike_concat (closed uncommented) (.inl rfl)
      have code := Text.splitComment_append_of_alike (uncommented.append [' '] (by decide)) alike
        ('%' :: comment)
      rw [List.append_assoc] at code
      refine ⟨[' '], rfl, code.trans ?_, fun commented => absurd uncommented commented⟩
      exact List.append_nil _
  · refine ⟨[], rfl, ?_, fun _ => rfl⟩
    rw [List.append_nil]
    rcases Text.splitComment_append text tail with same | ⟨whole, -⟩
    · exact same
    · exact absurd (Text.splitComment_eq_self_iff.mp whole) uncommented

theorem cutPieces_append_of_alone {front more : List Glyph} (alone : cutPieces front = [Text.ofGlyphs front])
    (rest : NoComment front → cutPieces more = [Text.ofGlyphs more]) :
    cutPieces (front ++ more) = [Text.ofGlyphs (front ++ more)] := by
  induction front with
  | nil => exact rest (List.forall_mem_nil _)
  | cons g front ih =>
      rw [cutPieces] at alone
      rw [List.cons_append, cutPieces]
      split
      · rfl
      rename_i code
      rw [if_neg code] at alone
      split
      · rename_i ends
        rw [if_pos ends] at alone
        exact absurd (List.cons.inj alone).2 (cutPieces_ne_nil front)
      · rename_i inside
        rw [if_neg inside] at alone
        have only : cutPieces front = [Text.ofGlyphs front] := by
          obtain ⟨first, others, cut⟩ := List.exists_cons_of_ne_nil (cutPieces_ne_nil front)
          rw [cut] at alone ⊢
          obtain ⟨same, none⟩ := List.cons.inj alone
          rw [none, (List.cons.inj same).2]
          rfl
        rw [ih only fun uncommented => rest ?_]
        · rfl
        · exact List.forall_mem_cons.mpr ⟨Bool.eq_false_iff.mpr code, uncommented⟩

theorem cutPieces_of_plain {gs : List Glyph} (plain : ∀ g ∈ gs, g.char ≠ '%' ∧ g.char ≠ ';') :
    cutPieces gs = [Text.ofGlyphs gs] := by
  induction gs with
  | nil => rfl
  | cons g gs ih =>
      obtain ⟨⟨noComment, noEnd⟩, plain⟩ := List.forall_mem_cons.mp plain
      rw [cutPieces, if_neg (by simp [noComment]), if_neg (by simp [noEnd]), ih plain]
      rfl

theorem pieces_append_tail {text tail : Text} (alone : text.pieces = [text])
    (closed : Uncommented text → IsClosed text) (isTail : IsTail tail) :
    Text.pieces (text ++ tail) = [text ++ tail] := by
  obtain ⟨inner, split⟩ := glyphs_append text
  have front : cutPieces text.glyphs = [Text.ofGlyphs text.glyphs] := by
    rwa [Text.ofGlyphs_glyphs]
  rw [Text.pieces, split, cutPieces_append_of_alone front, Text.ofGlyphs_append, Text.ofGlyphs_glyphs,
    Text.ofGlyphs_glyphsFrom]
  intro uncommented
  rcases isTail with blank | ⟨comment, rfl⟩
  · refine cutPieces_of_plain fun g member => ?_
    have inside := char_mem_of_mem_glyphsFrom member
    constructor
    · exact fun same => Text.not_mem_of_isBlankText (by decide) blank (same ▸ inside)
    · exact fun same => Text.not_mem_of_isBlankText (by decide) blank (same ▸ inside)
  · have free := closed uncommented
    have outside : ((Literal.ofText text).step ' ').covers '%' = false := by
      simp [Literal.covers, Literal.step, show (Literal.ofText text).inside = false from free]
    rw [glyphsFrom, glyphsFrom, outside, cutPieces, if_neg (by simp), if_neg (by simp), cutPieces,
      if_pos (by simp [Glyph.isFree])]
    rfl

/-! ### What is read from a piece -/

/-- Blanks behind a text are no part of its remote keyword, unless it is nothing else. -/
theorem isRemote_append_blank {text blanks : Text} (blank : blanks.isBlankText)
    (bare : text ≠ remoteKeyword) : IsRemote (text ++ blanks) ↔ IsRemote text := by
  rw [isRemote_iff, isRemote_iff]
  constructor
  · rintro ⟨c, rest, here, whole⟩
    rcases List.append_eq_append_iff.mp whole with ⟨part, front, behind⟩ | ⟨part, front, behind⟩
    · cases part with
      | nil => exact absurd (front.trans (List.append_nil _)).symm bare
      | cons d part =>
          have word : remoteKeyword.all isWordChar := by decide
          have inside : d ∈ remoteKeyword := front ▸ List.mem_append_right _ List.mem_cons_self
          have letter := isBlank_of_isWordChar (List.all_eq_true.mp word d inside)
          exact absurd (behind ▸ List.mem_cons_self) (Text.not_mem_of_isBlankText letter blank)
    · cases part with
      | nil => exact absurd (front.trans (List.append_nil _)) bare
      | cons d part =>
          obtain ⟨rfl, -⟩ := List.cons.inj behind
          exact ⟨c, part, here, front⟩
  · rintro ⟨c, rest, here, rfl⟩
    exact ⟨c, rest ++ blanks, here, List.append_assoc ..⟩

/-- Blanks behind the code of a line are no part of its statement. -/
theorem trim_dropRemoteKeyword_append (code : Text) {blanks : Text} (blank : blanks.isBlankText)
    (bare : code.trimStart ≠ remoteKeyword) :
    Text.trim (dropRemoteKeyword (code ++ blanks)) = Text.trim (dropRemoteKeyword code) := by
  have first := Text.trimStart_append_blank code blank
  by_cases remote : IsRemote code.trimStart
  · obtain ⟨c, rest, here, leads⟩ := isRemote_iff.mp remote
    rw [leads, if_neg (by simp [remoteKeyword]), List.append_assoc] at first
    rw [dropRemoteKeyword_of_remote here leads, dropRemoteKeyword_of_remote here first]
    exact Text.trim_append_blank (c :: rest) blank
  · rw [dropRemoteKeyword_eq_self remote, dropRemoteKeyword_eq_self, Text.trim_append_blank code blank]
    rw [first]
    split
    · rename_i none
      rwa [none] at remote
    · rwa [isRemote_append_blank blank bare]

/-- A tail is no part of the statement in front of it, unless there is nothing but the remote keyword. -/
theorem statementOf_append_tail {text tail : Text} (closed : Uncommented text → IsClosed text)
    (isTail : IsTail tail) (bare : text.trimStart ≠ remoteKeyword) :
    statementOf (text ++ tail) = statementOf text := by
  obtain ⟨blanks, blank, code, none⟩ := splitComment_append_tail closed isTail
  rw [statementOf, statementOf, code]
  by_cases uncommented : Uncommented text
  · rw [Text.splitComment_eq_self_iff.mpr uncommented]
    exact trim_dropRemoteKeyword_append text blank bare
  · rw [none uncommented, List.append_nil]

/-- A space in front of a piece is no part of its statement. -/
theorem statementOf_cons_space (text : Text) : statementOf (' ' :: text) = statementOf text := by
  have start (code : Text) : Text.trimStart (' ' :: code) = code.trimStart :=
    List.dropWhile_cons_of_pos (by decide)
  rw [statementOf, statementOf, Text.splitComment_of_isBlank (by decide)]
  by_cases remote : IsRemote (Text.splitComment text).1.trimStart
  · obtain ⟨c, rest, here, leads⟩ := isRemote_iff.mp remote
    rw [dropRemoteKeyword_of_remote here leads, dropRemoteKeyword_of_remote here ((start _).trans leads)]
  · rw [dropRemoteKeyword_eq_self remote, dropRemoteKeyword_eq_self (by rwa [start]), Text.trim, start]
    rfl

/-- What has no code behind a piece is no part of its statement. -/
theorem statementOf_append_blank {piece rest : Text} (isPiece : IsPiece piece)
    (blank : (Text.splitComment rest).1.isBlankText) : statementOf (piece ++ rest) = statementOf piece := by
  have alike := (separate_of_endsPiece isPiece.ends).1
  rw [statementOf, statementOf, Text.splitComment_append_of_alike isPiece.uncommented alike,
    Text.splitComment_eq_self_iff.mpr isPiece.uncommented]
  refine trim_dropRemoteKeyword_append piece blank fun bare => ?_
  obtain ⟨front, whole⟩ : remoteKeyword <:+ piece := bare ▸ List.dropWhile_suffix isBlank
  have last := getLast?_of_endsPiece isPiece.ends
  rw [← whole, List.getLast?_append] at last
  cases last

end MissionScript
