import MissionScript.Proofs.Script.Meaning
import MissionScript.Proofs.Script.Pieces

/-!
# Layout

Four edits of the layout of a source: a line is continued at a space, broken behind a semicolon, gets a
comment at its end, or gets a comment line in front of it. Each edit exchanges the lines behind some
others, and all that it meets of those is the statement that is open behind them. An edit that keeps the
instructions of the lines it exchanges keeps those of the source, and so what the source says.
-/

namespace MissionScript

/-! ### Instructions -/

/-- A piece without code stays with the piece in front of it. -/
theorem splitStatements_of_pieces {line last : Text} {pieces : List Text}
    (cut : line.pieces = pieces ++ [last]) :
    splitStatements line = match pieces.getLast? with
      | some final =>
        if (Text.splitComment last).1.isBlankText then pieces.dropLast ++ [final ++ last]
        else pieces ++ [last]
      | none => [last] := by
  have read := cutAfterSemicolons_eq [] line.glyphs
  have start : line.pieces.modifyHead (([] : Text).reverse ++ ·) = line.pieces := by
    cases line.pieces <;> rfl
  rw [show cutPieces line.glyphs = line.pieces from rfl, start, cut] at read
  obtain ⟨first, final⟩ := List.append_inj' read rfl
  rw [splitStatements]
  dsimp only
  rewrite [first, (List.cons.inj final).1]
  rfl

/-- A piece without code is no statement, whether it stays with the piece in front of it or not. -/
theorem instructionsOf_eq (line : Text) : instructionsOf line = line.pieces.filterMap instruction? := by
  obtain ⟨pieces, last, each, alone, whole⟩ := exists_pieces line
  have cut : line.pieces = pieces ++ [last] := by
    rw [whole, pieces_append each, alone]
  rw [cut, instructionsOf, splitStatements_of_pieces cut]
  cases ends : pieces.getLast? with
  | none =>
      rw [List.getLast?_eq_none_iff.mp ends]
      rfl
  | some piece =>
      dsimp only
      split
      · rename_i blank
        have isPiece := each piece (List.mem_of_getLast? ends)
        have glued := instruction?_congr (statementOf_append_blank isPiece blank)
        obtain ⟨front, rfl⟩ := List.getLast?_eq_some_iff.mp ends
        rw [List.dropLast_concat, List.append_assoc, List.filterMap_append, List.filterMap_append]
        simp only [List.singleton_append, List.filterMap_cons, List.filterMap_nil, glued,
          instruction?_of_isRemark (isRemark_iff.mpr blank)]
      · rfl

/-- Only one more piece comes from a text behind whole pieces. -/
theorem instructionsOf_append_tail {text tail : Text} (closed : Uncommented text → IsClosed text)
    (isTail : IsTail tail) (bare : ∀ last ∈ text.pieces.getLast?, last.trimStart ≠ remoteKeyword) :
    instructionsOf (text ++ tail) = instructionsOf text := by
  obtain ⟨pieces, last, each, alone, whole⟩ := exists_pieces text
  obtain ⟨alike, uncommented⟩ := alike_flatten each
  have cut : text.pieces = pieces ++ [last] := by
    rw [whole, pieces_append each, alone]
  have closed : Uncommented last → IsClosed last := by
    rw [whole, uncommented_append uncommented alike, isClosed_append_of_alike alike] at closed
    exact closed
  have bare := bare last (by rw [cut, List.getLast?_concat]; rfl)
  rw [instructionsOf_eq, instructionsOf_eq, cut, whole, List.append_assoc, pieces_append each,
    pieces_append_tail alone closed isTail, List.filterMap_append, List.filterMap_append,
    List.filterMap_cons, List.filterMap_cons,
    instruction?_congr (statementOf_append_tail closed isTail bare)]

theorem instructionsOf_cons_space (text : Text) : instructionsOf (' ' :: text) = instructionsOf text := by
  have cut : Text.pieces (' ' :: text) = consToFirst ' ' text.pieces := by
    rw [Text.pieces, glyphs_of_isBlank (by decide), cutPieces, if_neg (by decide), if_neg (by decide)]
    rfl
  rw [instructionsOf_eq, instructionsOf_eq, cut]
  obtain ⟨first, others, some⟩ := List.exists_cons_of_ne_nil (cutPieces_ne_nil text.glyphs)
  rw [show text.pieces = first :: others from some, consToFirst, List.filterMap_cons, List.filterMap_cons,
    instruction?_congr (statementOf_cons_space first)]

/-- Behind a semicolon that ends a statement, the statements are those of the text that stands there. -/
theorem instructionsOf_append {front : Text} (ends : endsPiece front) (uncommented : Uncommented front)
    (text : Text) : instructionsOf (front ++ text) = instructionsOf front ++ instructionsOf text := by
  obtain ⟨before, g, glyphs, top, semicolon⟩ := endsPiece_iff.mp ends
  have code : NoComment before := by
    rw [Uncommented, glyphs] at uncommented
    exact (List.forall_mem_append.mp uncommented).1
  obtain ⟨first, others, cut⟩ := cutPieces_semicolon code top semicolon
  have behind (more : Text) : Text.pieces (front ++ more) = first :: (others ++ more.pieces) := by
    rw [Text.pieces, (separate_of_endsPiece ends).2, glyphs, List.append_assoc]
    exact cut more.glyphs
  have alone : instructionsOf front = (first :: others).filterMap instruction? := by
    have none : (Text.pieces []).filterMap instruction? = [] := by decide
    have only := behind []
    rw [List.append_nil, ← List.cons_append] at only
    rw [instructionsOf_eq, only, List.filterMap_append, none, List.append_nil]
  rw [instructionsOf_eq, behind, ← List.cons_append, List.filterMap_append, alone, instructionsOf_eq]

/-! ### Roles -/

/-- A tail does not change what a line does. -/
theorem lineRole_append_tail {body tail : Text} (closed : Uncommented body → IsClosed body)
    (isTail : IsTail tail) (statement : Text) :
    lineRole statement (body ++ tail) = lineRole statement body := by
  obtain ⟨blanks, blank, code, -⟩ := splitComment_append_tail closed isTail
  have remark : isRemark (body ++ tail) = isRemark body := by
    rw [Bool.eq_iff_iff, isRemark_iff, isRemark_iff, code, Text.isBlankText_append, blank, Bool.and_true]
  rw [lineRole, lineRole, remark, code, Text.trimEnd_append_blank _ blank]

/-- The code behind a space outside literals and comments is that of the text that stands there. -/
theorem splitComment_append_space {front : Text} (uncommented : Uncommented front)
    (closed : IsClosed front) (right : Text) :
    (Text.splitComment (front ++ ' ' :: right)).1 = front ++ ' ' :: (Text.splitComment right).1 := by
  have code := Text.splitComment_append_of_alike (uncommented.append [' '] (by decide))
    (alike_concat closed (.inl rfl)) right
  rwa [List.append_assoc, List.append_assoc] at code

theorem continued?_append_space {front right : Text} (uncommented : Uncommented front)
    (closed : IsClosed front) (code : (Text.splitComment right).1.isBlankText = false) :
    continued? (front ++ ' ' :: right) = (continued? right).map (front ++ ' ' :: ·) := by
  have filled : Text.dropEndWhile isBlank (Text.splitComment right).1 ≠ [] :=
    mt Text.trimEnd_eq_nil_iff.mp (Bool.eq_false_iff.mp code)
  have whole : (front ++ ' ' :: (Text.splitComment right).1).trimEnd =
      front ++ [' '] ++ (Text.splitComment right).1.trimEnd := by
    rw [← List.singleton_append, ← List.append_assoc, Text.trimEnd, Text.dropEndWhile_append_eq, if_neg filled]
    rfl
  rw [continued?, splitComment_append_space uncommented closed, whole]
  ext head
  rw [Text.before?_eq_some_iff, Option.map_eq_some_iff]
  constructor
  · intro marked
    obtain ⟨code, rfl, behind⟩ := exists_of_append_eq marked (by
      rw [List.getLast?_concat]
      rintro c ⟨⟩
      decide)
    exact ⟨code, Text.before?_eq_some_iff.mpr behind, List.append_cons ..⟩
  · rintro ⟨code, marked, rfl⟩
    rw [Text.before?_eq_some_iff.mp marked, List.append_assoc, List.append_assoc]
    rfl

/-! ### Edits of the lines that are left -/

section

variable {statement line : Text} (code : statement.isEmpty = false ∨ isRemark line = false)

include code

theorem instructionsFrom_of_continued {head : Text} (marked : continued? line = some head) (noted : Bool)
    (lines : List Text) :
    instructionsFrom noted statement (line :: lines) =
      instructionsFrom noted (statement ++ head ++ [' ']) lines := by
  rw [instructionsFrom, lineRole_eq code, marked]

theorem instructionsFrom_of_complete (unmarked : continued? line = none)
    (filled : Text.isBlankText (statement ++ line) = false) (noted : Bool) (lines : List Text) :
    instructionsFrom noted statement (line :: lines) =
      (instructionsFrom false [] lines).map (instructionsOf (statement ++ line) ++ ·) := by
  rw [instructionsFrom, lineRole_eq code, unmarked]
  dsimp only
  rw [filled, Bool.not_false, Bool.or_true, if_pos rfl]
  cases instructionsFrom false [] lines <;> rfl

end

theorem isRemark_append_of_uncommented {line : Text} (uncommented : Uncommented line)
    (filled : line.isBlankText = false) (more : Text) : isRemark (line ++ more) = false :=
  isRemark_append (by rwa [Text.splitComment_eq_self_iff.mpr uncommented]) more

/-- A line may be broken behind a space with a continuation mark. -/
theorem instructionsFrom_continued {left right : Text} (uncommented : Uncommented left)
    (closed : IsClosed left) (filled : left.isBlankText = false)
    (code : (Text.splitComment right).1.isBlankText = false) (noted : Bool) (statement : Text)
    (after : List Text) :
    instructionsFrom noted statement ((left ++ continuationMark ++ ['\n']) :: right :: after) =
      instructionsFrom noted statement ((left ++ ' ' :: right) :: after) := by
  have marked : continued? (left ++ continuationMark ++ ['\n']) = some left := by
    rw [continued?, List.append_assoc, Text.splitComment_eq_self_iff.mpr (uncommented.append _ (by decide)),
      Text.trimEnd, Text.dropEndWhile_append_eq, if_neg (by decide), Text.before?_eq_some_iff]
    rfl
  have noRemark (more : Text) : isRemark (left ++ more) = false :=
    isRemark_append_of_uncommented uncommented filled more
  have joined (text : Text) :
      statement ++ left ++ [' '] ++ text = statement ++ (left ++ ' ' :: text) := by
    rw [List.append_assoc, List.append_assoc]
    rfl
  have whole := continued?_append_space uncommented closed code
  rw [instructionsFrom_of_continued (.inr (List.append_assoc left .. ▸ noRemark _)) marked]
  cases next : continued? right with
  | some head =>
      rw [next] at whole
      rw [instructionsFrom_of_continued (.inl (by simp)) next,
        instructionsFrom_of_continued (.inr (noRemark _)) whole, joined]
  | none =>
      have written : Text.isBlankText (statement ++ (left ++ ' ' :: right)) = false :=
        Text.isBlankText_eq_false_of_subset
          (List.subset_append_of_subset_right _ (List.subset_append_left ..)) filled
      rw [next] at whole
      rw [instructionsFrom_of_complete (.inl (by simp)) next (joined right ▸ written),
        instructionsFrom_of_complete (.inr (noRemark _)) whole written, joined]

/-- A note in the preface does not get a block refused. -/
theorem instructionsFrom_true {noted : Bool} {statement : Text} {lines instructions : List Text}
    (read : instructionsFrom noted statement lines = some instructions) :
    instructionsFrom true statement lines = some instructions := by
  induction lines generalizing noted statement with
  | nil => exact read
  | cons line lines ih =>
      rw [instructionsFrom] at read ⊢
      cases role : lineRole statement line with
      | preface =>
          rw [role] at read
          exact ih read
      | continued code =>
          rw [role] at read
          exact ih read
      | complete =>
          rw [role] at read
          dsimp only at read ⊢
          split at read
          · exact read
          · cases read

/-- A line may get a comment, unless the last statement on it is the bare remote keyword. -/
theorem instructionsFrom_remarked {body tail other : Text} {statement : Text}
    (closed : Uncommented body → IsClosed body)
    (whole : Uncommented (statement ++ body) → IsClosed (statement ++ body))
    (bare : ∀ last ∈ (Text.pieces (statement ++ body)).getLast?, last.trimStart ≠ remoteKeyword)
    (isTail : IsTail tail) (isOther : IsTail other) (filled : Text.isBlankText other = false)
    {noted : Bool} {after instructions : List Text}
    (read : instructionsFrom noted statement ((body ++ tail) :: after) = some instructions) :
    instructionsFrom noted statement ((body ++ other) :: after) = some instructions := by
  have some (front : Text) : Text.isBlankText (front ++ (body ++ other)) = false := by
    rw [Text.isBlankText_append, Text.isBlankText_append, filled, Bool.and_false, Bool.and_false]
  rw [instructionsFrom, lineRole_append_tail closed isTail] at read
  rw [instructionsFrom, lineRole_append_tail closed isOther]
  cases role : lineRole statement body with
  | preface =>
      rw [role] at read
      have noted' : (noted || !Text.isBlankText (body ++ other)) = true := by
        rw [← List.nil_append body, List.append_assoc, some, Bool.not_false, Bool.or_true]
      dsimp only
      rw [noted']
      exact instructionsFrom_true read
  | continued code =>
      rw [role] at read
      exact read
  | complete =>
      rw [role] at read
      dsimp only at read ⊢
      rw [← List.append_assoc, instructionsOf_append_tail whole isTail bare] at read
      rw [some, Bool.not_false, Bool.or_true, if_pos rfl, ← List.append_assoc,
        instructionsOf_append_tail whole isOther bare]
      split at read
      · exact read
      · cases read

/-- A remark may be put where no statement is open. -/
theorem instructionsFrom_noted {remark : Text} (isRemark : isRemark remark) {noted : Bool}
    {lines instructions : List Text} (read : instructionsFrom noted [] lines = some instructions) :
    instructionsFrom noted [] (remark :: lines) = some instructions := by
  rw [instructionsFrom, lineRole, isRemark]
  change instructionsFrom (noted || !remark.isBlankText) [] lines = _
  cases noted with
  | true => exact read
  | false =>
      cases remark.isBlankText with
      | true => exact read
      | false => exact instructionsFrom_true read

/-- The statements of an open text behind a semicolon are those of the text on its own, once it is
completed. -/
theorem instructionsFrom_behind {front : Text} (ends : endsPiece front) (uncommented : Uncommented front)
    {text : Text} (filled : text.isBlankText = false) (noted : Bool) {lines : List Text}
    (finished : ∃ line ∈ lines, continues line = false) :
    instructionsFrom noted (front ++ ' ' :: text) lines =
      (instructionsFrom false text lines).map (instructionsOf front ++ ·) := by
  induction lines generalizing text with
  | nil => simp at finished
  | cons line lines ih =>
      have nonempty : text.isEmpty = false := by
        rw [List.isEmpty_eq_false_iff]
        rintro rfl
        cases filled
      have joined (text more : Text) : front ++ ' ' :: text ++ more = front ++ ' ' :: (text ++ more) :=
        List.append_assoc ..
      have written (more : Text) : Text.isBlankText (text ++ more) = false :=
        Text.isBlankText_eq_false_of_subset (List.subset_append_left ..) filled
      cases marked : continued? line with
      | some code =>
          rw [instructionsFrom_of_continued (.inl (by simp)) marked,
            instructionsFrom_of_continued (.inl nonempty) marked, joined, joined]
          refine ih ?_ ?_
          · rw [List.append_assoc]
            exact written _
          · obtain ⟨other, member, own⟩ := finished
            rcases List.mem_cons.mp member with rfl | member
            · rw [continues_eq, marked] at own
              cases own
            · exact ⟨other, member, own⟩
      | none =>
          have behind : Text.isBlankText (front ++ ' ' :: text ++ line) = false :=
            Text.isBlankText_eq_false_of_subset (joined text line ▸
              List.subset_append_of_subset_right _ (List.subset_cons_self ..)) (written line)
          rw [instructionsFrom_of_complete (.inl (by simp)) marked behind,
            instructionsFrom_of_complete (.inl nonempty) marked (written line), joined,
            instructionsOf_append ends uncommented, instructionsOf_cons_space, Option.map_map]
          exact congrArg (Option.map · _) (funext fun others => List.append_assoc ..)

/-- The code of a line without its continuation mark. -/
def ownCode (line : Text) : Text := (continued? line).getD (Text.splitComment line).1

theorem prefix_ownCode (line : Text) : ownCode line <+: (Text.splitComment line).1 := by
  rw [ownCode]
  cases marked : continued? line with
  | none => exact List.prefix_rfl
  | some head =>
      refine List.IsPrefix.trans ?_ (Text.dropEndWhile_prefix isBlank _)
      exact ⟨continuationMark, (Text.before?_eq_some_iff.mp marked).symm⟩

/-- Behind a semicolon there is no mark. -/
theorem continued?_of_semicolon {front : Text} (uncommented : Uncommented front)
    (last : front.getLast? = some ';') : continued? (front ++ ['\n']) = none := by
  rw [continued?, Text.splitComment_eq_self_iff.mpr (uncommented.append _ (by decide)), Text.trimEnd,
    Text.dropEndWhile_concat_of_pos (by decide), Text.dropEndWhile_eq_self,
    Option.eq_none_iff_forall_ne_some]
  · intro lead marked
    rw [Text.before?_eq_some_iff.mp marked, List.getLast?_append] at last
    cases last
  · rw [last]
    rintro c ⟨⟩
    decide

/-- A line may be broken behind a semicolon that ends a statement, if another one stands behind it that is
completed. -/
theorem instructionsFrom_broken {statement front right : Text} (ends : endsPiece (statement ++ front))
    (whole : Uncommented (statement ++ front)) (uncommented : Uncommented front) (closed : IsClosed front)
    (last : front.getLast? = some ';') (another : (ownCode right).isBlankText = false) {after : List Text}
    (finished : ∃ line ∈ (front ++ ' ' :: right) :: after, continues line = false) {noted : Bool}
    {instructions : List Text}
    (read : instructionsFrom noted statement ((front ++ ' ' :: right) :: after) = some instructions) :
    instructionsFrom noted statement ((front ++ ['\n']) :: right :: after) = some instructions := by
  have filled : front.isBlankText = false := isBlankText_of_semicolon (List.mem_of_getLast? last)
  have code := Text.isBlankText_eq_false_of_subset (prefix_ownCode right).subset another
  have here : Text.isBlankText ([] ++ right) = false :=
    Text.isBlankText_eq_false_of_subset (Text.splitComment_prefix right).subset code
  have noRemark : isRemark right = false := by
    rw [Bool.eq_false_iff, Ne, isRemark_iff, code]
    exact Bool.false_ne_true
  have noRemarkFront (more : Text) : isRemark (front ++ more) = false :=
    isRemark_append_of_uncommented uncommented filled more
  have written (more : Text) : Text.isBlankText (statement ++ (front ++ more)) = false :=
    Text.isBlankText_eq_false_of_subset
      (List.subset_append_of_subset_right _ (List.subset_append_left ..)) filled
  have feed : instructionsOf (statement ++ (front ++ ['\n'])) = instructionsOf (statement ++ front) := by
    have none : instructionsOf ['\n'] = [] := by decide
    rw [← List.append_assoc, instructionsOf_append ends whole, none, List.append_nil]
  have joined (text : Text) : statement ++ (front ++ ' ' :: text) = statement ++ front ++ ' ' :: text :=
    (List.append_assoc ..).symm
  have both := continued?_append_space uncommented closed code
  rw [instructionsFrom_of_complete (.inr (noRemarkFront _)) (continued?_of_semicolon uncommented last)
    (written _), feed]
  cases marked : continued? right with
  | some head =>
      rw [marked] at both
      rw [instructionsFrom_of_continued (.inr (noRemarkFront _)) both, joined, List.append_assoc,
        List.cons_append, instructionsFrom_behind ends whole] at read
      · rwa [instructionsFrom_of_continued (.inr noRemark) marked]
      · rw [ownCode, marked] at another
        exact Text.isBlankText_eq_false_of_subset (List.subset_append_left ..) another
      · obtain ⟨line, member, own⟩ := finished
        rcases List.mem_cons.mp member with rfl | member
        · rw [continues_eq, both] at own
          cases own
        · exact ⟨line, member, own⟩
  | none =>
      rw [marked] at both
      rw [instructionsFrom_of_complete (.inr (noRemarkFront _)) both (written _), joined,
        instructionsOf_append ends whole, instructionsOf_cons_space] at read
      rw [instructionsFrom_of_complete (.inr noRemark) marked here, Option.map_map, ← read]
      exact congrArg (Option.map · _) (funext fun others => (List.append_assoc ..).symm)

/-! ### The open statement -/

/-- The continued lines of the statement that is open behind some lines. -/
def openStatement (statement : Text) : List Text → Text
  | [] => statement
  | line :: lines =>
    match lineRole statement line with
    | .preface => openStatement statement lines
    | .continued code => openStatement (statement ++ code ++ [' ']) lines
    | .complete => openStatement [] lines

/-- An edit that keeps the instructions behind some lines keeps them behind more of them. -/
theorem instructionsFrom_append {before rest others : List Text} {statement : Text}
    (same : ∀ noted instructions,
      instructionsFrom noted (openStatement statement before) rest = some instructions →
        instructionsFrom noted (openStatement statement before) others = some instructions)
    (noted : Bool) {instructions : List Text}
    (read : instructionsFrom noted statement (before ++ rest) = some instructions) :
    instructionsFrom noted statement (before ++ others) = some instructions := by
  induction before generalizing noted statement instructions with
  | nil => exact same noted instructions read
  | cons line before ih =>
      rw [List.cons_append, instructionsFrom] at read ⊢
      rw [openStatement] at same
      cases role : lineRole statement line with
      | preface =>
          rw [role] at read same
          exact ih same _ read
      | continued code =>
          rw [role] at read same
          exact ih same _ read
      | complete =>
          rw [role] at read same
          dsimp only at read ⊢
          split at read
          · rename_i some
            rw [if_pos some]
            obtain ⟨more, behind, made⟩ := Option.bind_eq_some_iff.mp read
            exact Option.bind_eq_some_iff.mpr ⟨more, ih same false behind, made⟩
          · cases read

/-- A continued statement is read to its end where no literal is open at the end of the code of a line. -/
theorem alike_openStatement (statement : Text) (uncommented : Uncommented statement)
    (alike : (Literal.ofText statement).Alike {}) {before : List Text}
    (closed : ∀ line ∈ before, IsClosed (Text.splitComment line).1) :
    Uncommented (openStatement statement before) ∧
      (Literal.ofText (openStatement statement before)).Alike {} := by
  induction before generalizing statement with
  | nil => exact ⟨uncommented, alike⟩
  | cons line before ih =>
      obtain ⟨here, closed⟩ := List.forall_mem_cons.mp closed
      rw [openStatement]
      cases role : lineRole statement line with
      | preface => exact ih statement uncommented alike closed
      | complete => exact ih [] (List.forall_mem_nil _) ⟨rfl, rfl⟩ closed
      | continued code =>
          obtain ⟨blanks, blank, whole⟩ := Text.exists_trimEnd (Text.splitComment line).1
          rw [code_of_lineRole role, List.append_assoc] at whole
          have plain : '\'' ∉ continuationMark ++ blanks :=
            List.not_mem_append (by decide) (Text.not_mem_of_isBlankText (by decide) blank)
          have own : IsClosed (statement ++ code) := by
            rw [isClosed_append_of_alike alike]
            rwa [whole, isClosed_append plain] at here
          have code : Uncommented (statement ++ code) := by
            rw [uncommented_append uncommented alike]
            exact Uncommented.of_prefix (uncommented_splitComment line) ⟨_, whole.symm⟩
          exact ih _ (code.append [' '] (by decide)) (alike_concat own (.inl rfl)) closed

theorem openStatement_append (statement : Text) (before after : List Text) :
    openStatement statement (before ++ after) = openStatement (openStatement statement before) after := by
  induction before generalizing statement with
  | nil => rfl
  | cons line before ih =>
      rw [List.cons_append, openStatement, openStatement]
      cases lineRole statement line with
      | preface => exact ih _
      | continued code => exact ih _
      | complete => exact ih _

/-- No statement is open behind a line that is not continued. -/
theorem openStatement_eq_nil {before : List Text} (between : ∀ last ∈ before.getLast?, continues last = false) :
    openStatement [] before = [] := by
  cases before using List.reverseRecOn with
  | nil => rfl
  | append_singleton before last =>
      have own := between last List.getLast?_concat
      rw [openStatement_append, openStatement]
      cases role : lineRole (openStatement [] before) last with
      | preface => exact (lineRole_eq_preface_iff.mp role).1
      | complete => rfl
      | continued code =>
          rw [continues_of_lineRole role] at own
          cases own

/-! ### Edits of a source -/

/-- An edit of the layout of a source that is to keep what its statements say. -/
inductive Relayout (source : Text) : Text → Prop
  /-- A space with code on both sides of it becomes a continuation mark and a line break. -/
  | continued {before after : List Text} {left right : Text}
      (place : source.lines = before ++ (left ++ ' ' :: right) :: after)
      (uncommented : Uncommented left) (closed : IsClosed left) (filled : left.isBlankText = false)
      (code : (Text.splitComment right).1.isBlankText = false) :
      Relayout source (before ++ (left ++ continuationMark ++ ['\n']) :: right :: after).flatten
  /-- The space behind a semicolon between two statements becomes a line break. What is continued to the
  end of the source is one statement, whatever stands in it. -/
  | broken {before after : List Text} {left right : Text}
      (place : source.lines = before ++ (left ++ ';' :: ' ' :: right) :: after)
      (uncommented : Uncommented (openStatement [] before ++ (left ++ [';'])))
      (ends : endsPiece (openStatement [] before ++ (left ++ [';'])))
      (another : (ownCode right).isBlankText = false)
      (finished : ∃ line ∈ (left ++ ';' :: ' ' :: right) :: after, continues line = false) :
      Relayout source (before ++ (left ++ [';', '\n']) :: right :: after).flatten
  /-- A comment is appended to a line, unless the last statement on the line is the bare remote keyword. -/
  | remarked {before after : List Text} {body ending comment : Text}
      (place : source.lines = before ++ (body ++ ending) :: after) (single : '\n' ∉ body)
      (ended : ending = [] ∨ ending = ['\n']) (plain : ∀ c ∈ comment, isLineEnd c = false)
      (bare : ∀ last ∈ (splitStatements (openStatement [] before ++ body)).getLast?,
        last.trimStart ≠ remoteKeyword) :
      Relayout source (before ++ (body ++ ' ' :: '%' :: (comment ++ ending)) :: after).flatten
  /-- A comment line is put between two statements. -/
  | noted {before after : List Text} {comment : Text} (place : source.lines = before ++ after)
      (between : ∀ last ∈ before.getLast?, last.getLast? = some '\n' ∧ continues last = false)
      (remark : isRemark (comment ++ ['\n'])) (plain : ∀ c ∈ comment, isLineEnd c = false) :
      Relayout source (before ++ (comment ++ ['\n']) :: after).flatten

/-- Lines are exchanged behind some others. -/
theorem instructionsFrom_exchange {source : Text} {before rest others : List Text}
    (place : source.lines = before ++ rest) (are : AreLines (before ++ others)) (noReturn : '\r' ∉ source)
    (plain : '\r' ∉ rest.flatten → '\r' ∉ others.flatten)
    (same : ∀ noted instructions,
      instructionsFrom noted (openStatement [] before) rest = some instructions →
        instructionsFrom noted (openStatement [] before) others = some instructions) :
    '\r' ∉ (before ++ others).flatten ∧
      ∀ instructions, instructionsFrom false [] source.lines = some instructions →
        instructionsFrom false [] (Text.lines (before ++ others).flatten) = some instructions := by
  constructor
  · rw [← Text.flatten_lines source, place, List.flatten_append, List.mem_append, not_or] at noReturn
    rw [List.flatten_append, List.mem_append, not_or]
    exact ⟨noReturn.1, plain noReturn.2⟩
  · intro instructions read
    rw [place] at read
    rw [Text.lines_flatten are]
    exact instructionsFrom_append same false read

theorem areLines_broken {front right : Text} {before after : List Text}
    (are : AreLines (before ++ (front ++ ' ' :: right) :: after)) (filled : right ≠ []) {mark : Text}
    (plain : '\n' ∉ mark) : AreLines (before ++ (front ++ (mark ++ ['\n'])) :: right :: after) := by
  obtain ⟨above, feed, here⟩ := areLines_append.mp are
  obtain ⟨⟨-, single⟩, last, below⟩ := areLines_cons.mp here
  rw [List.dropLast_append_of_ne_nil (List.cons_ne_nil _ _), List.dropLast_cons_of_ne_nil filled,
    List.mem_append, List.mem_cons, not_or, not_or] at single
  rw [List.getLast?_append_of_ne_nil _ (List.cons_ne_nil _ _), List.getLast?_cons_of_ne_nil filled] at last
  refine areLines_append.mpr ⟨above, fun _ => feed (List.cons_ne_nil _ _), ?_⟩
  refine areLines_cons.mpr ⟨⟨by simp, ?_⟩, fun _ => ?_, ?_⟩
  · rw [← List.append_assoc, List.dropLast_concat]
    exact List.not_mem_append single.1 plain
  · rw [← List.append_assoc, List.getLast?_concat]
  · exact areLines_cons.mpr ⟨⟨filled, single.2.2⟩, last, below⟩

theorem areLines_remarked {body ending comment : Text} {before after : List Text}
    (are : AreLines (before ++ (body ++ ending) :: after)) (single : '\n' ∉ body)
    (ended : ending = [] ∨ ending = ['\n']) (plain : '\n' ∉ comment) :
    AreLines (before ++ (body ++ ' ' :: '%' :: (comment ++ ending)) :: after) := by
  obtain ⟨above, feed, here⟩ := areLines_append.mp are
  obtain ⟨⟨filled, -⟩, last, below⟩ := areLines_cons.mp here
  have joined : body ++ ' ' :: '%' :: (comment ++ ending) = (body ++ ' ' :: '%' :: comment) ++ ending :=
    (List.append_assoc body (' ' :: '%' :: comment) ending).symm
  have inside : '\n' ∉ body ++ ' ' :: '%' :: comment := by
    simp only [List.mem_append, List.mem_cons, not_or]
    exact ⟨single, by decide, by decide, plain⟩
  rw [joined]
  refine areLines_append.mpr ⟨above, fun _ => feed (List.cons_ne_nil _ _), ?_⟩
  refine areLines_cons.mpr ⟨⟨by simp, ?_⟩, fun more => ?_, below⟩
  · rcases ended with rfl | rfl
    · rw [List.append_nil]
      exact fun member => inside (List.dropLast_subset _ member)
    · rwa [List.dropLast_concat]
  · rcases ended with rfl | rfl
    · have feed := last more
      rw [List.append_nil] at feed
      exact absurd (List.mem_of_getLast? feed) single
    · exact List.getLast?_concat

theorem not_mem_of_isLineEnd {text : Text} (plain : ∀ c ∈ text, isLineEnd c = false) :
    '\n' ∉ text ∧ '\r' ∉ text := by
  constructor
  · intro member
    cases plain _ member
  · intro member
    cases plain _ member

/-- The last piece of a line is its last statement, or there is no code in it. -/
theorem bare_pieces {line : Text}
    (bare : ∀ last ∈ (splitStatements line).getLast?, last.trimStart ≠ remoteKeyword) :
    ∀ last ∈ line.pieces.getLast?, last.trimStart ≠ remoteKeyword := by
  intro last final
  obtain ⟨pieces, cut⟩ := List.getLast?_eq_some_iff.mp final
  rw [splitStatements_of_pieces cut] at bare
  cases ends : pieces.getLast? with
  | none =>
      rw [ends] at bare
      exact bare last rfl
  | some piece =>
      rw [ends] at bare
      dsimp only at bare
      split at bare
      · rename_i blank
        intro keyword
        have code := Text.splitComment_trimStart last
        rw [keyword, Text.trimStart_eq_nil_iff.mpr blank] at code
        revert code
        decide
      · exact bare last List.getLast?_concat

/-- An edit of the layout keeps the instructions. -/
theorem Relayout.instructions {source edited : Text} (relayout : Relayout source edited)
    (noReturn : '\r' ∉ source) (closed : ∀ line ∈ source.lines, IsClosed (Text.splitComment line).1) :
    '\r' ∉ edited ∧ ∀ instructions, instructionsFrom false [] source.lines = some instructions →
      instructionsFrom false [] edited.lines = some instructions := by
  have are := areLines_lines source
  cases relayout with
  | @continued before after left right place uncommented own filled code =>
      rw [place] at are
      have some : right ≠ [] := by
        rintro rfl
        cases code
      refine instructionsFrom_exchange place ?_ noReturn ?_ fun noted instructions read => ?_
      · rw [List.append_assoc]
        exact areLines_broken are some (by decide)
      · simp only [List.flatten_cons, List.mem_append, List.mem_cons, not_or]
        rintro ⟨⟨front, -, behind⟩, below⟩
        exact ⟨⟨⟨front, by decide⟩, by decide⟩, behind, below⟩
      · rwa [instructionsFrom_continued uncommented own filled code]
  | @broken before after left right place uncommented ends another finished =>
      have split (text : Text) : left ++ ';' :: text = left ++ [';'] ++ text := List.append_cons ..
      rw [split] at place finished
      rw [place] at are closed
      have some : right ≠ [] := by
        rintro rfl
        cases another
      obtain ⟨code, alike⟩ := alike_openStatement [] (List.forall_mem_nil _) ⟨rfl, rfl⟩
        fun line member => closed line (List.mem_append_left _ member)
      have own : IsClosed (left ++ [';']) :=
        (isClosed_append_of_alike alike _).mp (separate_of_endsPiece ends).1.1
      rw [split]
      refine instructionsFrom_exchange place ?_ noReturn ?_ fun noted instructions read => ?_
      · exact areLines_broken are some List.not_mem_nil
      · simp only [List.flatten_cons, List.mem_append, List.mem_cons, not_or]
        rintro ⟨⟨⟨front, -⟩, -, behind⟩, below⟩
        exact ⟨⟨⟨front, by decide⟩, by decide⟩, behind, below⟩
      · exact instructionsFrom_broken ends uncommented ((uncommented_append code alike _).mp uncommented) own
          List.getLast?_concat another finished read
  | @remarked before after body ending comment place single ended plain bare =>
      rw [place] at are closed
      obtain ⟨code, alike⟩ := alike_openStatement [] (List.forall_mem_nil _) ⟨rfl, rfl⟩
        fun line member => closed line (List.mem_append_left _ member)
      have noEnd := not_mem_of_isLineEnd plain
      have own : Uncommented body → IsClosed body := by
        intro uncommented
        have here := closed (body ++ ending) (List.mem_append_right _ List.mem_cons_self)
        rcases ended with rfl | rfl
        · rwa [List.append_nil, Text.splitComment_eq_self_iff.mpr uncommented] at here
        · rwa [Text.splitComment_eq_self_iff.mpr (uncommented.append _ (by decide)),
            isClosed_append (by decide)] at here
      refine instructionsFrom_exchange place ?_ noReturn ?_ fun noted instructions read => ?_
      · exact areLines_remarked are single ended noEnd.1
      · simp only [List.flatten_cons, List.mem_append, List.mem_cons, not_or]
        rintro ⟨⟨front, behind⟩, below⟩
        exact ⟨⟨front, by decide, by decide, noEnd.2, behind⟩, below⟩
      · refine instructionsFrom_remarked own ?_ (bare_pieces bare) ?_ (.inr ⟨_, rfl⟩) rfl read
        · rw [uncommented_append code alike, isClosed_append_of_alike alike]
          exact own
        · rcases ended with rfl | rfl
          · exact .inl rfl
          · exact .inl rfl
  | @noted before after comment place between remark plain =>
      have noEnd := not_mem_of_isLineEnd plain
      have none := openStatement_eq_nil fun last final => (between last final).2
      refine instructionsFrom_exchange place ?_ noReturn ?_ fun noted instructions read => ?_
      · rw [place] at are
        obtain ⟨above, -, below⟩ := areLines_append.mp are
        refine areLines_append.mpr ⟨above, fun _ last final => (between last final).1, ?_⟩
        refine areLines_cons.mpr ⟨⟨by simp, ?_⟩, fun _ => List.getLast?_concat, below⟩
        rw [List.dropLast_concat]
        exact noEnd.1
      · simp only [List.flatten_cons, List.mem_append, not_or]
        exact fun below => ⟨⟨noEnd.2, by decide⟩, below⟩
      · rw [none] at read ⊢
        exact instructionsFrom_noted remark read

/-- Layout does not change meaning: a source that is read is read with the same meaning when a line of it
is broken, with a continuation mark or behind a statement, and when a comment is added. Two situations are
left out. The comment is not appended to the bare remote keyword, which would then count as the keyword in
front of a line that sets a field. And the line is not broken behind a statement that is continued to the
end of the source, where no statement is completed any more. -/
theorem parseScript_relayout {keywords : Keywords} {source edited : Text} {statements : List Statement}
    (noReturn : '\r' ∉ source) (closed : ∀ line ∈ source.lines, IsClosed (Text.splitComment line).1)
    (parsed : parseScript keywords source = .ok statements) (relayout : Relayout source edited) :
    ∃ others, parseScript keywords edited = .ok others ∧ meanings others = meanings statements := by
  obtain ⟨noReturn', same⟩ := relayout.instructions noReturn closed
  have said : (parseScript keywords source).toOption.map meanings = some (meanings statements) := by
    rw [parsed]
    rfl
  rw [meanings_eq keywords noReturn, Option.bind_eq_some_iff] at said
  obtain ⟨instructions, read, said⟩ := said
  have again := meanings_eq keywords noReturn'
  rw [same instructions read] at again
  cases parsed' : parseScript keywords edited with
  | error errors =>
      rw [parsed'] at again
      cases again.trans said
  | ok others =>
      rw [parsed'] at again
      exact ⟨others, rfl, Option.some.inj (again.trans said)⟩

/-- A line is broken in the middle of a statement that is continued, behind semicolons that end nothing. -/
theorem parseScript_relayout_semicolon :
    '\r' ∉ "a = 'x; y'; b = [1; ...\n 2]; c = 3 % note\n".toList ∧
      (∀ line ∈ Text.lines "a = 'x; y'; b = [1; ...\n 2]; c = 3 % note\n".toList,
        IsClosed (Text.splitComment line).1) ∧
      Relayout "a = 'x; y'; b = [1; ...\n 2]; c = 3 % note\n".toList
        "a = 'x; y'; b = [1; ...\n 2];\nc = 3 % note\n".toList ∧
      ∃ statements, parseScript .builtin "a = 'x; y'; b = [1; ...\n 2]; c = 3 % note\n".toList =
          .ok statements ∧
        ∃ others, parseScript .builtin "a = 'x; y'; b = [1; ...\n 2];\nc = 3 % note\n".toList = .ok others ∧
          meanings others = meanings statements := by
  have noReturn : '\r' ∉ "a = 'x; y'; b = [1; ...\n 2]; c = 3 % note\n".toList := by decide +kernel
  have closed : ∀ line ∈ Text.lines "a = 'x; y'; b = [1; ...\n 2]; c = 3 % note\n".toList,
      IsClosed (Text.splitComment line).1 := by decide +kernel
  have place : Text.lines "a = 'x; y'; b = [1; ...\n 2]; c = 3 % note\n".toList =
      ["a = 'x; y'; b = [1; ...\n".toList] ++ (" 2]".toList ++ ';' :: ' ' :: "c = 3 % note\n".toList) :: [] := by
    decide +kernel
  have relayout : Relayout "a = 'x; y'; b = [1; ...\n 2]; c = 3 % note\n".toList
      "a = 'x; y'; b = [1; ...\n 2];\nc = 3 % note\n".toList :=
    .broken place (by decide +kernel) (by decide +kernel) (by decide +kernel) (by decide +kernel)
  have accepted : (parseScript .builtin "a = 'x; y'; b = [1; ...\n 2]; c = 3 % note\n".toList).isOk := by
    decide +kernel
  obtain ⟨statements, parsed⟩ := Outcome.exists_of_isOk accepted
  exact ⟨noReturn, closed, relayout, statements, parsed, parseScript_relayout noReturn closed parsed relayout⟩

/-- The remote keyword alone is a function call, and with a comment behind it nothing is left of it. A
statement that is continued to the end of the source takes in the one behind it, unless a line break stands
between them. -/
theorem meanings_relayout_differ :
    (parseScript .builtin "GMAT".toList).toOption.map meanings =
        some [⟨.command, true, "GMAT".toList, [[], "GMAT".toList]⟩] ∧
      (parseScript .builtin "GMAT % note".toList).toOption.map meanings = some [] ∧
      (parseScript .builtin "x = 1; y = 2 ...".toList).toOption.map meanings =
        some [⟨.assignment, false, "x = 1; y = 2".toList, ["x".toList, "1; y = 2".toList]⟩] ∧
      (parseScript .builtin "x = 1;\ny = 2 ...".toList).toOption.map meanings =
        some [⟨.assignment, false, "x = 1".toList, ["x".toList, "1".toList]⟩,
          ⟨.assignment, false, "y = 2".toList, ["y".toList, "2".toList]⟩] := by
  refine ⟨?_, ?_, ?_, ?_⟩
  all_goals decide +kernel

end MissionScript
