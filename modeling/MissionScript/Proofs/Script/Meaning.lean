import MissionScript.Proofs.Command.Described
import MissionScript.Proofs.Script.Composition
import MissionScript.Proofs.Script.Tiling

/-!
# Meanings

What a script means is what its statements say, those with comments only left out. Where no carriage return
cuts its lines once more, this depends on the instructions of its pieces alone: the preface of a block
matters only where there is nothing else in it.
-/

namespace MissionScript

/-! ### What a statement says -/

/-- What a statement says. -/
structure Meaning where
  blockType : BlockType
  /-- The command is a function call. -/
  call : Bool
  instruction : Text
  chunks : List Text
deriving DecidableEq, Repr

/-- What a statement says, unless it is a comment. -/
def Statement.meaning? (s : Statement) : Option Meaning :=
  if s.reading.shape = .comment then none
  else some ⟨s.reading.shape.blockType, s.reading.shape == .call, s.instruction, s.parts.chunks⟩

/-- What the statements say, those with comments only left out. -/
def meanings (statements : List Statement) : List Meaning := statements.filterMap (·.meaning?)

/-- What an instruction says, if it comes apart. -/
def Meaning.ofInstruction? (keywords : Keywords) (instruction : Text) : Option Meaning :=
  (Reading.ofInstruction keywords instruction).parts.toOption.map fun parts =>
    ⟨(shapeOf keywords instruction).blockType, shapeOf keywords instruction == .call, instruction,
      parts.chunks⟩

/-- The instruction of a line, if it has one. -/
def instruction? (line : Text) : Option Text :=
  let instruction := instructionOf (Text.splitComment (dropRemoteKeyword line)).1
  if instruction.isEmpty then none else some instruction

/-- What the blocks with these texts say, if all of them are read. -/
def meaningsOf (keywords : Keywords) : List Text → Option (List Meaning)
  | [] => some []
  | text :: texts => do
    let statement ← (Statement.ofBlock keywords text).toOption
    let others ← meaningsOf keywords texts
    return statement.meaning?.toList ++ others

theorem instruction?_congr {line other : Text} (same : statementOf line = statementOf other) :
    instruction? line = instruction? other := by
  rw [instruction?, instruction?, splitComment_dropRemoteKeyword, splitComment_dropRemoteKeyword,
    instructionOf, instructionOf]
  rw [statementOf, statementOf] at same
  rw [same]

theorem instruction?_of_isRemark {line : Text} (remark : isRemark line) : instruction? line = none := by
  have none : instruction? [] = none := by decide
  rw [← none]
  exact instruction?_congr (statementOf_of_blank (isBlankText_of_isRemark remark))

variable {keywords : Keywords}

theorem meaningsOf_append (first second : List Text) :
    meaningsOf keywords (first ++ second) = do
      return (← meaningsOf keywords first) ++ (← meaningsOf keywords second) := by
  induction first with
  | nil =>
      rw [List.nil_append]
      cases meaningsOf keywords second <;> rfl
  | cons text first ih =>
      rw [List.cons_append, meaningsOf, meaningsOf, ih]
      cases (Statement.ofBlock keywords text).toOption with
      | none => rfl
      | some statement =>
          cases meaningsOf keywords first with
          | none => rfl
          | some others =>
              cases meaningsOf keywords second with
              | none => rfl
              | some more => exact congrArg some (List.append_assoc ..).symm

/-- What the statements of a source say is what its blocks say. -/
theorem meanings_parseScript (source : Text) :
    (parseScript keywords source).toOption.map meanings =
      meaningsOf keywords ((logicalBlocks source).map (·.text)) := by
  rw [parseScript_eq_outcome]
  induction logicalBlocks source with
  | nil => rfl
  | cons block blocks ih =>
      rw [List.map_cons, meaningsOf, ← ih]
      change (Harvest.add block.span (Statement.ofBlock keywords block.text)
        (Harvest.ofBlocks keywords blocks)).outcome.toOption.map meanings = _
      cases Statement.ofBlock keywords block.text with
      | error e => rfl
      | ok statement =>
          cases found : Harvest.ofBlocks keywords blocks with
          | mk statements errors =>
              cases errors with
              | cons e errors => rfl
              | nil =>
                  change some (meanings ({ statement with span := block.span } :: statements)) =
                    some (statement.meaning?.toList ++ meanings statements)
                  have same : ({ statement with span := block.span } : Statement).meaning? =
                    statement.meaning? := rfl
                  rw [meanings, List.filterMap_cons, same]
                  cases statement.meaning? <;> rfl

/-! ### Single blocks -/

theorem shapeOf_ne_comment (instruction : Text) : shapeOf keywords instruction ≠ .comment := by
  unfold shapeOf
  dsimp only
  repeat' split
  all_goals exact nofun

theorem ofBlock_eq (keywords : Keywords) {block : Text} (filled : block.isBlankText = false) :
    Reading.ofBlock keywords block = .ok (readLines keywords [] (cutLines block)) := by
  have lines : blockLines block = cutLines block := by
    unfold blockLines
    split
    · rename_i none
      rw [← flatten_cutLines block, none] at filled
      cases filled
    · rfl
  rw [Reading.ofBlock, lines, if_neg]
  intro blank
  refine absurd ?_ (Bool.eq_false_iff.mp filled)
  rwa [Text.isBlankText, ← flatten_cutLines block, List.all_flatten]

theorem ofBlock_of_blank {block : Text} (blank : block.isBlankText) :
    Reading.ofBlock keywords block = .error { cause := .emptyBlock, text := block } := by
  rw [Reading.ofBlock, if_pos]
  unfold blockLines
  split
  · rfl
  · rwa [Text.isBlankText, ← flatten_cutLines block, List.all_flatten] at blank

/-- What a reading says that has no instruction, or one with its shape. -/
theorem meaningsOf_of_reading {block : Text} {r : Reading} (read : Reading.ofBlock keywords block = .ok r) :
    (r.shape = .comment → meaningsOf keywords [block] = some []) ∧
      (r.shape = shapeOf keywords r.instruction →
        meaningsOf keywords [block] = [r.instruction].mapM (Meaning.ofInstruction? keywords)) := by
  constructor
  · intro comment
    have whole : Statement.ofBlock keywords block = .ok { reading := r, parts := .comment } := by
      rw [Statement.ofBlock, read]
      refine Outcome.bind_eq_ok_iff.mpr ⟨r, rfl, Outcome.bind_eq_ok_iff.mpr ⟨.comment, ?_, rfl⟩⟩
      rw [Reading.parts, comment]
    rw [meaningsOf, whole]
    change some (Option.toList (if r.shape = .comment then none else _) ++ []) = _
    rw [if_pos comment]
    rfl
  · intro shape
    have cut := Reading.parts_eq shape
    rw [List.mapM_cons, List.mapM_nil, Meaning.ofInstruction?, ← cut]
    cases parts : r.parts with
    | error e =>
        have whole : Statement.ofBlock keywords block = .error e := by
          rw [Statement.ofBlock, read]
          change (r.parts >>= _) = _
          rw [parts]
          rfl
        rw [meaningsOf, whole]
        rfl
    | ok parts' =>
        have whole : Statement.ofBlock keywords block = .ok { reading := r, parts := parts' } := by
          rw [Statement.ofBlock, read]
          exact Outcome.bind_eq_ok_iff.mpr ⟨r, rfl, Outcome.bind_eq_ok_iff.mpr ⟨parts', parts, rfl⟩⟩
        rw [meaningsOf, whole]
        change some (Option.toList (if r.shape = .comment then none else _) ++ []) = _
        rw [if_neg (shape ▸ shapeOf_ne_comment r.instruction), shape]
        rfl

/-- A block of remarks and one more line says what the instruction of this line says. -/
theorem meaningsOf_block (keywords : Keywords) {preface piece : Text}
    (remarks : ∀ r ∈ preface.lines, isRemark r)
    (ended : piece ≠ [] → ∀ c ∈ preface.getLast?, c = '\n') (single : '\n' ∉ piece.dropLast)
    (noReturn : '\r' ∉ preface ++ piece) :
    meaningsOf keywords [preface ++ piece] =
      if Text.isBlankText (preface ++ piece) then none
      else (instruction? piece).toList.mapM (Meaning.ofInstruction? keywords) := by
  split
  · rename_i blank
    rw [meaningsOf, Statement.ofBlock, ofBlock_of_blank blank]
    rfl
  rename_i filled
  have lines : Text.lines (preface ++ piece) = preface.lines ++ piece.lines := by
    cases piece with
    | nil => rw [List.append_nil]; exact (List.append_nil _).symm
    | cons c piece => exact Text.lines_append (ended (List.cons_ne_nil c piece)) _
  have read := ofBlock_eq keywords (Bool.eq_false_iff.mpr filled)
  rw [cutLines_eq_lines noReturn, lines, readLines_remarks keywords [] remarks] at read
  obtain ⟨comment, code⟩ := meaningsOf_of_reading read
  cases piece with
  | nil => exact comment rfl
  | cons c piece =>
      rw [Text.lines_of_single (List.cons_ne_nil c piece) single] at comment code
      rw [readLines] at comment code
      by_cases remark : isRemark (c :: piece)
      · rw [if_pos remark] at comment
        rw [instruction?_of_isRemark remark]
        exact comment rfl
      · rw [if_neg remark] at comment code
        dsimp only at comment code
        rw [instruction?]
        by_cases empty : (instructionOf (Text.splitComment (dropRemoteKeyword (c :: piece))).1).isEmpty
        · rw [if_pos empty] at comment ⊢
          exact comment rfl
        · rw [if_neg empty] at code
          rw [if_neg empty, Option.toList_some]
          dsimp only at code
          exact code rfl

/-! ### The pieces of a line -/

theorem semicolon_of_mem_cutAfterSemicolons (piece : Text) (gs : List Glyph) :
    ∀ p ∈ (cutAfterSemicolons piece gs).1, ';' ∈ p := by
  induction gs generalizing piece with
  | nil => exact List.forall_mem_nil _
  | cons g rest ih =>
      rw [cutAfterSemicolons]
      split
      · exact List.forall_mem_nil _
      split
      · rename_i ends
        rw [Bool.and_eq_true, beq_iff_eq] at ends
        refine List.forall_mem_cons.mpr ⟨?_, ih []⟩
        rw [List.mem_reverse, ends.2]
        exact List.mem_cons_self
      · exact ih _

theorem isBlankText_of_semicolon {text : Text} (member : ';' ∈ text) : text.isBlankText = false :=
  Bool.eq_false_iff.mpr fun blank => Text.not_mem_of_isBlankText (by decide) blank member

/-- A line is one statement, or none of its statements is blank. -/
theorem splitStatements_filled (line : Text) :
    splitStatements line = [line] ∨ ∀ p ∈ splitStatements line, p.isBlankText = false := by
  have whole := flatten_cutAfterSemicolons [] line.glyphs
  have each := semicolon_of_mem_cutAfterSemicolons [] line.glyphs
  rw [Text.ofGlyphs_glyphs, List.reverse_nil, List.nil_append] at whole
  unfold splitStatements
  cases cut : cutAfterSemicolons [] line.glyphs with
  | mk pieces last =>
      rw [cut] at whole each
      dsimp only
      cases final : pieces.getLast? with
      | none =>
          rw [List.getLast?_eq_none_iff.mp final] at whole
          exact .inl (congrArg (· :: []) whole)
      | some piece =>
          refine .inr ?_
          dsimp only
          split
          · intro p member
            rcases List.mem_append.mp member with member | member
            · exact isBlankText_of_semicolon (each p (List.dropLast_subset _ member))
            · rw [List.mem_singleton.mp member]
              exact isBlankText_of_semicolon
                (List.mem_append_left _ (each piece (List.mem_of_getLast? final)))
          · rename_i code
            intro p member
            rcases List.mem_append.mp member with member | member
            · exact isBlankText_of_semicolon (each p member)
            · rw [List.mem_singleton.mp member, Bool.eq_false_iff]
              exact fun blank =>
                code (Text.isBlankText_of_subset (Text.splitComment_prefix last).subset blank)

/-- The instructions of the statements on a line. -/
def instructionsOf (line : Text) : List Text := (splitStatements line).filterMap instruction?

theorem not_mem_dropLast_of_part {c : Char} {part text : Text} (within : part <:+: text)
    (absent : c ∉ text.dropLast) : c ∉ part.dropLast := by
  obtain ⟨before, after, rfl⟩ := within
  intro member
  have filled : part ≠ [] := by
    rintro rfl
    cases member
  refine absent ?_
  rw [List.append_assoc, List.dropLast_append_of_ne_nil (List.append_ne_nil_of_left_ne_nil filled _)]
  refine List.mem_append_right _ ?_
  cases after with
  | nil => rwa [List.append_nil]
  | cons d after =>
      rw [List.dropLast_append_of_ne_nil (List.cons_ne_nil d after)]
      exact List.mem_append_left _ (List.dropLast_subset _ member)

theorem filterMap_cons_eq {α β : Type} (f : α → Option β) (a : α) (l : List α) :
    (a :: l).filterMap f = (f a).toList ++ l.filterMap f := by
  rw [List.filterMap_cons]
  cases f a <;> rfl

/-- Blocks without a preface say what their instructions say. -/
theorem meaningsOf_pieces (keywords : Keywords) {pieces : List Text}
    (each : ∀ p ∈ pieces, p.isBlankText = false ∧ '\n' ∉ p.dropLast ∧ '\r' ∉ p) :
    meaningsOf keywords pieces = (pieces.filterMap instruction?).mapM (Meaning.ofInstruction? keywords) := by
  induction pieces with
  | nil => rfl
  | cons p pieces ih =>
      obtain ⟨⟨filled, single, noReturn⟩, others⟩ := List.forall_mem_cons.mp each
      have first : meaningsOf keywords [[] ++ p] = _ :=
        meaningsOf_block keywords (List.forall_mem_nil _) (fun _ _ none => nomatch none) single noReturn
      rw [List.nil_append, filled, if_neg Bool.false_ne_true] at first
      rw [← List.singleton_append, meaningsOf_append, first, ih others, List.singleton_append,
        filterMap_cons_eq, List.mapM_append]

/-- The blocks of a line behind remarks say what the instructions on it say. -/
theorem meaningsOf_completedBlocks (keywords : Keywords) {preface line : Text}
    (remarks : ∀ r ∈ preface.lines, isRemark r) (ended : ∀ c ∈ preface.getLast?, c = '\n')
    (single : '\n' ∉ line.dropLast)
    (noReturn : '\r' ∉ preface ++ line) (span : Span) :
    meaningsOf keywords ((completedBlocks preface line span).map (·.text)) =
      if Text.isBlankText (preface ++ line) then none
      else (instructionsOf line).mapM (Meaning.ofInstruction? keywords) := by
  have whole := flatten_splitStatements line
  have within : ∀ p ∈ splitStatements line, '\n' ∉ p.dropLast ∧ '\r' ∉ p := by
    intro p member
    have part : p <:+: line := whole ▸ List.infix_of_mem_flatten member
    exact ⟨not_mem_dropLast_of_part part single,
      fun inside => noReturn (List.mem_append_right _ (part.subset inside))⟩
  rw [instructionsOf, completedBlocks]
  rcases splitStatements_filled line with only | filled
  · have alone := meaningsOf_block keywords remarks (fun _ => ended) single noReturn
    rw [only, filterMap_cons_eq, List.filterMap_nil, List.append_nil]
    exact alone
  · cases cut : splitStatements line with
    | nil => exact absurd cut (splitStatements_ne_nil line)
    | cons first others =>
        rw [cut] at filled within whole
        obtain ⟨filled, rest⟩ := List.forall_mem_cons.mp filled
        obtain ⟨⟨single, noReturn'⟩, within⟩ := List.forall_mem_cons.mp within
        have some (rest : Text) : Text.isBlankText (preface ++ (first ++ rest)) = false := by
          rw [Text.isBlankText_append, Text.isBlankText_append, filled, Bool.false_and, Bool.and_false]
        have noReturn : '\r' ∉ preface ++ first := by
          intro member
          refine noReturn ?_
          rw [← whole, List.flatten_cons, ← List.append_assoc]
          exact List.mem_append_left _ member
        have head := meaningsOf_block keywords remarks (fun _ => ended) single noReturn
        have tail := meaningsOf_pieces keywords (fun p member => And.intro (rest p member) (within p member))
        have texts : (others.map (⟨·, span⟩) : List Block).map (·.text) = others := by
          rw [List.map_map]
          exact List.map_id _
        have none := some []
        rw [List.append_nil] at none
        rw [none, if_neg Bool.false_ne_true] at head
        rw [← whole, List.flatten_cons, some, if_neg Bool.false_ne_true, List.map_cons, texts,
          ← List.singleton_append, meaningsOf_append, head, tail, filterMap_cons_eq, List.mapM_append]

/-! ### The instructions of a source -/

/-- The instructions of the lines that are left, behind the continued lines `statement`. If nothing but
blanks completes these and nothing is `noted` in the preface, there are none: such a block is refused. -/
def instructionsFrom (noted : Bool) (statement : Text) : List Text → Option (List Text)
  | [] => some (instruction? statement).toList
  | line :: lines =>
    match lineRole statement line with
    | .preface => instructionsFrom (noted || !line.isBlankText) statement lines
    | .continued code => instructionsFrom noted (statement ++ code ++ [' ']) lines
    | .complete =>
      if noted || !Text.isBlankText (statement ++ line) then do
        return instructionsOf (statement ++ line) ++ (← instructionsFrom false [] lines)
      else none

/-- The code of a continued line does not reach its end. -/
theorem prefix_of_lineRole {statement line code : Text} (role : lineRole statement line = .continued code) :
    code <+: line.dropLast := by
  have leads : code ++ continuationMark <+: line := by
    rw [← code_of_lineRole role]
    exact (Text.dropEndWhile_prefix _ _).trans (Text.splitComment_prefix line)
  obtain ⟨rest, rfl⟩ := leads
  rw [List.append_assoc, List.dropLast_append_of_ne_nil (by simp [continuationMark])]
  exact List.prefix_append ..

/-- The pending block holds whole remarks and what stands on single lines. -/
structure PendingBlock.Proper (pending : PendingBlock) (lines : List Text) : Prop where
  remarks : ∀ r ∈ pending.preface.lines, isRemark r
  /-- What stands behind the preface does not go on with its last line. -/
  ended : pending.statement ≠ [] ∨ lines ≠ [] → ∀ c ∈ pending.preface.getLast?, c = '\n'
  single : '\n' ∉ pending.statement
  noReturn : '\r' ∉ pending.preface ++ pending.statement

namespace PendingBlock.Proper

variable {pending : PendingBlock} {line : Text} {lines : List Text}

/-- A remark joins the preface. -/
theorem preface (proper : pending.Proper (line :: lines)) (are : AreLines (line :: lines))
    (noReturn : '\r' ∉ line) (none : pending.statement = []) (remark : isRemark line)
    (start : Option Nat) : Proper { pending with preface := pending.preface ++ line, start } lines where
  remarks := by
    have feed := proper.ended (.inr (List.cons_ne_nil _ _))
    obtain ⟨⟨filled, single⟩, -⟩ := areLines_cons.mp are
    dsimp only
    rw [Text.lines_append feed, Text.lines_of_single filled single]
    exact List.forall_mem_append.mpr ⟨proper.remarks, List.forall_mem_singleton.mpr remark⟩
  ended more := by
    have last := (areLines_cons.mp are).2.1 (more.resolve_left (not_not_intro none))
    dsimp only
    intro c final
    rw [List.getLast?_append, last] at final
    exact (Option.some.inj final).symm
  single := proper.single
  noReturn := by
    have before := proper.noReturn
    simp only [List.mem_append, not_or] at before ⊢
    exact ⟨⟨before.1, noReturn⟩, before.2⟩

/-- The code of a continued line joins the statement. -/
theorem continued (proper : pending.Proper (line :: lines)) (are : AreLines (line :: lines))
    (noReturn : '\r' ∉ line) {code : Text} (role : lineRole pending.statement line = .continued code)
    (start : Option Nat) :
    Proper { pending with statement := pending.statement ++ code ++ [' '], start } lines where
  remarks := proper.remarks
  ended _ := proper.ended (.inr (List.cons_ne_nil _ _))
  single := by
    obtain ⟨⟨-, single⟩, -⟩ := areLines_cons.mp are
    have inside := (prefix_of_lineRole role).subset
    simp only [List.mem_append, List.mem_singleton, not_or]
    exact ⟨⟨proper.single, fun member => single (inside member)⟩, by decide⟩
  noReturn := by
    have before := proper.noReturn
    have inside := (prefix_of_lineRole role).subset
    simp only [List.mem_append, List.mem_singleton, not_or] at before ⊢
    refine ⟨before.1, ⟨before.2, fun member => ?_⟩, by decide⟩
    exact noReturn (List.dropLast_subset _ (inside member))

theorem complete (lines : List Text) : Proper {} lines where
  remarks := List.forall_mem_nil _
  ended _ := nofun
  single := List.not_mem_nil
  noReturn := List.not_mem_nil

end PendingBlock.Proper

/-- What the blocks of the lines say is what their instructions say. -/
theorem meaningsOf_blocksFrom {lines : List Text} (are : AreLines lines)
    (noReturn : ∀ line ∈ lines, '\r' ∉ line) {pending : PendingBlock} (proper : pending.Proper lines) (offset : Nat) :
    meaningsOf keywords ((blocksFrom pending offset lines).map (·.text)) =
      (instructionsFrom (!pending.preface.isBlankText) pending.statement lines).bind
        (·.mapM (Meaning.ofInstruction? keywords)) := by
  induction lines generalizing pending offset with
  | nil =>
      rw [blocksFrom, instructionsFrom]
      have block := meaningsOf_block keywords proper.remarks
        (fun filled => proper.ended (.inl filled)) (fun member => proper.single (List.dropLast_subset _ member))
        proper.noReturn
      split
      · rename_i blank
        rw [Text.isBlankText_append, Bool.and_eq_true] at blank
        rw [instruction?_of_isRemark (isRemark_of_isBlankText blank.2)]
        rfl
      · rename_i filled
        rw [if_neg filled] at block
        rw [Option.bind_some]
        exact block
  | cons line lines ih =>
      obtain ⟨⟨filled, single⟩, -, below⟩ := areLines_cons.mp are
      obtain ⟨here, noReturns⟩ := List.forall_mem_cons.mp noReturn
      rw [blocksFrom, instructionsFrom]
      cases role : lineRole pending.statement line with
      | preface =>
          obtain ⟨none, remark⟩ := lineRole_eq_preface_iff.mp role
          refine (ih below noReturns (proper.preface are here none remark _) _).trans ?_
          rw [Text.isBlankText_append, Bool.not_and]
      | continued code => exact ih below noReturns (proper.continued are here role _) _
      | complete =>
          have rest : meaningsOf keywords ((blocksFrom {} (offset + line.bytes) lines).map (·.text)) =
              (instructionsFrom false [] lines).bind (·.mapM (Meaning.ofInstruction? keywords)) :=
            ih below noReturns (PendingBlock.Proper.complete lines) _
          have single : '\n' ∉ (pending.statement ++ line).dropLast := by
            rw [List.dropLast_append_of_ne_nil filled]
            exact List.not_mem_append proper.single single
          have noReturn : '\r' ∉ pending.preface ++ (pending.statement ++ line) := by
            rw [← List.append_assoc]
            exact List.not_mem_append proper.noReturn here
          have first := meaningsOf_completedBlocks keywords proper.remarks
            (proper.ended (.inr (List.cons_ne_nil _ _))) single noReturn
            ⟨pending.start.getD offset, offset + line.bytes⟩
          have noted : (!pending.preface.isBlankText || !Text.isBlankText (pending.statement ++ line)) =
              !Text.isBlankText (pending.preface ++ (pending.statement ++ line)) := by
            rw [Text.isBlankText_append pending.preface, Bool.not_and]
          rw [List.map_append, meaningsOf_append, first, rest]
          dsimp only
          rw [noted]
          cases Text.isBlankText (pending.preface ++ (pending.statement ++ line)) with
          | true => rfl
          | false =>
              rw [Bool.not_false, if_pos rfl, if_neg Bool.false_ne_true]
              change _ = Option.bind (Option.bind (instructionsFrom false [] lines) _) _
              cases instructionsFrom false [] lines with
              | none =>
                  cases (instructionsOf (pending.statement ++ line)).mapM (Meaning.ofInstruction? keywords)
                  · rfl
                  · rfl
              | some instructions => exact List.mapM_append.symm

/-- What the statements of a source say is what its instructions say. -/
theorem meanings_eq (keywords : Keywords) {source : Text} (noReturn : '\r' ∉ source) :
    (parseScript keywords source).toOption.map meanings =
      (instructionsFrom false [] source.lines).bind (·.mapM (Meaning.ofInstruction? keywords)) := by
  rw [meanings_parseScript]
  refine meaningsOf_blocksFrom (areLines_lines source) (fun line member inside => noReturn ?_)
    (PendingBlock.Proper.complete source.lines) 0
  rw [← Text.flatten_lines source]
  exact List.mem_flatten.mpr ⟨line, member, inside⟩

end MissionScript
