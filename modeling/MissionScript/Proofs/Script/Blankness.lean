import MissionScript.Proofs.Script.Composition
import MissionScript.Proofs.Script.Shape
import MissionScript.Proofs.Script.Tiling

/-!
# Blank blocks

A blank line in front of a statement is a remark, and at the end of a source nothing is made of blanks.
Only behind a line that is continued and has no code of its own is a blank line the end of a statement,
one without any text. The text of a block is blank in this case alone, and then reading the block fails.
-/

namespace MissionScript

/-- A line with the mark that continues it and no other code. -/
def IsBareMark (line : Text) : Prop := ∃ code, continued? line = some code ∧ code.isBlankText

/-- A block ends behind these lines: the last of them is not continued, and it has code or goes on from
the line before it. -/
inductive EndsBlock : List Text → Prop
  | start : EndsBlock []
  | code {lines : List Text} {line : Text} (code : isRemark line = false)
      (own : continues line = false) : EndsBlock (lines ++ [line])
  | continued {lines : List Text} {last line : Text} (begun : continues last)
      (own : continues line = false) : EndsBlock (lines ++ [last, line])

/-- Somewhere a block consists of blank lines, then bare continuation marks, then a blank line. -/
def LeavesBlank (lines : List Text) : Prop :=
  ∃ before blanks marks stop after, lines = before ++ (blanks ++ (marks ++ stop :: after)) ∧
    EndsBlock before ∧ (∀ line ∈ blanks, line.isBlankText) ∧ marks ≠ [] ∧
    (∀ mark ∈ marks, IsBareMark mark) ∧ stop.isBlankText

/-! ### Pieces -/

theorem mem_of_mem_cutAfterSemicolons (piece : Text) (gs : List Glyph) :
    ∀ text ∈ (cutAfterSemicolons piece gs).1, ';' ∈ text := by
  induction gs generalizing piece with
  | nil => exact List.forall_mem_nil _
  | cons g rest ih =>
      rw [cutAfterSemicolons]
      split
      · exact List.forall_mem_nil _
      · split
        · rename_i cut
          rw [Bool.and_eq_true, beq_iff_eq] at cut
          refine List.forall_mem_cons.mpr ⟨?_, ih []⟩
          simp [cut.2]
        · exact ih _

/-- Of the statements on a line none is blank, unless there is nothing else on the line. -/
theorem eq_of_isBlankText_of_mem_splitStatements {line text : Text} (member : text ∈ splitStatements line)
    (blank : text.isBlankText) : splitStatements line = [line] ∧ line.isBlankText := by
  have ends := mem_of_mem_cutAfterSemicolons [] line.glyphs
  have whole := flatten_splitStatements line
  have unseparated {part : Text} (semicolon : ';' ∈ part) : ¬ part.isBlankText := fun blank =>
    Text.not_mem_of_isBlankText (by decide) blank semicolon
  unfold splitStatements at member whole ⊢
  cases cut : cutAfterSemicolons [] line.glyphs with
  | mk pieces last =>
      rw [cut] at ends member whole
      dsimp only at member whole ⊢
      cases final : pieces.getLast? with
      | none =>
          rw [final] at member whole
          dsimp only at member whole
          rw [List.flatten_singleton] at whole
          rw [List.mem_singleton] at member
          exact ⟨by rw [whole], by rw [← whole, ← member]; exact blank⟩
      | some piece =>
          obtain ⟨front, rfl⟩ := List.getLast?_eq_some_iff.mp final
          obtain ⟨others, own⟩ := List.forall_mem_append.mp ends
          rw [final] at member
          dsimp only at member
          split at member
          · rw [List.dropLast_concat, List.mem_append, List.mem_singleton] at member
            rcases member with member | rfl
            · exact absurd blank (unseparated (others text member))
            · refine absurd blank (unseparated (List.mem_append_left _ ?_))
              exact own piece (List.mem_singleton_self _)
          · rename_i code
            rw [List.mem_append, List.mem_singleton] at member
            rcases member with member | rfl
            · exact absurd blank (unseparated (ends text member))
            · refine absurd (Text.isBlankText_of_subset ?_ blank) code
              exact (Text.splitComment_prefix text).subset

theorem splitStatements_of_isBlankText {line : Text} (blank : line.isBlankText) :
    splitStatements line = [line] := by
  cases cut : splitStatements line with
  | nil => exact absurd cut (splitStatements_ne_nil line)
  | cons first others =>
      have whole := flatten_splitStatements line
      rw [cut, List.flatten_cons] at whole
      have part : first.isBlankText :=
        Text.isBlankText_of_subset (whole ▸ List.subset_append_left ..) blank
      rw [← cut]
      exact (eq_of_isBlankText_of_mem_splitStatements (cut ▸ List.mem_cons_self) part).1

/-- A completed statement gives a blank block if it is blank and its preface as well. -/
theorem exists_blank_completedBlocks_iff {preface line : Text} {span : Span} :
    (∃ b ∈ completedBlocks preface line span, b.text.isBlankText) ↔
      preface.isBlankText ∧ line.isBlankText := by
  constructor
  · rintro ⟨b, member, blank⟩
    rw [completedBlocks] at member
    cases cut : splitStatements line with
    | nil => exact absurd cut (splitStatements_ne_nil line)
    | cons first others =>
        have single {text : Text} (part : text ∈ first :: others) (blank : text.isBlankText) :=
          eq_of_isBlankText_of_mem_splitStatements (cut ▸ part) blank
        rw [cut, List.mem_cons, List.mem_map] at member
        rcases member with rfl | ⟨text, among, rfl⟩
        · rw [Text.isBlankText_append, Bool.and_eq_true] at blank
          exact ⟨blank.1, (single List.mem_cons_self blank.2).2⟩
        · -- A blank piece is the only one, so it is not behind another.
          have only := (single (List.mem_cons_of_mem _ among) blank).1
          rw [cut, List.cons.injEq] at only
          rw [only.2] at among
          cases among
  · rintro ⟨blank, blankLine⟩
    rw [completedBlocks, splitStatements_of_isBlankText blankLine]
    refine ⟨_, List.mem_cons_self, ?_⟩
    rw [Text.isBlankText_append, blank, blankLine]
    rfl

/-! ### What is pending -/

theorem continues_of_isRemark {line : Text} (remark : isRemark line) : continues line = false := by
  have none := Text.trimEnd_eq_nil_iff.mpr (isRemark_iff.mp remark)
  rw [continues, none]
  rfl

theorem endsBlock_concat_iff {lines : List Text} {line : Text} : EndsBlock (lines ++ [line]) ↔
    continues line = false ∧ (isRemark line = false ∨ ∃ last ∈ lines.getLast?, continues last) := by
  constructor
  · generalize same : lines ++ [line] = whole
    rintro (_ | ⟨code, own⟩ | ⟨begun, own⟩)
    · simp at same
    · obtain ⟨rfl, final⟩ := List.append_inj' same rfl
      cases final
      exact ⟨own, .inl code⟩
    · rename_i front last other
      rw [show front ++ [last, other] = (front ++ [last]) ++ [other] by simp] at same
      obtain ⟨rfl, final⟩ := List.append_inj' same rfl
      cases final
      exact ⟨own, .inr ⟨last, List.getLast?_concat, begun⟩⟩
  · rintro ⟨own, code | ⟨last, above, begun⟩⟩
    · exact .code code own
    · obtain ⟨front, rfl⟩ := List.getLast?_eq_some_iff.mp above
      rw [List.append_assoc]
      exact .continued begun own

namespace PendingBlock

/-- What is pending behind the lines above: a statement if the last of them is continued, and blanks only
if they end with blank lines and bare marks. -/
structure Behind (pending : PendingBlock) (above : List Text) : Prop where
  begun : pending.statement ≠ [] ↔ ∃ last ∈ above.getLast?, continues last
  blank : Text.isBlankText (pending.preface ++ pending.statement) →
    ∃ before blanks marks, above = before ++ (blanks ++ marks) ∧ EndsBlock before ∧
      (∀ line ∈ blanks, line.isBlankText) ∧ (∀ mark ∈ marks, IsBareMark mark) ∧
      (marks = [] ↔ pending.statement = [])

variable {pending : PendingBlock} {above : List Text} {line code : Text} {start : Option Nat}

theorem behind_nil : Behind {} [] where
  begun := by simp
  blank _ := ⟨[], [], [], rfl, .start, List.forall_mem_nil _, List.forall_mem_nil _, by simp⟩

namespace Behind

variable (behind : pending.Behind above)

include behind

theorem preface (role : lineRole pending.statement line = .preface) :
    Behind { pending with preface := pending.preface ++ line, start } (above ++ [line]) := by
  obtain ⟨none, remark⟩ := lineRole_eq_preface_iff.mp role
  constructor
  · simp [none, continues_of_isRemark remark]
  · intro blank
    dsimp only at blank ⊢
    rw [none, List.append_nil, Text.isBlankText_append, Bool.and_eq_true] at blank
    obtain ⟨before, blanks, marks, rfl, ends, blankLines, bare, open'⟩ :=
      behind.blank (by rw [none, List.append_nil]; exact blank.1)
    rw [open'.mpr none]
    refine ⟨before, blanks ++ [line], [], by simp, ends, ?_, List.forall_mem_nil _, by simp [none]⟩
    exact List.forall_mem_append.mpr ⟨blankLines, List.forall_mem_singleton.mpr blank.2⟩

theorem continued (role : lineRole pending.statement line = .continued code) :
    Behind { pending with statement := pending.statement ++ code ++ [' '], start } (above ++ [line]) := by
  constructor
  · simp [continues_of_lineRole role]
  · intro blank
    dsimp only at blank ⊢
    simp only [Text.isBlankText_append, Bool.and_eq_true] at blank
    obtain ⟨before, blanks, marks, rfl, ends, blankLines, bare, -⟩ :=
      behind.blank (by simp [Text.isBlankText_append, blank])
    refine ⟨before, blanks, marks ++ [line], by simp, ends, blankLines, ?_, by simp⟩
    exact List.forall_mem_append.mpr ⟨bare, List.forall_mem_singleton.mpr
      ⟨code, continued?_of_lineRole role, blank.2.1.2⟩⟩

theorem endsBlock (role : lineRole pending.statement line = .complete) : EndsBlock (above ++ [line]) := by
  have code : pending.statement ≠ [] ∨ isRemark line = false := by
    by_contra! remark
    rw [lineRole_eq_preface_iff.mpr ⟨remark.1, Bool.not_eq_false _ ▸ remark.2⟩] at role
    cases role
  refine endsBlock_concat_iff.mpr ⟨?_, (code.imp_left behind.begun.mp).symm⟩
  rw [lineRole_eq (code.imp_left List.isEmpty_eq_false_iff.mpr)] at role
  rw [continues_eq]
  cases marked : continued? line with
  | none => rfl
  | some code =>
      rw [marked] at role
      cases role

theorem complete (role : lineRole pending.statement line = .complete) : Behind {} (above ++ [line]) where
  begun := by
    have own := (endsBlock_concat_iff.mp (behind.endsBlock role)).1
    simp [own]
  blank _ := ⟨above ++ [line], [], [], by simp, behind.endsBlock role, List.forall_mem_nil _,
    List.forall_mem_nil _, by simp⟩

end Behind

end PendingBlock

/-! ### From a blank block to its lines and back -/

section

variable {pending : PendingBlock} {above lines : List Text} {offset : Nat}

theorem leavesBlank_of_mem (behind : pending.Behind above) {b : Block}
    (member : b ∈ blocksFrom pending offset lines) (blank : b.text.isBlankText) :
    LeavesBlank (above ++ lines) := by
  induction lines generalizing pending above offset with
  | nil =>
      rw [blocksFrom] at member
      split at member
      · cases member
      · rename_i filled
        rw [List.mem_singleton] at member
        rw [member] at blank
        exact absurd blank filled
  | cons line lines ih =>
      rw [blocksFrom] at member
      rw [show above ++ line :: lines = (above ++ [line]) ++ lines by simp]
      cases role : lineRole pending.statement line with
      | preface =>
          rw [role] at member
          exact ih (behind.preface role) member
      | continued code =>
          rw [role] at member
          exact ih (behind.continued role) member
      | complete =>
          rw [role] at member
          rcases List.mem_append.mp member with here | later
          · obtain ⟨blankPreface, blankWhole⟩ := exists_blank_completedBlocks_iff.mp ⟨b, here, blank⟩
            rw [Text.isBlankText_append, Bool.and_eq_true] at blankWhole
            obtain ⟨before, blanks, marks, rfl, ends, blankLines, bare, open'⟩ :=
              behind.blank (by rw [Text.isBlankText_append, blankPreface, blankWhole.1]; rfl)
            -- In front of a statement the blank line would be a remark.
            have marked : marks ≠ [] := by
              intro none
              have remark := lineRole_eq_preface_iff.mpr
                ⟨open'.mp none, isRemark_of_isBlankText blankWhole.2⟩
              rw [remark] at role
              cases role
            exact ⟨before, blanks, marks, line, lines, by simp, ends, blankLines, marked, bare,
              blankWhole.2⟩
          · exact ih (behind.complete role) later

/-- Where a block ends, nothing is pending. -/
theorem exists_blocksFrom_append (behind : pending.Behind above) (filled : lines ≠ [])
    (ends : EndsBlock (above ++ lines)) : ∃ blocks next, ∀ rest,
      blocksFrom pending offset (lines ++ rest) = blocks ++ blocksFrom {} next rest := by
  induction lines generalizing pending above offset with
  | nil => exact absurd rfl filled
  | cons line lines ih =>
      rw [show above ++ line :: lines = (above ++ [line]) ++ lines by simp] at ends
      by_cases last : lines = []
      · rw [last, List.append_nil] at ends
        obtain ⟨own, code⟩ := endsBlock_concat_iff.mp ends
        have role : lineRole pending.statement line = .complete := by
          rw [lineRole_eq (code.symm.imp_left fun begun =>
            List.isEmpty_eq_false_iff.mpr (behind.begun.mpr begun))]
          rw [continues_eq, Option.isSome_eq_false_iff, Option.isNone_iff_eq_none] at own
          rw [own]
        refine ⟨completedBlocks pending.preface (pending.statement ++ line)
          ⟨pending.start.getD offset, offset + line.bytes⟩, offset + line.bytes, fun rest => ?_⟩
        rw [last, List.singleton_append, blocksFrom, role]
      · cases role : lineRole pending.statement line with
        | preface =>
            obtain ⟨blocks, next, onward⟩ := ih (behind.preface role) last ends
            refine ⟨blocks, next, fun rest => ?_⟩
            rw [List.cons_append, blocksFrom, role]
            exact onward rest
        | continued code =>
            obtain ⟨blocks, next, onward⟩ := ih (behind.continued role) last ends
            refine ⟨blocks, next, fun rest => ?_⟩
            rw [List.cons_append, blocksFrom, role]
            exact onward rest
        | complete =>
            obtain ⟨blocks, next, onward⟩ := ih (behind.complete role) last ends
            refine ⟨completedBlocks pending.preface (pending.statement ++ line)
              ⟨pending.start.getD offset, offset + line.bytes⟩ ++ blocks, next, fun rest => ?_⟩
            rw [List.cons_append, blocksFrom, role, List.append_assoc]
            exact congrArg _ (onward rest)

/-- Bare marks and a blank line behind what is blank make a blank block. -/
theorem exists_blank_of_marks {marks : List Text} (bare : ∀ mark ∈ marks, IsBareMark mark)
    (begun : pending.statement ≠ [] ∨ marks ≠ [])
    (blank : Text.isBlankText (pending.preface ++ pending.statement)) {stop : Text}
    (blankStop : stop.isBlankText) (after : List Text) :
    ∃ b ∈ blocksFrom pending offset (marks ++ stop :: after), b.text.isBlankText := by
  induction marks generalizing pending offset with
  | nil =>
      have begun := begun.resolve_right (· rfl)
      have own := continues_of_isRemark (isRemark_of_isBlankText blankStop)
      rw [continues_eq, Option.isSome_eq_false_iff, Option.isNone_iff_eq_none] at own
      have role : lineRole pending.statement stop = .complete := by
        rw [lineRole_eq (.inl (List.isEmpty_eq_false_iff.mpr begun)), own]
      rw [Text.isBlankText_append, Bool.and_eq_true] at blank
      have blankWhole : Text.isBlankText (pending.statement ++ stop) := by
        rw [Text.isBlankText_append, blank.2, blankStop]
        rfl
      rw [List.nil_append, blocksFrom, role]
      obtain ⟨b, member, blankBlock⟩ := exists_blank_completedBlocks_iff.mpr ⟨blank.1, blankWhole⟩
      exact ⟨b, List.mem_append_left _ member, blankBlock⟩
  | cons mark marks ih =>
      obtain ⟨⟨code, marked, blankCode⟩, others⟩ := List.forall_mem_cons.mp bare
      have isCode : isRemark mark = false := by
        rw [Bool.eq_false_iff]
        intro remark
        have own := continues_of_isRemark remark
        rw [continues_eq, marked] at own
        cases own
      rw [List.cons_append, blocksFrom, lineRole_eq (.inr isCode), marked]
      refine ih others (.inl (by simp)) ?_
      simp only [Text.isBlankText_append, Bool.and_eq_true] at blank ⊢
      exact ⟨blank.1, ⟨blank.2, blankCode⟩, by decide⟩

/-- Blank lines in front of a block leave it blank. -/
theorem exists_blocksFrom_blanks {blanks : List Text} (each : ∀ line ∈ blanks, line.isBlankText)
    (none : pending.statement = []) (blank : pending.preface.isBlankText) (rest : List Text) :
    ∃ others next, blocksFrom pending offset (blanks ++ rest) = blocksFrom others next rest ∧
      Text.isBlankText (others.preface ++ others.statement) := by
  induction blanks generalizing pending offset with
  | nil =>
      refine ⟨pending, offset, rfl, ?_⟩
      rw [none, List.append_nil]
      exact blank
  | cons line blanks ih =>
      obtain ⟨here, below⟩ := List.forall_mem_cons.mp each
      have role := lineRole_eq_preface_iff.mpr ⟨none, isRemark_of_isBlankText here⟩
      rw [List.cons_append, blocksFrom, role]
      refine ih below none ?_
      rw [Text.isBlankText_append, blank, here]
      rfl

end

theorem exists_blank_block_iff {source : Text} :
    (∃ b ∈ logicalBlocks source, b.text.isBlankText) ↔ LeavesBlank source.lines := by
  constructor
  · rintro ⟨b, member, blank⟩
    exact leavesBlank_of_mem PendingBlock.behind_nil member blank
  · rintro ⟨before, blanks, marks, stop, after, whole, ends, blankLines, marked, bare, blankStop⟩
    rw [logicalBlocks, whole]
    have onward (offset : Nat) :
        ∃ b ∈ blocksFrom {} offset (blanks ++ (marks ++ stop :: after)), b.text.isBlankText := by
      obtain ⟨pending, next, same, blank⟩ :
          ∃ pending next, blocksFrom {} offset (blanks ++ (marks ++ stop :: after)) =
            blocksFrom pending next (marks ++ stop :: after) ∧
              Text.isBlankText (pending.preface ++ pending.statement) :=
        exists_blocksFrom_blanks blankLines rfl rfl _
      rw [same]
      exact exists_blank_of_marks bare (.inr marked) blank blankStop after
    by_cases first : before = []
    · rw [first]
      exact onward 0
    · obtain ⟨blocks, next, cut⟩ : ∃ blocks next, ∀ rest,
          blocksFrom {} 0 (before ++ rest) = blocks ++ blocksFrom {} next rest :=
        exists_blocksFrom_append PendingBlock.behind_nil first ends
      rw [cut]
      obtain ⟨b, member, blank⟩ := onward next
      exact ⟨b, List.mem_append_right _ member, blank⟩

/-! ### Reading a blank block -/

theorem all_isBlankText_blockLines (block : Text) :
    (blockLines block).all (·.isBlankText) = block.isBlankText := by
  have whole := flatten_cutLines block
  rw [blockLines]
  cases cut : cutLines block with
  | nil =>
      rw [cut] at whole
      rw [← whole]
      rfl
  | cons line lines =>
      rw [cut] at whole
      rw [← whole, Text.isBlankText, List.all_flatten]
      rfl

/-- If it fails, then not for an empty block. -/
def NotEmpty {α : Type} : Except ParseError α → Prop
  | .ok _ => True
  | .error e => e.cause ≠ .emptyBlock

namespace Reading

variable {r : Reading}

theorem notEmpty_sides (make : Text → Text → Parts) (left right : Text) :
    NotEmpty (r.sides make left right) := by
  unfold sides
  repeat' split
  all_goals first
    | exact trivial
    | exact nofun

theorem notEmpty_definitionParts : NotEmpty r.definitionParts := by
  unfold definitionParts
  dsimp only
  repeat' split
  all_goals first
    | exact trivial
    | exact nofun

theorem notEmpty_commandParts : NotEmpty r.commandParts := by
  unfold commandParts
  dsimp only
  repeat' split
  all_goals first
    | exact trivial
    | exact nofun

theorem notEmpty_functionParts : NotEmpty r.functionParts := by
  have balance {text : Text} {e : ParseError} (failed : checkBalance text = .error e) :
      e.cause ≠ .emptyBlock := by
    unfold checkBalance at failed
    split at failed
    · cases failed
    · rename_i cause fault
      cases failed
      rcases cause_of_nestingFault fault with rfl | rfl
      · exact nofun
      · exact nofun
  unfold functionParts
  extract_lets rest
  cases splitAssignment rest with
  | none =>
      dsimp only
      rw [if_neg (by simp)]
      repeat' split
      all_goals first
        | exact trivial
        | exact nofun
  | some cut =>
      dsimp only
      split
      · split
        · rename_i e unbalanced
          have cause := balance unbalanced
          exact cause
        · repeat' split
          all_goals first
            | exact trivial
            | exact nofun
      · repeat' split
        all_goals first
          | exact trivial
          | exact nofun

/-- An instruction can fail to come apart, but it is not empty. -/
theorem notEmpty_parts : NotEmpty r.parts := by
  unfold parts
  cases r.shape with
  | comment => exact trivial
  | definition => exact notEmpty_definitionParts
  | command => exact notEmpty_commandParts
  | call =>
      dsimp only
      split
      · exact notEmpty_sides _ _ _
      · exact trivial
  | assignment =>
      dsimp only
      split
      · exact notEmpty_sides _ _ _
      · exact nofun
  | function => exact notEmpty_functionParts

end Reading

theorem Statement.ofBlock_emptyBlock_iff {keywords : Keywords} {block : Text} :
    (∃ e, Statement.ofBlock keywords block = .error e ∧ e.cause = .emptyBlock) ↔ block.isBlankText := by
  rw [← all_isBlankText_blockLines]
  constructor
  · rintro ⟨e, failed, empty⟩
    by_contra filled
    have parts := Reading.notEmpty_parts (r := readLines keywords [] (blockLines block))
    rw [ofBlock, Reading.ofBlock, if_neg filled] at failed
    cases cut : (readLines keywords [] (blockLines block)).parts with
    | error other =>
        rw [cut] at parts
        simp only [bind, Except.bind, cut] at failed
        cases failed
        exact parts empty
    | ok parts =>
        simp only [bind, Except.bind, cut] at failed
        cases failed
  · intro blank
    refine ⟨{ cause := .emptyBlock, text := block }, ?_, rfl⟩
    rw [ofBlock, Reading.ofBlock, if_pos blank]
    rfl

/-- Every block that is not read is reported. -/
theorem parseScript_error_iff {keywords : Keywords} {source : Text} {p : ParseError → Prop} :
    (∃ errors, parseScript keywords source = .error errors ∧ ∃ e ∈ errors, p e.error) ↔
      ∃ b ∈ logicalBlocks source, ∃ e, Statement.ofBlock keywords b.text = .error e ∧ p e := by
  unfold parseScript
  extract_lets results errors
  have listed (e : LocatedError) : e ∈ errors ↔ ∃ b ∈ logicalBlocks source,
      Statement.ofBlock keywords b.text = .error e.error ∧ b.span = e.span := by
    rw [List.mem_filterMap]
    constructor
    · rintro ⟨⟨span, result⟩, member, kept⟩
      obtain ⟨b, inside, same⟩ := List.mem_map.mp member
      cases same
      cases read : Statement.ofBlock keywords b.text with
      | ok s =>
          rw [read] at kept
          cases kept
      | error error =>
          rw [read] at kept
          cases kept
          exact ⟨b, inside, read, rfl⟩
    · rintro ⟨b, inside, read, same⟩
      refine ⟨(b.span, Statement.ofBlock keywords b.text), List.mem_map_of_mem inside, ?_⟩
      rw [read, same]
  constructor
  · rintro ⟨_, failed, e, member, holds⟩
    split at failed
    · cases failed
    · cases failed
      obtain ⟨b, inside, read, -⟩ := (listed e).mp member
      exact ⟨b, inside, e.error, read, holds⟩
  · rintro ⟨b, inside, e, read, holds⟩
    have member := (listed ⟨e, b.span⟩).mpr ⟨b, inside, read, rfl⟩
    refine ⟨errors, if_neg fun none => ?_, _, member, holds⟩
    rw [List.isEmpty_iff.mp none] at member
    cases member

/-- No block of a source is blank and no block is reported as empty, except where a blank line goes on
from bare continuation marks that stand at the start of a block. -/
theorem parseScript_emptyBlock_iff (keywords : Keywords) (source : Text) :
    ((∃ b ∈ logicalBlocks source, b.text.isBlankText) ↔ LeavesBlank source.lines) ∧
      ((∃ errors, parseScript keywords source = .error errors ∧
          ∃ e ∈ errors, e.error.cause = .emptyBlock) ↔ LeavesBlank source.lines) :=
  by
  refine ⟨exists_blank_block_iff, ?_⟩
  rw [parseScript_error_iff (p := (·.cause = .emptyBlock)), ← exists_blank_block_iff]
  simp only [Statement.ofBlock_emptyBlock_iff]

/-- A blank line behind a bare mark. -/
theorem parseScript_emptyBlock : ∃ errors, parseScript .builtin "...\n\n".toList = .error errors ∧
    errors.map (fun e => (e.error.cause, e.span)) = [(.emptyBlock, ⟨0, 5⟩)] := by
  have found : (match parseScript .builtin "...\n\n".toList with
      | .ok _ => none
      | .error errors => some (errors.map fun e => (e.error.cause, e.span))) =
      some [(ParseCause.emptyBlock, (⟨0, 5⟩ : Span))] := by decide +kernel
  cases parsed : parseScript .builtin "...\n\n".toList with
  | ok statements =>
      rw [parsed] at found
      cases found
  | error errors =>
      rw [parsed] at found
      exact ⟨errors, rfl, Option.some.inj found⟩

end MissionScript
