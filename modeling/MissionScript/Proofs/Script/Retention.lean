import Mathlib.Data.List.DropRight
import MissionScript.Proofs.Script.Lines
import MissionScript.Proofs.Step

/-!
# Statements that are kept

A line with one statement becomes a statement of the script, whatever stands around it, as long as no
carriage return on its own keeps it from being the first instruction of its block.
-/

namespace MissionScript

/-- The statement on a line: its code without the remote keyword and the blanks around it. -/
def statementOf (line : Text) : Text := (dropRemoteKeyword (Text.splitComment line).1).trim

/-- Whether the code of a line goes on with the next line. -/
def continues (line : Text) : Bool :=
  (continuationMark.before? (Text.splitComment line).1.trimEnd).isSome

/-! ### Lines with a statement -/

theorem statementOf_of_blank {line : Text} (blank : (Text.splitComment line).1.isBlankText) :
    statementOf line = [] := by
  have dropped := Text.isBlankText_of_subset (dropRemoteKeyword_sublist _).subset blank
  rw [statementOf, Text.trim, Text.trimStart_eq_nil_iff.mpr dropped]
  rfl

/-- A remark has no code. -/
theorem isBlankText_of_isRemark {line : Text} (remark : isRemark line) :
    (Text.splitComment line).1.isBlankText := by
  have leads : line.trim <+: line.trimStart := Text.dropEndWhile_prefix _ _
  have none : (Text.splitComment line.trimStart).1 = [] := by
    rw [isRemark, Bool.or_eq_true, List.isEmpty_iff, beq_iff_eq] at remark
    rcases remark with empty | percent
    · cases trimmed : line.trimStart with
      | nil => rfl
      | cons c rest =>
          rw [Text.trim, trimmed, Text.trimEnd, Text.dropEndWhile_cons] at empty
          have first : isBlank c = false :=
            Text.head?_dropWhile c (by rw [show line.dropWhile isBlank = c :: rest from trimmed]; rfl)
          simp [first] at empty
    · rw [Text.head?_of_prefix leads (by rintro empty; rw [empty] at percent; cases percent)] at percent
      obtain ⟨rest, behind⟩ := List.head?_eq_some_iff.mp percent
      rw [behind]
      rfl
  rw [Text.splitComment_trimStart] at none
  exact Text.trimStart_eq_nil_iff.mp none

/-- A line is a remark if it has no code. -/
theorem isRemark_iff {line : Text} : isRemark line ↔ (Text.splitComment line).1.isBlankText := by
  refine ⟨isBlankText_of_isRemark, fun blank => ?_⟩
  have code : (Text.splitComment line.trimStart).1 = [] := by
    rw [Text.splitComment_trimStart]
    exact Text.trimStart_eq_nil_iff.mpr blank
  rw [isRemark, Text.trim]
  cases start : line.trimStart with
  | nil => rfl
  | cons c rest =>
      by_cases percent : c = '%'
      · have letter : isBlank '%' = false := by decide
        rw [percent, Text.trimEnd, Text.dropEndWhile_cons, letter, if_neg (by simp)]
        rfl
      · rw [start, Text.splitComment, Text.glyphs, glyphsFrom, List.takeWhile_cons_of_pos] at code
        · cases code
        · simp [percent]

theorem isRemark_of_isBlankText {line : Text} (blank : line.isBlankText) : isRemark line :=
  isRemark_iff.mpr (Text.isBlankText_of_subset (Text.splitComment_prefix line).subset blank)

/-- What stands behind a line with code does not make it a remark. -/
theorem isRemark_append {line : Text} (code : (Text.splitComment line).1.isBlankText = false)
    (more : Text) : isRemark (line ++ more) = false := by
  rw [Bool.eq_false_iff, Ne, isRemark_iff, Bool.not_eq_true]
  rcases Text.splitComment_append line more with same | ⟨whole, rest, -, same⟩
  · rwa [same]
  · rw [whole] at code
    rw [same, Text.isBlankText_append, code, Bool.false_and]

theorem isRemark_of_statement {line : Text} (filled : statementOf line ≠ []) (more : Text) :
    isRemark (line ++ more) = false :=
  isRemark_append (Bool.eq_false_iff.mpr (mt statementOf_of_blank filled)) more

/-! ### Roles -/

/-- The code of a line in front of its continuation mark. -/
def continued? (line : Text) : Option Text :=
  continuationMark.before? (Text.splitComment line).1.trimEnd

theorem continues_eq (line : Text) : continues line = (continued? line).isSome := rfl

theorem lineRole_eq_preface_iff {statement line : Text} :
    lineRole statement line = .preface ↔ statement = [] ∧ isRemark line := by
  rw [lineRole, ← List.isEmpty_iff, ← Bool.and_eq_true]
  split
  · rename_i remark
    exact iff_of_true rfl remark
  · rename_i code
    refine iff_of_false ?_ code
    split <;> exact nofun

/-- A line that is no remark in front of a statement is continued, or it completes one. -/
theorem lineRole_eq {statement line : Text} (code : statement.isEmpty = false ∨ isRemark line = false) :
    lineRole statement line = match continued? line with
      | some code => .continued code
      | none => .complete := by
  rw [lineRole, Bool.and_eq_false_iff.mpr code, if_neg Bool.false_ne_true]
  rfl

theorem continued?_of_lineRole {statement line code : Text}
    (role : lineRole statement line = .continued code) : continued? line = some code := by
  unfold lineRole at role
  split at role
  · cases role
  split at role
  · rename_i marked
    cases role
    exact marked
  · cases role

theorem continues_of_lineRole {statement line code : Text}
    (role : lineRole statement line = .continued code) : continues line = true := by
  rw [continues_eq, continued?_of_lineRole role]
  rfl

/-- The code of a continued line stands in front of its mark. -/
theorem code_of_lineRole {statement line code : Text} (role : lineRole statement line = .continued code) :
    (Text.splitComment line).1.trimEnd = code ++ continuationMark :=
  Text.before?_eq_some_iff.mp (continued?_of_lineRole role)

/-! ### Cutting at semicolons -/

theorem flatten_cutAfterSemicolons (piece : Text) (gs : List Glyph) :
    (cutAfterSemicolons piece gs).1.flatten ++ (cutAfterSemicolons piece gs).2 =
      piece.reverse ++ Text.ofGlyphs gs := by
  induction gs generalizing piece with
  | nil => exact (List.append_nil _).symm
  | cons g rest ih =>
      rw [cutAfterSemicolons]
      split
      · rfl
      · split
        · dsimp only
          rw [List.flatten_cons, List.append_assoc, ih, List.reverse_cons, List.append_assoc]
          rfl
        · rw [ih, List.reverse_cons, List.append_assoc]
          rfl

/-- The first piece goes on from what has been read of it. -/
theorem head?_cutAfterSemicolons (piece : Text) (gs : List Glyph) :
    ∃ more, more <+: Text.ofGlyphs gs ∧
      ((cutAfterSemicolons piece gs).1 ++ [(cutAfterSemicolons piece gs).2]).head? =
        some (piece.reverse ++ more) := by
  induction gs generalizing piece with
  | nil => exact ⟨[], List.nil_prefix, by rw [List.append_nil]; rfl⟩
  | cons g rest ih =>
      rw [cutAfterSemicolons]
      split
      · exact ⟨Text.ofGlyphs (g :: rest), List.prefix_rfl, rfl⟩
      · split
        · refine ⟨[g.char], ⟨Text.ofGlyphs rest, rfl⟩, ?_⟩
          rw [← List.reverse_cons]
          rfl
        · obtain ⟨more, leads, first⟩ := ih (g.char :: piece)
          refine ⟨g.char :: more, List.cons_prefix_cons.mpr ⟨rfl, leads⟩, ?_⟩
          rw [first, List.reverse_cons, List.append_assoc]
          rfl

/-- Code without a semicolon stays in one piece. -/
theorem head?_cutAfterSemicolons_append (piece : Text) {front : List Glyph} (rest : List Glyph)
    (single : ∀ g ∈ front.takeWhile fun g => !(g.isFree && g.char == '%'), g.char ≠ ';') :
    ∃ more, more <+: Text.ofGlyphs rest ∧
      ((cutAfterSemicolons piece (front ++ rest)).1 ++
          [(cutAfterSemicolons piece (front ++ rest)).2]).head? =
        some (piece.reverse ++ (Text.ofGlyphs front ++ more)) := by
  induction front generalizing piece with
  | nil => exact head?_cutAfterSemicolons piece rest
  | cons g front ih =>
      rw [List.cons_append, cutAfterSemicolons]
      split
      · refine ⟨Text.ofGlyphs rest, List.prefix_rfl, ?_⟩
        rw [← List.cons_append, Text.ofGlyphs_append]
        rfl
      · rename_i code
        rw [List.takeWhile_cons_of_pos (by rwa [Bool.not_eq_true', ← Bool.not_eq_true])] at single
        obtain ⟨other, single⟩ := List.forall_mem_cons.mp single
        rw [if_neg (by simp [other])]
        obtain ⟨more, leads, first⟩ := ih (g.char :: piece) single
        refine ⟨more, leads, ?_⟩
        rw [first, List.reverse_cons, List.append_assoc]
        rfl

/-- The first statement on a line starts with the line in front that has one statement. -/
theorem splitStatements_append {line : Text} (single : ';' ∉ (Text.splitComment line).1) (rest : Text) :
    ∃ more others, splitStatements (line ++ rest) = (line ++ more) :: others ∧ more <+: rest := by
  obtain ⟨inner, split⟩ := glyphs_append line
  have code : ∀ g ∈ line.glyphs.takeWhile fun g => !(g.isFree && g.char == '%'), g.char ≠ ';' :=
    fun g member same => single (same ▸ List.mem_map_of_mem member)
  obtain ⟨more, leads, first⟩ := head?_cutAfterSemicolons_append []
    (glyphsFrom (Literal.ofText line) inner rest) code
  have whole := flatten_cutAfterSemicolons [] (line ++ rest).glyphs
  rw [Text.ofGlyphs_glyphsFrom] at leads
  rw [← split, Text.ofGlyphs_glyphs] at first
  rw [Text.ofGlyphs_glyphs] at whole
  unfold splitStatements
  cases cut : cutAfterSemicolons [] (line ++ rest).glyphs with
  | mk pieces last =>
      rw [cut] at first whole
      cases pieces with
      | nil => exact ⟨more, [], congrArg (· :: []) (Option.some.inj first), leads⟩
      | cons piece pieces =>
          have same : piece = line ++ more := Option.some.inj first
          cases pieces with
          | nil =>
              dsimp only [List.getLast?_singleton]
              split
              · refine ⟨rest, [], ?_, List.prefix_rfl⟩
                rw [List.flatten_singleton] at whole
                exact congrArg (· :: []) whole
              · exact ⟨more, [last], by rw [same]; rfl, leads⟩
          | cons other pieces =>
              obtain ⟨final, ends⟩ : ∃ final, (piece :: other :: pieces).getLast? = some final :=
                ⟨_, List.getLast?_eq_some_getLast (List.cons_ne_nil _ _)⟩
              dsimp only
              rw [ends]
              dsimp only
              split
              · exact ⟨more, _, by rw [same]; rfl, leads⟩
              · exact ⟨more, _, by rw [same]; rfl, leads⟩

/-! ### The block of a statement -/

/-- A text that does not end in a part of `tail` stands in front of it. -/
theorem exists_of_append_eq {text rest head tail : Text} (same : text ++ rest = head ++ tail)
    (last : ∀ c ∈ text.getLast?, c ∉ tail) : ∃ more, head = text ++ more ∧ rest = more ++ tail := by
  rcases List.append_eq_append_iff.mp same with ⟨more, front, behind⟩ | ⟨part, front, behind⟩
  · exact ⟨more, front, behind⟩
  · cases part using List.reverseRecOn with
    | nil =>
        rw [List.append_nil] at front
        exact ⟨[], by rw [front, List.append_nil], behind.symm⟩
    | append_singleton part c =>
        have final : text.getLast? = some c := by
          rw [front, ← List.append_assoc]
          exact List.getLast?_concat
        refine absurd ?_ (last c final)
        rw [behind]
        exact List.mem_append_left _ (List.mem_append_right _ List.mem_cons_self)

/-- The mark that continues a line with more behind it stands behind the line, if the line has no such
mark. -/
theorem exists_of_continues_append {line rest head : Text} (isLine : IsLine line rest)
    (own : continues line = false)
    (marked : continuationMark.before? (Text.splitComment (line ++ rest)).1.trimEnd = some head) :
    ∃ more, head = line ++ more ∧ IsLine line (more ++ [' ']) := by
  have unmarked : continuationMark.before? (Text.splitComment line).1.trimEnd = none :=
    Option.not_isSome_iff_eq_none.mp (by rw [← continues, own]; exact Bool.false_ne_true)
  rcases Text.splitComment_append line rest with same | ⟨whole, code, leads, same⟩
  · rw [same, unmarked] at marked
    cases marked
  rw [whole] at unmarked
  rw [same, Text.trimEnd, Text.dropEndWhile_append_eq] at marked
  split at marked
  · rw [Text.trimEnd, marked] at unmarked
    cases unmarked
  rename_i filled
  have behind : Text.dropEndWhile isBlank code <+: rest := (Text.dropEndWhile_prefix _ _).trans leads
  have more : rest ≠ [] := by
    rintro rfl
    exact filled (List.prefix_nil.mp behind)
  -- The line ends in a line end, and so not in a part of the mark.
  have last : ∀ c ∈ line.getLast?, c ∉ continuationMark := by
    intro c last
    rw [Option.mem_def] at last
    rcases isLine.ended more with feed | ⟨alone, -⟩
    · rw [Option.some.inj (last.symm.trans feed)]
      decide
    · rw [Option.some.inj (last.symm.trans alone)]
      decide
  obtain ⟨between, front, tail⟩ := exists_of_append_eq (Text.before?_eq_some_iff.mp marked) last
  refine ⟨between, front, isLine.congr more fun feed => ?_⟩
  cases between with
  | nil => cases feed
  | cons c between =>
      rw [← Text.head?_of_prefix behind filled, tail]
      exact feed

theorem isBlankText_of_statement {line : Text} (written : statementOf line ≠ []) :
    line.isBlankText = false := by
  rw [Bool.eq_false_iff]
  intro blank
  exact written (statementOf_of_blank
    (Text.isBlankText_of_subset (Text.splitComment_prefix line).subset blank))

theorem rtakeWhile_subset_cons {α : Type} (p : α → Bool) (x : α) (l : List α) :
    l.rtakeWhile p ⊆ (x :: l).rtakeWhile p := by
  intro y member
  rw [List.rtakeWhile, List.mem_reverse] at member ⊢
  rw [List.reverse_cons, List.takeWhile_append]
  split
  · exact List.mem_append_left _ ((List.takeWhile_prefix p).subset member)
  · exact member

/-- One of the blocks has the line behind the text `lead`. -/
def HasLine (line lead : Text) (blocks : List Block) : Prop :=
  ∃ block ∈ blocks, ∃ more, IsLine line more ∧ block.text = lead ++ (line ++ more)

theorem HasLine.mono {line lead : Text} {blocks others : List Block}
    (has : HasLine line lead blocks) (within : blocks ⊆ others) : HasLine line lead others := by
  obtain ⟨block, member, behind⟩ := has
  exact ⟨block, within member, behind⟩

section

variable {line rest : Text} (isLine : IsLine line rest) (single : ';' ∉ (Text.splitComment line).1)
  (written : statementOf line ≠ [])

include isLine single

theorem hasLine_completedBlocks (preface : Text) (span : Span) :
    HasLine line preface (completedBlocks preface (line ++ rest) span) := by
  obtain ⟨more, others, split, leads⟩ := splitStatements_append single rest
  rw [completedBlocks, split]
  exact ⟨_, List.mem_cons_self, more, isLine.of_prefix leads, rfl⟩

include written

/-- A line that is to be completed is in the block that is completed. -/
theorem hasLine_of_begun (filled : rest ≠ []) {pending : PendingBlock}
    (begun : pending.statement = line ++ rest) (offset : Nat) (lines : List Text) :
    HasLine line pending.preface (blocksFrom pending offset lines) := by
  induction lines generalizing pending offset rest with
  | nil =>
      have some : Text.isBlankText (pending.preface ++ pending.statement) = false := by
        rw [begun, Text.isBlankText, List.all_append, List.all_append,
          show line.all isBlank = false from isBlankText_of_statement written, Bool.false_and,
          Bool.and_false]
      rw [blocksFrom, some, if_neg Bool.false_ne_true]
      exact ⟨_, List.mem_singleton_self _, rest, isLine, by rw [begun]⟩
  | cons next lines ih =>
      have open' : pending.statement.isEmpty = false := by
        rw [begun, List.isEmpty_eq_false_iff]
        exact List.append_ne_nil_of_left_ne_nil isLine.filled _
      rw [blocksFrom, lineRole, open', Bool.false_and, if_neg Bool.false_ne_true]
      cases continuationMark.before? (Text.splitComment next).1.trimEnd with
      | some code =>
          refine ih (isLine.append filled (code ++ [' '])) (List.append_ne_nil_of_left_ne_nil filled _) ?_ _
          rw [begun, List.append_assoc, List.append_assoc]
      | none =>
          rw [begun, List.append_assoc]
          exact (hasLine_completedBlocks (isLine.append filled next) single _ _).mono
            (List.subset_append_left ..)

/-- The line is in one of the blocks, behind the remarks directly above it. -/
theorem hasLine_blocksFrom (own : continues line = false) {p : Text → Prop} {before : List Text}
    (remarks : ∀ other ∈ before.rtakeWhile isRemark, p other) (pending : PendingBlock)
    (waits : pending.statement = [] → (∀ r ∈ before, isRemark r) →
      ∃ front : List Text, (∀ other ∈ front, p other) ∧ pending.preface = front.flatten)
    (fresh : before = [] → pending.statement = [])
    (above : ∀ last ∈ before.getLast?, continues last = false) (offset : Nat) (after : List Text) :
    ∃ front : List Text, (∀ other ∈ front, p other) ∧
      HasLine line front.flatten (blocksFrom pending offset (before ++ (line ++ rest) :: after)) := by
  induction before generalizing pending offset with
  | nil =>
      have none := fresh rfl
      obtain ⟨front, each, preface⟩ := waits none (List.forall_mem_nil _)
      refine ⟨front, each, ?_⟩
      rw [List.nil_append, blocksFrom, lineRole, none, isRemark_of_statement written rest,
        Bool.and_false, if_neg Bool.false_ne_true, ← preface]
      cases marked : continuationMark.before? (Text.splitComment (line ++ rest)).1.trimEnd with
      | some head =>
          obtain ⟨more, rfl, begun⟩ := exists_of_continues_append isLine own marked
          exact hasLine_of_begun begun single written (by simp) (by simp) _ _
      | none => exact (hasLine_completedBlocks isLine single _ _).mono (List.subset_append_left ..)
  | cons next before ih =>
      have lower : ∀ other ∈ before.rtakeWhile isRemark, p other :=
        fun other member => remarks other (rtakeWhile_subset_cons isRemark next before member)
      have last : ∀ last ∈ before.getLast?, continues last = false :=
        fun last final => above last (List.mem_getLast?_cons final)
      rw [List.cons_append, blocksFrom, lineRole]
      cases remark : pending.statement.isEmpty && isRemark next with
      | true =>
          rw [if_pos rfl]
          rw [Bool.and_eq_true, List.isEmpty_iff] at remark
          dsimp only
          refine ih lower _ ?_ ?_ last _
          · intro none others
            have all : ∀ r ∈ next :: before, isRemark r := List.forall_mem_cons.mpr ⟨remark.2, others⟩
            obtain ⟨front, each, preface⟩ := waits none all
            have here : p next :=
              remarks next (by rw [List.rtakeWhile_eq_self_iff.mpr all]; exact List.mem_cons_self)
            refine ⟨front ++ [next], ?_, ?_⟩
            · exact List.forall_mem_append.mpr ⟨each, List.forall_mem_singleton.mpr here⟩
            · rw [List.flatten_append, List.flatten_singleton, ← preface]
          · exact fun _ => remark.1
      | false =>
          rw [if_neg Bool.false_ne_true]
          cases marked : continuationMark.before? (Text.splitComment next).1.trimEnd with
          | some code =>
              refine ih lower _ (fun none => absurd none (by simp)) (fun empty => ?_) last _
              have final := above next (by rw [empty]; rfl)
              rw [continues, marked] at final
              cases final
          | none =>
              obtain ⟨front, each, has⟩ :=
                ih lower {} (fun _ _ => ⟨[], List.forall_mem_nil _, rfl⟩) (fun _ => rfl) last _
              exact ⟨front, each, has.mono (List.subset_append_right ..)⟩

end

/-! ### Reading the block -/

theorem cutLines_flatten_append {front : List Text} (feed : ∀ other ∈ front, other.getLast? = some '\n')
    (text : Text) : cutLines (front.flatten ++ text) = front.flatMap cutLines ++ cutLines text := by
  induction front with
  | nil => rfl
  | cons other front ih =>
      obtain ⟨here, others⟩ := List.forall_mem_cons.mp feed
      rw [List.flatten_cons, List.append_assoc, cutLines_append, ih others, List.flatMap_cons,
        List.append_assoc]
      intro c last _
      rw [here] at last
      cases last
      exact .inl rfl

theorem readLines_remarks (keywords : Keywords) (preface : Text) {remarks : List Text}
    (each : ∀ other ∈ remarks, isRemark other) (lines : List Text) :
    readLines keywords preface (remarks ++ lines) =
      readLines keywords (preface ++ remarks.flatten) lines := by
  induction remarks generalizing preface with
  | nil => rw [List.flatten_nil, List.append_nil]; rfl
  | cons other remarks ih =>
      obtain ⟨here, others⟩ := List.forall_mem_cons.mp each
      rw [List.cons_append, readLines, if_pos here, ih _ others, List.flatten_cons, List.append_assoc]

/-- Without semicolons only blanks are cut off from the code. -/
theorem instructionOf_eq {code : Text} (single : ';' ∉ code) : instructionOf code = code.trim := by
  rw [instructionOf, Text.dropEndWhile_eq_self]
  · exact Text.dropEndWhile_eq_self Text.getLast?_dropEndWhile
  · intro c last
    rw [beq_eq_false_iff_ne]
    rintro rfl
    exact single ((trim_sublist code).subset (List.mem_of_getLast? last))

/-- A statement on its own line is what is read from it. -/
theorem instruction_readLines {line : Text} (single : ';' ∉ (Text.splitComment line).1)
    (written : statementOf line ≠ []) (keywords : Keywords) (preface : Text) (lines : List Text) :
    (readLines keywords preface (line :: lines)).instruction = statementOf line := by
  have code : instructionOf (Text.splitComment (dropRemoteKeyword line)).1 = statementOf line := by
    rw [splitComment_dropRemoteKeyword]
    exact instructionOf_eq fun member => single ((dropRemoteKeyword_sublist _).subset member)
  have noRemark : isRemark line = false := by
    rw [← isRemark_of_statement written [], List.append_nil]
  rw [readLines, noRemark, if_neg Bool.false_ne_true]
  dsimp only
  rw [code, if_neg (by simpa using written)]

theorem instruction_ofBlock {line more : Text} (isLine : IsLine line more)
    (single : ';' ∉ (Text.splitComment line).1) (written : statementOf line ≠ []) {front : List Text}
    (feed : ∀ other ∈ front, other.getLast? = some '\n' ∧ ∀ part ∈ cutLines other, isRemark part)
    {keywords : Keywords} {s : Statement}
    (read : Statement.ofBlock keywords (front.flatten ++ (line ++ more)) = .ok s) :
    s.instruction = statementOf line := by
  obtain ⟨reading, first, rest⟩ := Outcome.bind_eq_ok_iff.mp read
  obtain ⟨parts, -, made⟩ := Outcome.bind_eq_ok_iff.mp rest
  cases made
  have lines : blockLines (front.flatten ++ (line ++ more)) =
      front.flatMap cutLines ++ line :: cutLines more := by
    rw [blockLines, cutLines_flatten_append fun other member => (feed other member).1,
      isLine.cutLines_append]
    cases front.flatMap cutLines <;> rfl
  have remarks : ∀ part ∈ front.flatMap cutLines, isRemark part := by
    intro part member
    obtain ⟨other, inFront, here⟩ := List.mem_flatMap.mp member
    exact (feed other inFront).2 part here
  unfold Reading.ofBlock at first
  rw [lines] at first
  dsimp only at first
  split at first
  · cases first
  · cases first
    rw [readLines_remarks keywords [] remarks]
    exact instruction_readLines single written keywords _ _

/-- Where a script is read without errors, every block has its statement. -/
theorem exists_mem_of_parseScript {keywords : Keywords} {source : Text} {statements : List Statement}
    (parsed : parseScript keywords source = .ok statements) {block : Block}
    (member : block ∈ logicalBlocks source) :
    ∃ read, Statement.ofBlock keywords block.text = .ok read ∧
      { read with span := block.span } ∈ statements := by
  unfold parseScript at parsed
  dsimp only at parsed
  have listed := List.mem_map_of_mem
    (f := fun b : Block => (b.span, Statement.ofBlock keywords b.text)) member
  split at parsed
  · rename_i clean
    cases parsed
    cases read : Statement.ofBlock keywords block.text with
    | error error =>
        have none := List.filterMap_eq_nil_iff.mp (List.isEmpty_iff.mp clean) _ listed
        rw [read] at none
        cases none
    | ok statement =>
        exact ⟨statement, rfl, List.mem_filterMap.mpr ⟨_, listed, by rw [read]⟩⟩
  · cases parsed

/-- No statement is dropped that stands on a line of its own, unless a carriage return without a line
feed hides it. That is the case for a line that stands behind one, and for a line below a remark that
goes on behind one with something else than remarks: only line feeds end a statement and a remark where
blocks are made, and only the first instruction of a block is read. -/
theorem parseScript_keeps {keywords : Keywords} {source line : Text} {statements : List Statement}
    {before after : List Text} (parsed : parseScript keywords source = .ok statements)
    (cut : cutLines source = before ++ line :: after)
    (starts : ∀ c ∈ before.flatten.getLast?, c = '\n')
    (remarks : ∀ other ∈ (Text.lines before.flatten).rtakeWhile isRemark,
      ∀ part ∈ cutLines other, isRemark part)
    (above : ∀ last ∈ (Text.lines before.flatten).getLast?, continues last = false)
    (own : continues line = false) (single : ';' ∉ (Text.splitComment line).1)
    (written : statementOf line ≠ []) :
    ∃ s ∈ statements, s.instruction = statementOf line := by
  obtain ⟨isLine, -⟩ := isLine_of_cutLines (cutLines_flatten_of_append cut)
  obtain ⟨rest, others, first, leads, -⟩ :=
    Text.exists_lines_append isLine.filled isLine.feed after.flatten
  have lines : source.lines = Text.lines before.flatten ++ (line ++ rest) :: others := by
    rw [← flatten_cutLines source, cut, List.flatten_append, List.flatten_cons,
      Text.lines_append starts, first]
  have feed : ∀ other ∈ (Text.lines before.flatten).rtakeWhile isRemark,
      other.getLast? = some '\n' ∧ ∀ part ∈ cutLines other, isRemark part :=
    fun other member =>
      ⟨Text.getLast?_of_mem_lines starts other ((List.rtakeWhile_suffix isRemark _).subset member),
        remarks other member⟩
  obtain ⟨front, each, block, member, more, behind, text⟩ :=
    hasLine_blocksFrom (isLine.of_prefix leads) single written own feed {}
      (fun _ _ => ⟨[], List.forall_mem_nil _, rfl⟩) (fun _ => rfl) above 0 others
  rw [← lines] at member
  obtain ⟨read, parts, listed⟩ := exists_mem_of_parseScript parsed member
  rw [text] at parts
  have same : read.instruction = statementOf line :=
    instruction_ofBlock behind single written each parts
  exact ⟨_, listed, same⟩

theorem parseScript_keeps_remote :
    ∃ statements,
      parseScript .builtin "% note\r\nGMAT x = 1 % one\ry = 2\n".toList = .ok statements ∧
        ∃ s ∈ statements, s.instruction = "x = 1".toList := by
  have accepted : (parseScript .builtin "% note\r\nGMAT x = 1 % one\ry = 2\n".toList).isOk := by
    decide +kernel
  obtain ⟨statements, parsed⟩ := Outcome.exists_of_isOk accepted
  have cut : cutLines "% note\r\nGMAT x = 1 % one\ry = 2\n".toList =
      ["% note\r\n".toList] ++ "GMAT x = 1 % one\r".toList :: ["y = 2\n".toList] := by
    decide +kernel
  have feed : ["% note\r\n".toList].flatten.getLast? = some '\n' := by decide +kernel
  exact ⟨statements, parsed, parseScript_keeps parsed cut
    (fun c last => (Option.some.inj (feed.symm.trans last)).symm) (by decide +kernel)
    (by decide +kernel) (by decide +kernel) (by decide +kernel) (by decide +kernel)⟩

/-- Two lines with a lone carriage return between them, of which only the first becomes a statement. -/
theorem parseScript_drops :
    ∃ statements, parseScript .builtin "a = 1\rb = 2".toList = .ok statements ∧
      cutLines "a = 1\rb = 2".toList = ["a = 1\r".toList, "b = 2".toList] ∧
      continues "a = 1\r".toList = false ∧ continues "b = 2".toList = false ∧
      ';' ∉ (Text.splitComment "b = 2".toList).1 ∧ statementOf "b = 2".toList = "b = 2".toList ∧
      ∀ s ∈ statements, s.instruction ≠ "b = 2".toList := by
  have instructions : ((parseScript .builtin "a = 1\rb = 2".toList).map
      fun statements => statements.map (·.instruction)).toOption = some ["a = 1".toList] := by
    decide +kernel
  cases parsed : parseScript .builtin "a = 1\rb = 2".toList with
  | error errors =>
      rw [parsed] at instructions
      cases instructions
  | ok statements =>
      rw [parsed] at instructions
      have only : statements.map (·.instruction) = ["a = 1".toList] := Option.some.inj instructions
      refine ⟨statements, rfl, by decide +kernel, by decide +kernel, by decide +kernel,
        by decide +kernel, by decide +kernel, fun s member same => ?_⟩
      have listed := List.mem_map_of_mem (f := (·.instruction)) member
      rw [only, same] at listed
      revert listed
      decide

end MissionScript
