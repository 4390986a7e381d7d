import MissionScript.Proofs.Script.Retention
import MissionScript.Script.Reader

/-!
# Sources put together

A source whose last line completes a statement can be read apart from what stands behind it. Nothing of it
is pending then, and what a reader has kept of its blocks, also of those that were not read, is forgotten
before the next block. So the statements and the errors of the two parts are those of the whole, with
the spans of the second part moved behind the first.
-/

namespace MissionScript

/-! ### Readers forget -/

namespace Reader

variable {keywords : Keywords}

/-- The reader that has found these pieces in a block. -/
def ofReading (r : Reading) : Reader where
  blockType := r.shape.blockType
  call := r.shape == .call
  preface := r.preface
  remark := r.remark
  instruction := r.instruction
  pieces := r.pieces

theorem reset_eq (r : Reader) : r.reset = {} := rfl

theorem reading_ofReading (r : Reading) : (ofReading r).reading = r := by
  cases r with
  | mk preface remark instruction shape => cases shape <;> rfl

theorem keepPieces_takeLines (preface : Text) (lines : List Text) :
    (takeLines keywords lines { preface }).keepPieces =
      ofReading (readLines keywords preface lines) := by
  induction lines generalizing preface with
  | nil => rfl
  | cons line lines ih =>
      rw [takeLines, readLines]
      by_cases remark : isRemark line
      · rw [if_pos remark, if_pos remark]
        exact ih _
      · rw [if_neg remark, if_neg remark]
        dsimp only
        by_cases empty : (instructionOf (Text.splitComment (dropRemoteKeyword line)).1).isEmpty
        · rw [if_pos empty, if_pos empty]
          exact ih _
        · rw [if_neg empty, if_neg empty, keepPieces, ofReading, Reading.pieces]

/-- Reading a block gives the same pieces whatever the reader has found before. -/
theorem evaluate_eq (keywords : Keywords) (block : Text) (r : Reader) :
    evaluate keywords block r = match Reading.ofBlock keywords block with
      | .ok reading => (.ok reading.shape.blockType, ofReading reading)
      | .error error => (.error error, {}) := by
  unfold evaluate Reading.ofBlock
  rw [Step.modify_bind]
  dsimp only
  split
  · rfl
  · rw [Step.modify_bind, Step.modify_bind, Step.get_bind]
    change (Except.ok (keepPieces _).blockType, keepPieces _) = _
    rw [reset_eq, keepPieces_takeLines]
    rfl

theorem statement_fst (block : Text) (r : Reader) :
    (statement keywords block r).1 = Statement.ofBlock keywords block := by
  have read := evaluate_eq keywords block r
  unfold statement Statement.ofBlock
  cases found : Reading.ofBlock keywords block with
  | error error =>
      rw [found] at read
      rw [Step.bind_error read]
      rfl
  | ok reading =>
      rw [found] at read
      rw [Step.bind_ok read, Step.get_bind, parts, reading_ofReading]
      change _ = do return ({ reading, parts := ← reading.parts } : Statement)
      cases reading.parts <;> rfl

end Reader

/-! ### What is found in blocks -/

namespace Harvest

/-- What is found in some blocks, each read on its own. -/
def ofBlocks (keywords : Keywords) (blocks : List Block) : Harvest :=
  blocks.foldr (fun block => add block.span (Statement.ofBlock keywords block.text)) {}

instance : Append Harvest where
  append first second := ⟨first.statements ++ second.statements, first.errors ++ second.errors⟩

theorem add_append (span : Span) (result : Except ParseError Statement) (first second : Harvest) :
    add span result (first ++ second) = add span result first ++ second := by
  cases result <;> rfl

theorem ofBlocks_append (keywords : Keywords) (first second : List Block) :
    ofBlocks keywords (first ++ second) = ofBlocks keywords first ++ ofBlocks keywords second := by
  induction first with
  | nil => rfl
  | cons block first ih =>
      change add _ _ (ofBlocks keywords (first ++ second)) = _
      rw [ih, add_append]
      rfl

end Harvest

theorem Reader.collect_fst (keywords : Keywords) (blocks : List Block) (r : Reader) :
    (collect keywords blocks r).1 = Harvest.ofBlocks keywords blocks := by
  induction blocks generalizing r with
  | nil => rfl
  | cons block blocks ih =>
      change Harvest.add block.span (statement keywords block.text r).1 (collect keywords blocks _).1 = _
      rw [statement_fst, ih]
      rfl

/-- Whatever a reader has read before, it finds in a source what is in its blocks. -/
theorem Reader.harvest_eq (r : Reader) (keywords : Keywords) (source : Text) :
    r.harvest keywords source = Harvest.ofBlocks keywords (logicalBlocks source) :=
  collect_fst keywords (logicalBlocks source) r

/-- The statements and the errors may be picked one after the other from the results of the blocks. -/
theorem Harvest.ofBlocks_eq (keywords : Keywords) (blocks : List Block)
    {statement? : Span × Except ParseError Statement → Option Statement}
    {error? : Span × Except ParseError Statement → Option LocatedError}
    (read : ∀ span s, statement? (span, .ok s) = some { s with span } ∧ error? (span, .ok s) = none)
    (failed : ∀ span e, statement? (span, .error e) = none ∧
      error? (span, .error e) = some { error := e, span }) :
    ofBlocks keywords blocks =
      { statements := (blocks.map fun block =>
          (block.span, Statement.ofBlock keywords block.text)).filterMap statement?
        errors := (blocks.map fun block =>
          (block.span, Statement.ofBlock keywords block.text)).filterMap error? } := by
  induction blocks with
  | nil => rfl
  | cons block blocks ih =>
      change add block.span (Statement.ofBlock keywords block.text) (ofBlocks keywords blocks) = _
      rw [ih, List.map_cons, List.filterMap_cons, List.filterMap_cons]
      cases Statement.ofBlock keywords block.text with
      | ok s =>
          rw [(read block.span s).1, (read block.span s).2]
          rfl
      | error e =>
          rw [(failed block.span e).1, (failed block.span e).2]
          rfl

theorem parseScript_eq_outcome (keywords : Keywords) (source : Text) :
    parseScript keywords source = (Harvest.ofBlocks keywords (logicalBlocks source)).outcome := by
  refine (congrArg Harvest.outcome (Harvest.ofBlocks_eq keywords _ ?_ ?_)).symm
  · exact fun _ _ => ⟨rfl, rfl⟩
  · exact fun _ _ => ⟨rfl, rfl⟩

/-! ### Moved spans -/

/-- The span `n` bytes further on. -/
def Span.shift (n : Nat) (span : Span) : Span := ⟨n + span.start, n + span.stop⟩

/-- The block `n` bytes further on. -/
def Block.shift (n : Nat) (block : Block) : Block := { block with span := block.span.shift n }

/-- The pending block `n` bytes further on. -/
def PendingBlock.shift (n : Nat) (pending : PendingBlock) : PendingBlock :=
  { pending with start := pending.start.map (n + ·) }

/-- The same statements and errors `n` bytes further on. -/
def Harvest.shift (n : Nat) (h : Harvest) : Harvest where
  statements := h.statements.map fun s => { s with span := s.span.shift n }
  errors := h.errors.map fun e => { e with span := e.span.shift n }

theorem completedBlocks_shift (n : Nat) (preface line : Text) (span : Span) :
    completedBlocks preface line (span.shift n) =
      (completedBlocks preface line span).map (Block.shift n) := by
  rw [completedBlocks, completedBlocks]
  cases splitStatements line with
  | nil => rfl
  | cons first others =>
      rw [List.map_cons, List.map_map]
      rfl

theorem blocksFrom_shift (n : Nat) (pending : PendingBlock) (offset : Nat) (lines : List Text) :
    blocksFrom (pending.shift n) (n + offset) lines =
      (blocksFrom pending offset lines).map (Block.shift n) := by
  induction lines generalizing pending offset with
  | nil =>
      have start : (pending.shift n).start.getD (n + offset) = n + pending.start.getD offset := by
        cases h : pending.start <;> simp [PendingBlock.shift, h]
      rw [blocksFrom, blocksFrom, start]
      change (if (pending.preface ++ pending.statement).isBlankText then _ else _) = _
      split <;> rfl
  | cons line lines ih =>
      have start : (pending.shift n).start.getD (n + offset) = n + pending.start.getD offset := by
        cases h : pending.start <;> simp [PendingBlock.shift, h]
      have statement : (pending.shift n).statement = pending.statement := rfl
      rw [blocksFrom, blocksFrom, start, statement, Nat.add_assoc]
      cases lineRole pending.statement line with
      | preface =>
          exact ih { pending with
            preface := pending.preface ++ line, start := some (pending.start.getD offset) } _
      | continued code =>
          exact ih { pending with
            statement := pending.statement ++ code ++ [' '], start := some (pending.start.getD offset) } _
      | complete =>
          dsimp only
          rw [List.map_append, ← completedBlocks_shift, ← ih]
          rfl

theorem Harvest.ofBlocks_shift (keywords : Keywords) (n : Nat) (blocks : List Block) :
    ofBlocks keywords (blocks.map (Block.shift n)) = (ofBlocks keywords blocks).shift n := by
  induction blocks with
  | nil => rfl
  | cons block blocks ih =>
      change add (block.span.shift n) (Statement.ofBlock keywords block.text)
        (ofBlocks keywords (blocks.map (Block.shift n))) = _
      rw [ih]
      change _ = shift n (add block.span (Statement.ofBlock keywords block.text) (ofBlocks keywords blocks))
      cases Statement.ofBlock keywords block.text <;> rfl

/-! ### Where a source may be cut -/

/-- The source is empty, or it ends with a line that completes a statement: one that is neither blank nor a
comment nor continued. -/
def EndsStatement (source : Text) : Prop :=
  source = [] ∨ source.getLast? = some '\n' ∧
    ∀ line ∈ source.lines.getLast?, isRemark line = false ∧ continues line = false

theorem lineRole_of_code {line : Text} (code : isRemark line = false) (own : continues line = false)
    (statement : Text) : lineRole statement line = .complete := by
  rw [continues_eq, Option.isSome_eq_false_iff, Option.isNone_iff_eq_none] at own
  rw [lineRole_eq (.inr code), own]

/-- Behind a line that completes a statement the blocks are those of the lines that are left. -/
theorem blocksFrom_append {lines : List Text} (filled : lines ≠ [])
    (last : ∀ line ∈ lines.getLast?, isRemark line = false ∧ continues line = false)
    (pending : PendingBlock) (offset : Nat) (others : List Text) :
    blocksFrom pending offset (lines ++ others) =
      blocksFrom pending offset lines ++ blocksFrom {} (offset + Text.bytes lines.flatten) others := by
  induction lines generalizing pending offset with
  | nil => exact absurd rfl filled
  | cons line lines ih =>
      by_cases only : lines = []
      · obtain ⟨code, own⟩ := last line (by rw [only]; rfl)
        rw [only, List.singleton_append, blocksFrom, blocksFrom, lineRole_of_code code own]
        dsimp only
        rw [List.append_assoc, List.flatten_singleton]
        rfl
      · have rest := ih only fun line final => last line (List.mem_getLast?_cons final)
        rw [List.cons_append, blocksFrom, blocksFrom, List.flatten_cons, Text.bytes_append,
          ← Nat.add_assoc]
        cases lineRole pending.statement line with
        | preface => exact rest _ _
        | continued code => exact rest _ _
        | complete =>
            dsimp only
            rw [rest, List.append_assoc]

theorem logicalBlocks_append {first : Text} (whole : EndsStatement first) (second : Text) :
    logicalBlocks (first ++ second) =
      logicalBlocks first ++ (logicalBlocks second).map (Block.shift first.bytes) := by
  rcases whole with rfl | ⟨feed, last⟩
  · have same : Block.shift (Text.bytes []) = id := by
      funext block
      rw [Block.shift, Span.shift, Text.bytes_nil, Nat.zero_add, Nat.zero_add]
      rfl
    rw [same, List.map_id]
    rfl
  · have filled : first.lines ≠ [] := by
      intro none
      rw [Text.lines_eq_nil_iff.mp none] at feed
      cases feed
    have cut : ∀ c ∈ first.getLast?, c = '\n' := by
      intro c final
      rw [feed] at final
      exact (Option.some.inj final).symm
    rw [logicalBlocks, Text.lines_append cut, blocksFrom_append filled last, Text.flatten_lines,
      Nat.zero_add]
    exact congrArg (logicalBlocks first ++ ·) (blocksFrom_shift first.bytes {} 0 second.lines)

/-- A source may be cut behind a line that completes a statement: what is found in the two parts, by
readers with any past, is what is found in the whole. -/
theorem Reader.harvest_append {first : Text} (whole : EndsStatement first) (second : Text)
    (keywords : Keywords) (reader earlier later : Reader) :
    reader.harvest keywords (first ++ second) =
        earlier.harvest keywords first ++ (later.harvest keywords second).shift first.bytes ∧
      parseScript keywords (first ++ second) = Harvest.outcome
        (earlier.harvest keywords first ++ (later.harvest keywords second).shift first.bytes) := by
  have parts : Harvest.ofBlocks keywords (logicalBlocks (first ++ second)) =
      earlier.harvest keywords first ++ (later.harvest keywords second).shift first.bytes := by
    rw [logicalBlocks_append whole, Harvest.ofBlocks_append, Harvest.ofBlocks_shift,
      earlier.harvest_eq, later.harvest_eq]
  exact ⟨(reader.harvest_eq ..).trans parts, parts ▸ parseScript_eq_outcome ..⟩

/-- A definition without names fails, and leaves its pieces behind, in front of a statement that is read. -/
theorem Reader.harvest_append_failed :
    EndsStatement "% c\nCreate Spacecraft % note\n".toList ∧
      parseScript .builtin ("% c\nCreate Spacecraft % note\n".toList ++ "y = 2".toList) = Harvest.outcome
        (Reader.harvest {} .builtin "% c\nCreate Spacecraft % note\n".toList ++
          (Reader.harvest { preface := "% c\n".toList, remark := "% note".toList } .builtin
            "y = 2".toList).shift 29) := by
  have whole : EndsStatement "% c\nCreate Spacecraft % note\n".toList :=
    .inr ⟨by decide +kernel, by decide +kernel⟩
  exact ⟨whole, (harvest_append whole "y = 2".toList .builtin {} {}
    { preface := "% c\n".toList, remark := "% note".toList }).2⟩

end MissionScript
