import MissionScript.Proofs.Script.Meaning

/-!
# Comment lines in front of a source

Blank and comment lines in front of a source go into the preface of its first block. If it has no block, they
are one of their own, which says nothing. So a source that is read means the same with such lines in front,
however its lines end.
-/

namespace MissionScript

/-! ### Blank and comment lines -/

/-- Blank and comment lines that are ended. -/
structure IsGap (gap : Text) : Prop where
  remarks : ∀ line ∈ cutLines gap, isRemark line
  ended : ∀ c ∈ gap.getLast?, c = '\n'

theorem isRemark_append_of_blank {front : Text} (blank : front.isBlankText) (more : Text) :
    isRemark (front ++ more) = isRemark more := by
  have same : Text.trim (front ++ more) = more.trim := by
    rw [Text.trim, Text.trimStart, List.dropWhile_append_of_pos (List.all_eq_true.mp blank)]
    rfl
  rw [isRemark, isRemark, same]

/-- Remarks on one line are a remark. -/
theorem isRemark_flatten {remarks : List Text} (each : ∀ line ∈ remarks, isRemark line) :
    isRemark remarks.flatten := by
  induction remarks with
  | nil => rfl
  | cons line remarks ih =>
      obtain ⟨here, each⟩ := List.forall_mem_cons.mp each
      have blank := isRemark_iff.mp here
      rw [List.flatten_cons]
      rcases Text.splitComment_append line remarks.flatten with same | ⟨whole, rest, -, -⟩
      · rw [isRemark_iff, same]
        exact blank
      · rw [whole] at blank
        rw [isRemark_append_of_blank blank]
        exact ih each

namespace IsGap

variable {gap : Text} (isGap : IsGap gap)

include isGap

theorem isRemark_of_mem_lines : ∀ line ∈ gap.lines, isRemark line := by
  intro line member
  have cut := cutLines_flatten_append (Text.getLast?_of_mem_lines isGap.ended) []
  rw [List.append_nil, Text.flatten_lines, cutLines, List.append_nil] at cut
  rw [← flatten_cutLines line]
  refine isRemark_flatten fun part inside => isGap.remarks part ?_
  rw [cut]
  exact List.mem_flatMap.mpr ⟨line, member, inside⟩

theorem cutLines_append (text : Text) : cutLines (gap ++ text) = cutLines gap ++ cutLines text :=
  MissionScript.cutLines_append fun c last _ => .inl (isGap.ended c last)

end IsGap

/-! ### Single blocks -/

variable {keywords : Keywords}

theorem readLines_preface (keywords : Keywords) (front preface : Text) (lines : List Text) :
    readLines keywords (front ++ preface) lines =
      { readLines keywords preface lines with
        preface := front ++ (readLines keywords preface lines).preface } := by
  induction lines generalizing preface with
  | nil => rfl
  | cons line lines ih =>
      rw [readLines, readLines, List.append_assoc]
      by_cases remark : isRemark line
      · rw [if_pos remark, if_pos remark, ih]
      · rw [if_neg remark, if_neg remark]
        dsimp only
        by_cases empty : (instructionOf (Text.splitComment (dropRemoteKeyword line)).1).isEmpty
        · rw [if_pos empty, if_pos empty, ih]
        · rw [if_neg empty, if_neg empty]

/-- Behind remarks a block is read as it is, but for the preface. -/
theorem Reading.ofBlock_remarks {gap block : Text} (isGap : IsGap gap) {r : Reading}
    (read : ofBlock keywords block = .ok r) :
    ofBlock keywords (gap ++ block) = .ok { r with preface := gap ++ r.preface } := by
  cases blank : block.isBlankText with
  | true =>
      rw [ofBlock_of_blank blank] at read
      cases read
  | false =>
      have filled : Text.isBlankText (gap ++ block) = false := by
        rw [Text.isBlankText_append, blank, Bool.and_false]
      have front := readLines_preface keywords gap [] (cutLines block)
      rw [List.append_nil] at front
      rw [ofBlock_eq keywords blank] at read
      cases read
      rw [ofBlock_eq keywords filled, isGap.cutLines_append, readLines_remarks keywords [] isGap.remarks,
        List.nil_append, flatten_cutLines, front]

/-- The preface has no part in what the instruction comes apart into. -/
theorem Reading.parts_preface (r : Reading) (preface : Text) :
    ({ r with preface } : Reading).parts = r.parts := by
  obtain ⟨_, remark, instruction, shape⟩ := r
  cases shape with
  | comment => rfl
  | definition => simp only [parts, definitionParts, fault]
  | command => simp only [parts, commandParts, fault]
  | call => simp only [parts, sides, fault]
  | assignment => simp only [parts, sides, fault]
  | function => simp only [parts, functionParts, fault]

/-- A block that is read has the same statement behind remarks. -/
theorem Statement.ofBlock_remarks {gap block : Text} (isGap : IsGap gap) {s : Statement}
    (read : ofBlock keywords block = .ok s) :
    ofBlock keywords (gap ++ block) =
      .ok { s with reading := { s.reading with preface := gap ++ s.reading.preface } } := by
  obtain ⟨r, found, rest⟩ := Outcome.bind_eq_ok_iff.mp read
  obtain ⟨parts, cut, same⟩ := Outcome.bind_eq_ok_iff.mp rest
  cases same
  refine Outcome.bind_eq_ok_iff.mpr ⟨_, Reading.ofBlock_remarks isGap found, ?_⟩
  rw [← r.parts_preface (gap ++ r.preface)] at cut
  exact Outcome.bind_eq_ok_iff.mpr ⟨parts, cut, rfl⟩

theorem meaningsOf_remarks {gap block : Text} (isGap : IsGap gap) {said : List Meaning}
    (read : meaningsOf keywords [block] = some said) : meaningsOf keywords [gap ++ block] = some said := by
  rw [meaningsOf] at read ⊢
  cases found : Statement.ofBlock keywords block with
  | error e =>
      rw [found] at read
      cases read
  | ok s =>
      rw [found] at read
      rw [Statement.ofBlock_remarks isGap found]
      exact read

/-- Remarks alone say nothing. -/
theorem meaningsOf_gap {gap blanks : Text} (isGap : IsGap gap) (blank : blanks.isBlankText)
    (filled : Text.isBlankText (gap ++ blanks) = false) : meaningsOf keywords [gap ++ blanks] = some [] := by
  have remarks : ∀ line ∈ cutLines (gap ++ blanks), isRemark line := by
    rw [isGap.cutLines_append]
    refine List.forall_mem_append.mpr ⟨isGap.remarks, fun line member => isRemark_of_isBlankText ?_⟩
    refine Text.isBlankText_of_subset (fun c inside => ?_) blank
    rw [← flatten_cutLines blanks]
    exact List.mem_flatten_of_mem member inside
  have read := ofBlock_eq keywords filled
  rw [← List.append_nil (cutLines _), readLines_remarks keywords [] remarks] at read
  exact (meaningsOf_of_reading read).1 rfl

/-! ### The blocks of a source -/

/-- Where a source starts does not matter to the texts of its blocks. -/
theorem texts_blocksFrom (offset : Nat) (lines : List Text) :
    (blocksFrom {} offset lines).map (·.text) = (blocksFrom {} 0 lines).map (·.text) := by
  have shifted := blocksFrom_shift offset {} 0 lines
  rw [Nat.add_zero] at shifted
  rw [show blocksFrom {} offset lines = _ from shifted, List.map_map]
  rfl

/-- Remarks in front of a source are collected as the preface of what comes next. -/
theorem blocksFrom_remarks {remarks : List Text} (each : ∀ line ∈ remarks, isRemark line)
    (pending : PendingBlock) (between : pending.statement = []) (offset : Nat) (lines : List Text) :
    ∃ start offset', blocksFrom pending offset (remarks ++ lines) =
      blocksFrom ⟨pending.preface ++ remarks.flatten, [], start⟩ offset' lines := by
  induction remarks generalizing pending offset with
  | nil =>
      obtain ⟨preface, statement, start⟩ := pending
      cases between
      exact ⟨start, offset, by rw [List.flatten_nil, List.append_nil]; rfl⟩
  | cons line remarks ih =>
      obtain ⟨here, each⟩ := List.forall_mem_cons.mp each
      have role : lineRole pending.statement line = .preface := lineRole_eq_preface_iff.mpr ⟨between, here⟩
      obtain ⟨start, offset', same⟩ := ih each
        { pending with preface := pending.preface ++ line, start := some (pending.start.getD offset) }
        between (offset + line.bytes)
      refine ⟨start, offset', ?_⟩
      rw [List.cons_append, blocksFrom, role, List.flatten_cons, ← List.append_assoc]
      exact same

/-- What the blocks say that are still to come does not change with remarks in the preface. -/
theorem meaningsOf_blocksFrom_remarks {gap : Text} (isGap : IsGap gap) {preface statement : Text}
    {start other : Option Nat} {offset : Nat} (offset' : Nat) {lines : List Text} {said : List Meaning}
    (read : meaningsOf keywords ((blocksFrom ⟨preface, statement, start⟩ offset lines).map (·.text)) =
      some said) :
    meaningsOf keywords ((blocksFrom ⟨gap ++ preface, statement, other⟩ offset' lines).map (·.text)) =
      some said := by
  induction lines generalizing preface statement start other offset offset' said with
  | nil =>
      rw [blocksFrom] at read ⊢
      dsimp only at read ⊢
      rw [List.append_assoc]
      cases blank : Text.isBlankText (preface ++ statement) with
      | true =>
          rw [blank, if_pos rfl] at read
          cases filled : Text.isBlankText (gap ++ (preface ++ statement)) with
          | true => exact read
          | false =>
              cases read
              exact meaningsOf_gap isGap blank filled
      | false =>
          rw [blank, if_neg Bool.false_ne_true] at read
          rw [Text.isBlankText_append, blank, Bool.and_false, if_neg Bool.false_ne_true]
          exact meaningsOf_remarks isGap read
  | cons line lines ih =>
      rw [blocksFrom] at read ⊢
      dsimp only at read ⊢
      cases role : lineRole statement line with
      | preface =>
          rw [role] at read
          dsimp only at read ⊢
          rw [List.append_assoc]
          exact ih _ read
      | continued code =>
          rw [role] at read
          exact ih _ read
      | complete =>
          rw [role] at read
          dsimp only at read ⊢
          rw [List.map_append, meaningsOf_append, texts_blocksFrom] at read ⊢
          obtain ⟨here, first, rest⟩ := Option.bind_eq_some_iff.mp read
          refine Option.bind_eq_some_iff.mpr ⟨here, ?_, rest⟩
          rw [completedBlocks] at first ⊢
          cases cut : splitStatements (statement ++ line) with
          | nil => exact absurd cut (splitStatements_ne_nil _)
          | cons piece pieces =>
              rw [cut] at first
              dsimp only at first ⊢
              rw [List.map_cons, List.map_map, ← List.singleton_append, meaningsOf_append] at first ⊢
              obtain ⟨one, head, others⟩ := Option.bind_eq_some_iff.mp first
              refine Option.bind_eq_some_iff.mpr ⟨one, ?_, others⟩
              rw [List.append_assoc]
              exact meaningsOf_remarks isGap head

/-- A source that is read means the same with blank and comment lines in front. -/
theorem parseScript_remarks {gap text : Text} (isGap : IsGap gap) {statements : List Statement}
    (parsed : parseScript keywords text = .ok statements) :
    ∃ others, parseScript keywords (gap ++ text) = .ok others ∧ meanings others = meanings statements := by
  have read : meaningsOf keywords ((blocksFrom {} 0 text.lines).map (·.text)) = some (meanings statements) := by
    have said : (parseScript keywords text).toOption.map meanings = _ := meanings_parseScript text
    rw [parsed] at said
    exact said.symm
  obtain ⟨start, offset, collected⟩ :=
    blocksFrom_remarks isGap.isRemark_of_mem_lines {} rfl 0 text.lines
  have whole : meaningsOf keywords ((logicalBlocks (gap ++ text)).map (·.text)) =
      some (meanings statements) := by
    rw [logicalBlocks, Text.lines_append isGap.ended, collected]
    rw [Text.flatten_lines, List.nil_append, ← List.append_nil gap]
    exact meaningsOf_blocksFrom_remarks isGap _ read
  rw [← meanings_parseScript] at whole
  cases found : parseScript keywords (gap ++ text) with
  | error errors =>
      rw [found] at whole
      cases whole
  | ok others =>
      rw [found] at whole
      exact ⟨others, rfl, Option.some.inj whole⟩

end MissionScript
