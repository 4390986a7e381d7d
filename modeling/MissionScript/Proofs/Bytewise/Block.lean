import MissionScript.Proofs.Bytewise.Slice
import MissionScript.Proofs.Script.Lines

/-!
# Blocks by offsets

A block is cut into lines by the bytes that encode it. A line end is one byte in UTF-8, and none of the bytes
of another character is one, so that a line that ends at such a byte ends between two characters. A line is cut
into statements behind the semicolons in front of its comment.
-/

namespace MissionScript

/-! ### Bytes -/

namespace Text

/-- The bytes of a text in UTF-8. -/
def encoded (text : Text) : List UInt8 := text.flatMap String.utf8EncodeChar

theorem encoded_cons (c : Char) (text : Text) : encoded (c :: text) = String.utf8EncodeChar c ++ text.encoded :=
  rfl

end Text

/-- The bytes of a character that ends no line end none. -/
theorem ends_no_line {c : Char} (other : isLineEnd c = false) :
    ∀ byte ∈ String.utf8EncodeChar c, byte ≠ 13 ∧ byte ≠ 10 := by
  have code : c.val.toNat ≠ 13 ∧ c.val.toNat ≠ 10 := by
    rw [isLineEnd, Bool.or_eq_false_iff, beq_eq_false_iff_ne, beq_eq_false_iff_ne] at other
    constructor <;> intro same
    · exact other.1 (Char.ext (UInt32.toNat_inj.mp same))
    · exact other.2 (Char.ext (UInt32.toNat_inj.mp same))
  have apart (n : Nat) (small : n < 256) (plain : n ≠ 13 ∧ n ≠ 10) : UInt8.ofNat n ≠ 13 ∧ UInt8.ofNat n ≠ 10 := by
    have value : (UInt8.ofNat n).toNat = n := by
      rw [UInt8.toNat_ofNat']
      exact Nat.mod_eq_of_lt small
    constructor <;> intro same <;> rw [same] at value <;> simp at value <;> omega
  rw [String.utf8EncodeChar]
  split
  · simp only [List.mem_singleton, forall_eq]
    exact apart _ (by omega) code
  split
  · simp only [List.mem_cons, List.not_mem_nil, or_false, forall_eq_or_imp, forall_eq]
    exact ⟨apart _ (by omega) (by omega), apart _ (by omega) (by omega)⟩
  split
  · simp only [List.mem_cons, List.not_mem_nil, or_false, forall_eq_or_imp, forall_eq]
    exact ⟨apart _ (by omega) (by omega), apart _ (by omega) (by omega), apart _ (by omega) (by omega)⟩
  · simp only [List.mem_cons, List.not_mem_nil, or_false, forall_eq_or_imp, forall_eq]
    exact ⟨apart _ (by omega) (by omega), apart _ (by omega) (by omega), apart _ (by omega) (by omega),
      apart _ (by omega) (by omega)⟩

theorem head?_encoded (text : Text) : text.encoded.head? = some 10 ↔ text.head? = some '\n' := by
  cases text with
  | nil => exact iff_of_false nofun nofun
  | cons c text =>
      have filled : String.utf8EncodeChar c ≠ [] := fun none => by
        have size := String.length_utf8EncodeChar c
        have := c.utf8Size_pos
        rw [none, List.length_nil] at size
        omega
      rw [Text.encoded_cons, List.head?_append_of_ne_nil _ filled, List.head?_cons, Option.some.injEq]
      cases ends : isLineEnd c with
      | false =>
          refine iff_of_false (fun first => ?_) fun same => ?_
          · exact (ends_no_line ends 10 (List.mem_of_head? first)).2 rfl
          · rw [same] at ends
            cases ends
      | true =>
          rw [isLineEnd, Bool.or_eq_true, beq_iff_eq, beq_iff_eq] at ends
          rcases ends with rfl | rfl
          · exact iff_of_false (by decide) (by decide)
          · exact iff_of_true rfl rfl

/-! ### Lines -/

theorem foldr_consToFirst_cons (piece line : Text) (lines : List Text) :
    piece.foldr consToFirst (line :: lines) = (piece ++ line) :: lines := by
  induction piece with
  | nil => rfl
  | cons c piece ih => rw [List.foldr_cons, ih, consToFirst, List.cons_append]

theorem foldr_consToFirst_nil {piece : Text} (filled : piece ≠ []) : piece.foldr consToFirst [] = [piece] := by
  cases piece using List.reverseRecOn with
  | nil => exact absurd rfl filled
  | append_singleton piece c =>
      rw [List.foldr_append, List.foldr_cons, List.foldr_nil, consToFirst, foldr_consToFirst_cons]

namespace Bytewise

variable {block done piece : Text}

/-- Cut a block into lines from the offset `start` on; the bytes that are left stand at `i`. -/
def cutLinesFrom (block : Text) (start i : Nat) : List UInt8 → Option (List Text)
  | [] => do
    if start < block.bytes || start == 0 then return [← block.slice? ⟨start, block.bytes⟩]
    else return []
  | byte :: bytes =>
    if byte == 13 && bytes.head? == some 10 then do
      let line ← block.slice? ⟨start, i + 2⟩
      return line :: (← cutLinesFrom block (i + 2) (i + 2) bytes.tail)
    else if byte == 13 || byte == 10 then do
      let line ← block.slice? ⟨start, i + 1⟩
      return line :: (← cutLinesFrom block (i + 1) (i + 1) bytes)
    else cutLinesFrom block start (i + 1) bytes
termination_by bytes => bytes.length
decreasing_by all_goals simp; try omega

/-- The raw lines of a block. -/
def blockLines (block : Text) : Option (List Text) := cutLinesFrom block 0 0 block.encoded

theorem cutLinesFrom_append {bytes : List UInt8} (plain : ∀ byte ∈ bytes, byte ≠ 13 ∧ byte ≠ 10)
    (start i : Nat) (rest : List UInt8) :
    cutLinesFrom block start i (bytes ++ rest) = cutLinesFrom block start (i + bytes.length) rest := by
  induction bytes generalizing i with
  | nil => rfl
  | cons byte bytes ih =>
      obtain ⟨⟨noReturn, noFeed⟩, below⟩ := List.forall_mem_cons.mp plain
      rw [List.cons_append, cutLinesFrom, beq_eq_false_iff_ne.mpr noReturn, beq_eq_false_iff_ne.mpr noFeed]
      simp only [Bool.false_and, Bool.or_self, Bool.false_eq_true, if_false]
      rw [ih below, List.length_cons, Nat.add_assoc, Nat.add_comm 1]

/-- A line that ends with `mark` is cut off. -/
theorem slice_line (done piece mark rest : Text) :
    Text.slice? (done ++ (piece ++ (mark ++ rest))) ⟨done.bytes, done.bytes + piece.bytes + mark.bytes⟩ =
      some (piece ++ mark) := by
  have cut := Text.slice?_append done (piece ++ mark) rest
  rwa [List.append_assoc, Text.bytes_append, ← Nat.add_assoc] at cut

/-- Cutting goes on from the piece that has been read of a line, behind the lines that have been cut off. -/
theorem cutLinesFrom_eq (filled : block ≠ []) (rest : Text) (whole : block = done ++ (piece ++ rest)) :
    cutLinesFrom block done.bytes (done.bytes + piece.bytes) rest.encoded =
      some (piece.foldr consToFirst (cutLines rest)) := by
  fun_induction cutLines rest generalizing done piece with
  | case1 =>
      rw [List.append_nil] at whole
      have last := Text.slice?_back done piece
      have size := congrArg Text.bytes whole
      rw [Text.bytes_append] at size
      rw [← whole] at last
      rw [Text.encoded, List.flatMap_nil, cutLinesFrom, last]
      by_cases more : piece = []
      · rw [more, List.append_nil] at whole
        have start := Text.bytes_pos (whole ▸ filled)
        rw [more, Text.bytes_nil] at size
        rw [if_neg (by simp; omega), more]
        rfl
      · have wide := Text.bytes_pos more
        rw [if_pos (by simp; omega), foldr_consToFirst_nil more]
        rfl
  | case2 rest ih =>
      have line := slice_line done piece ['\r', '\n'] rest
      have further := @ih (done ++ (piece ++ ['\r', '\n'])) [] (by simp [whole])
      rw [Text.bytes_append, Text.bytes_append, ← Nat.add_assoc, Text.bytes_nil, Nat.add_zero] at further
      have bytes : Text.encoded ('\r' :: '\n' :: rest) = 13 :: 10 :: Text.encoded rest := rfl
      rw [bytes, cutLinesFrom, List.tail_cons, foldr_consToFirst_cons]
      simp only [List.head?_cons, beq_self_eq_true, Bool.and_self, if_true]
      exact Option.bind_eq_some_iff.mpr ⟨_, whole ▸ line, Option.bind_eq_some_iff.mpr ⟨_, further, rfl⟩⟩
  | case3 c rest other ends ih =>
      have line := slice_line done piece [c] rest
      have further := @ih (done ++ (piece ++ [c])) [] (by simp [whole])
      rw [Text.bytes_append, Text.bytes_append, ← Nat.add_assoc, Text.bytes_nil, Nat.add_zero] at further
      have apart : (Text.encoded rest).head? = some 10 → c ≠ '\r' := fun feed same => by
        obtain ⟨behind, rfl⟩ := List.head?_eq_some_iff.mp ((head?_encoded rest).mp feed)
        exact other behind same rfl
      rw [foldr_consToFirst_cons]
      rw [Bool.or_eq_true, beq_iff_eq, beq_iff_eq] at ends
      rcases ends with rfl | rfl
      · have bytes : Text.encoded ('\r' :: rest) = 13 :: Text.encoded rest := rfl
        rw [bytes, cutLinesFrom, if_neg (by simpa using fun feed => apart feed rfl), if_pos (by rfl)]
        exact Option.bind_eq_some_iff.mpr ⟨_, whole ▸ line, Option.bind_eq_some_iff.mpr ⟨_, further, rfl⟩⟩
      · have bytes : Text.encoded ('\n' :: rest) = 10 :: Text.encoded rest := rfl
        rw [bytes, cutLinesFrom, if_neg (by simp), if_pos (by rfl)]
        exact Option.bind_eq_some_iff.mpr ⟨_, whole ▸ line, Option.bind_eq_some_iff.mpr ⟨_, further, rfl⟩⟩
  | case4 c rest other inside ih =>
      have longer := @ih done (piece ++ [c]) (by simp [whole])
      rw [List.foldr_append, Text.bytes_append, ← Nat.add_assoc, Text.bytes_cons, Text.bytes_nil, Nat.add_zero,
        ← String.length_utf8EncodeChar] at longer
      rw [Text.encoded_cons, cutLinesFrom_append (ends_no_line (Bool.eq_false_iff.mpr inside))]
      exact longer

theorem blockLines_eq (block : Text) : blockLines block = some (MissionScript.blockLines block) := by
  rw [blockLines]
  by_cases filled : block = []
  · rw [filled, Text.encoded, List.flatMap_nil, cutLinesFrom]
    rfl
  · have cut := @cutLinesFrom_eq block [] [] filled block rfl
    have lines : cutLines block ≠ [] := fun none => by
      have same := flatten_cutLines block
      rw [none] at same
      exact filled same.symm
    refine cut.trans ?_
    rw [List.foldr_nil, MissionScript.blockLines]
    cases cut : cutLines block with
    | nil => exact absurd cut lines
    | cons line others => rfl

/-! ### Comments -/

/-- Cut a line at its first `%` outside literals into its code and its comment. -/
def splitComment (line : Text) : Option (Text × Text) :=
  match line.free.find? (·.2 == '%') with
  | some (i, _) => do return (← line.slice? ⟨0, i⟩, ← line.slice? ⟨i, line.bytes⟩)
  | none => some (line, [])

theorem splitComment_eq (line : Text) : splitComment line = some (Text.splitComment line) := by
  have first := head?_placesOf (fun g => g.isFree && g.char == '%') 0 line.glyphs
  rw [← filter_placesOf Glyph.isFree (· == '%'), List.head?_filter, ← Text.free_eq] at first
  have whole := List.takeWhile_append_dropWhile (p := fun g : Glyph => !(g.isFree && g.char == '%'))
    (l := line.glyphs)
  have parts := congrArg Text.ofGlyphs whole
  rw [Text.ofGlyphs_append, Text.ofGlyphs_glyphs] at parts
  rw [splitComment, first, Text.splitComment]
  generalize line.glyphs.takeWhile _ = code at parts
  generalize line.glyphs.dropWhile _ = comment at parts
  have front := Text.slice?_front (Text.ofGlyphs code) (Text.ofGlyphs comment)
  have back := Text.slice?_back (Text.ofGlyphs code) (Text.ofGlyphs comment)
  have rest : line.drop code.length = Text.ofGlyphs comment := by
    rw [← parts, ← Text.length_ofGlyphs code, List.drop_left]
  rw [parts] at front back
  rw [rest]
  cases comment with
  | nil =>
      rw [show Text.ofGlyphs [] = [] from rfl, List.append_nil] at parts
      rw [parts]
      rfl
  | cons g comment =>
      simp only [List.head?_cons, Option.map_some, Nat.zero_add, front, back]
      rfl

/-! ### Statements on a line -/

/-- The semicolons outside literals, groups and the comment of a line. -/
def semicolons (line : Text) : List (Nat × Char) :=
  (topFrom 0 (line.free.takeWhile fun place => !place.2 == '%')).filter (·.2 == ';')

/-- The pieces that these semicolons end, from the offset `start` on, and what is left behind the last. -/
def cutBehind (text : Text) : (start : Nat) → List (Nat × Char) → Option (List Text × Text)
  | start, [] => do return ([], ← text.slice? ⟨start, text.bytes⟩)
  | start, (i, _) :: marks => do
    let piece ← text.slice? ⟨start, i + 1⟩
    let (pieces, last) ← cutBehind text (i + 1) marks
    return (piece :: pieces, last)

/-- The statements on a line. -/
def splitStatements (line : Text) : Option (List Text) := do
  let (pieces, last) ← cutBehind line 0 (semicolons line)
  match pieces.getLast? with
  | some final =>
    let (code, _) ← splitComment last
    return if code.isBlankText then pieces.dropLast ++ [final ++ last] else pieces ++ [last]
  | none => return [last]

theorem semicolons_eq (line : Text) :
    semicolons line = placesOf (fun g => g.isTop && g.char == ';') 0
      (line.glyphs.takeWhile fun g => !(g.isFree && g.char == '%')) := by
  have counted := (counted_glyphs line).takeWhile fun g => !(g.isFree && g.char == '%')
  rw [semicolons, Text.free_eq, takeWhile_placesOf Glyph.isFree (· == '%'), topFrom_placesOf counted,
    filter_placesOf Glyph.isTop (· == ';')]

theorem cutBehind_eq {text : Text} {done piece : List Glyph} (gs : List Glyph) (read : text.Read done piece gs) :
    cutBehind text (Text.ofGlyphs done).bytes
        (placesOf (fun g => g.isTop && g.char == ';') ((Text.ofGlyphs done).bytes + (Text.ofGlyphs piece).bytes)
          (gs.takeWhile fun g => !(g.isFree && g.char == '%'))) =
      some (cutAfterSemicolons (Text.ofGlyphs piece).reverse gs) := by
  induction gs generalizing done piece with
  | nil =>
      have last := read.slice_rest
      rw [List.append_nil] at last
      rw [List.takeWhile_nil, placesOf_nil, cutBehind, last, cutAfterSemicolons, List.reverse_reverse]
      rfl
  | cons g rest ih =>
      rw [List.takeWhile_cons, cutAfterSemicolons]
      cases comment : g.isFree && g.char == '%' with
      | true =>
          have last := read.slice_rest
          rw [Text.ofGlyphs_append] at last
          simp only [Bool.not_true, Bool.false_eq_true, if_false, if_true, placesOf_nil, cutBehind, last,
            List.reverse_reverse]
          rfl
      | false =>
          simp only [Bool.not_false, if_true, Bool.false_eq_true, if_false]
          rw [placesOf_cons]
          cases here : g.isTop && g.char == ';' with
          | true =>
              have narrow : g.char.utf8Size = 1 := by
                have char := beq_iff_eq.mp (Bool.and_eq_true_iff.mp here).2
                rw [char]
                rfl
              have slice := read.next.slice
              have further := ih read.next.cut
              rw [Text.bytes_ofGlyphs_concat, narrow, ← Nat.add_assoc] at slice
              rw [Text.bytes_ofGlyphs_cut, Text.bytes_ofGlyphs_nil, Nat.add_zero, narrow] at further
              rw [if_pos rfl, cutBehind, slice, narrow, further, Text.ofGlyphs_append]
              simp [Text.ofGlyphs]
          | false =>
              have further := ih read.next
              rw [Text.bytes_ofGlyphs_concat, ← Nat.add_assoc, Text.ofGlyphs_append, List.reverse_append] at further
              exact further

theorem splitStatements_eq (line : Text) :
    splitStatements line = some (MissionScript.splitStatements line) := by
  have cut : cutBehind line 0 (semicolons line) = some (cutAfterSemicolons [] line.glyphs) := by
    rw [semicolons_eq]
    exact cutBehind_eq line.glyphs (.start line)
  rw [splitStatements, MissionScript.splitStatements, cut]
  generalize cutAfterSemicolons [] line.glyphs = parts
  obtain ⟨pieces, last⟩ := parts
  dsimp only [Option.bind_eq_bind, Option.bind_some]
  cases pieces.getLast? with
  | none => rfl
  | some final =>
      dsimp only
      rw [splitComment_eq]
      dsimp only [Option.bind_some]
      split <;> rfl

/-! ### Logical blocks -/

/-- The role of a line after the continued lines `statement`. -/
def lineRole (statement line : Text) : Option LineRole :=
  if statement.isEmpty && isRemark line then some .preface
  else do
    let (code, _) ← splitComment line
    match continuationMark.before? code.trimEnd with
    | some code => return .continued code
    | none => return .complete

theorem lineRole_eq (statement line : Text) :
    lineRole statement line = some (MissionScript.lineRole statement line) := by
  rw [lineRole, MissionScript.lineRole, splitComment_eq]
  split
  · rfl
  · dsimp only [Option.bind_eq_bind, Option.bind_some]
    cases continuationMark.before? (Text.splitComment line).1.trimEnd <;> rfl

/-- The blocks of a line that completes a statement. -/
def completedBlocks (preface line : Text) (span : Span) : Option (List Block) := do
  match ← splitStatements line with
  | [] => return []
  | first :: others => return ⟨preface ++ first, span⟩ :: others.map (⟨·, span⟩)

theorem completedBlocks_eq (preface line : Text) (span : Span) :
    completedBlocks preface line span = some (MissionScript.completedBlocks preface line span) := by
  rw [completedBlocks, MissionScript.completedBlocks, splitStatements_eq]
  dsimp only [Option.bind_eq_bind, Option.bind_some]
  cases MissionScript.splitStatements line <;> rfl

/-- The blocks of the lines from byte `offset` on. -/
def blocksFrom (pending : PendingBlock) (offset : Nat) : List Text → Option (List Block)
  | [] =>
    let rest := pending.preface ++ pending.statement
    if rest.isBlankText then some [] else some [⟨rest, pending.start.getD offset, offset⟩]
  | line :: lines => do
    let start := pending.start.getD offset
    let next := offset + line.bytes
    match ← lineRole pending.statement line with
    | .preface =>
      let preface := pending.preface ++ line
      blocksFrom { pending with preface, start := some start } next lines
    | .continued code =>
      let statement := pending.statement ++ code ++ [' ']
      blocksFrom { pending with statement, start := some start } next lines
    | .complete =>
      let blocks ← completedBlocks pending.preface (pending.statement ++ line) ⟨start, next⟩
      return blocks ++ (← blocksFrom {} next lines)

theorem blocksFrom_eq (pending : PendingBlock) (offset : Nat) (lines : List Text) :
    blocksFrom pending offset lines = some (MissionScript.blocksFrom pending offset lines) := by
  induction lines generalizing pending offset with
  | nil =>
      rw [blocksFrom, MissionScript.blocksFrom]
      split <;> rfl
  | cons line lines ih =>
      rw [blocksFrom, MissionScript.blocksFrom, lineRole_eq]
      dsimp only [Option.bind_eq_bind, Option.bind_some]
      cases MissionScript.lineRole pending.statement line with
      | preface => exact ih _ _
      | continued code => exact ih _ _
      | complete =>
          dsimp only
          rw [completedBlocks_eq, ih]
          rfl

/-- The logical blocks of a source. -/
def logicalBlocks (source : Text) : Option (List Block) := blocksFrom {} 0 source.lines

theorem logicalBlocks_eq (source : Text) :
    logicalBlocks source = some (MissionScript.logicalBlocks source) :=
  blocksFrom_eq {} 0 source.lines

end Bytewise

end MissionScript
