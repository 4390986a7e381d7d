import MissionScript.Proofs.Script.Retention

/-!
# Spans

The blocks of a source tile it. Their spans follow each other without a gap, and the blocks that share a
span stand together. Where no line is continued, the texts of the blocks with one span are what stands in
the source at this span, and nothing but blanks stands behind the last of them.
-/

namespace MissionScript

/-! ### Slices -/

namespace Text

/-- Cut a text behind its first `n` bytes, if a character ends there. -/
def cutAtByte? : (n : Nat) → Text → Option (Text × Text)
  | 0, text => some ([], text)
  | _ + 1, [] => none
  | n + 1, c :: text =>
    if c.utf8Size ≤ n + 1 then
      (cutAtByte? (n + 1 - c.utf8Size) text).map fun (front, rest) => (c :: front, rest)
    else none

/-- What stands at a span. -/
def slice? (text : Text) (span : Span) : Option Text := do
  let (front, _) ← cutAtByte? span.stop text
  let (_, part) ← cutAtByte? span.start front
  return part

theorem cutAtByte?_append (front rest : Text) :
    cutAtByte? front.bytes (front ++ rest) = some (front, rest) := by
  induction front with
  | nil => rw [bytes_nil, cutAtByte?, List.nil_append]
  | cons c front ih =>
      have size := c.utf8Size_pos
      obtain ⟨n, same⟩ : ∃ n, bytes (c :: front) = n + 1 := ⟨c.utf8Size + bytes front - 1, by simp; omega⟩
      have left : n + 1 - c.utf8Size = bytes front := by rw [← same, bytes_cons]; omega
      rw [same, List.cons_append, cutAtByte?, if_pos (by rw [← same, bytes_cons]; omega), left, ih]
      rfl

theorem slice?_append (before part after : Text) :
    slice? (before ++ (part ++ after)) ⟨before.bytes, before.bytes + part.bytes⟩ = some part := by
  have stop := cutAtByte?_append (before ++ part) after
  rw [bytes_append, List.append_assoc] at stop
  rw [slice?, stop]
  exact congrArg (Option.bind · fun cut => some cut.2) (cutAtByte?_append before part)

theorem bytes_pos {text : Text} (filled : text ≠ []) : 0 < bytes text := by
  cases text with
  | nil => exact absurd rfl filled
  | cons c text =>
      have size := c.utf8Size_pos
      rw [bytes_cons]
      omega

end Text

/-! ### Blocks that tile -/

/-- The texts of the blocks with this span, put together. -/
def textAt (blocks : List Block) (span : Span) : Text :=
  (blocks.filter (·.span = span)).flatMap (·.text)

/-- Where the blocks end that start at byte `start`. -/
def endOf (start : Nat) (blocks : List Block) : Nat := (blocks.getLast?.map (·.span.stop)).getD start

/-- The blocks cover a source from byte `start` to byte `finish`, one span after the other, and each span
carries the text of its blocks. -/
inductive Tiled (carries : Span → Text → Prop) : (start : Nat) → List Block → (finish : Nat) → Prop
  | nil {start : Nat} : Tiled carries start [] start
  | line {start stop finish : Nat} {texts : List Text} {others : List Block} (filled : texts ≠ [])
      (forth : start < stop) (carried : carries ⟨start, stop⟩ texts.flatten)
      (rest : Tiled carries stop others finish) :
      Tiled carries start (texts.map (⟨·, ⟨start, stop⟩⟩) ++ others) finish

namespace Tiled

variable {carries : Span → Text → Prop} {start finish : Nat} {blocks : List Block}

theorem start_of_head? (tiled : Tiled carries start blocks finish) :
    ∀ b ∈ blocks.head?, b.span.start = start := by
  cases tiled with
  | nil => exact fun b none => nomatch none
  | line filled _ _ _ =>
      intro b first
      rw [List.head?_append_of_ne_nil _ (by simpa using filled), List.head?_map] at first
      obtain ⟨_, -, rfl⟩ := Option.map_eq_some_iff.mp first
      rfl

theorem isChain (tiled : Tiled carries start blocks finish) :
    blocks.IsChain fun a b => b.span = a.span ∨ b.span.start = a.span.stop := by
  induction tiled with
  | nil => exact .nil
  | line _ _ _ rest ih =>
      refine List.isChain_append.mpr ⟨?_, ih, fun a last b first => .inr ?_⟩
      · exact (List.pairwise_map.mpr (List.pairwise_of_forall fun _ _ => .inl rfl)).isChain
      · rw [rest.start_of_head? b first]
        rw [List.getLast?_map] at last
        obtain ⟨_, -, rfl⟩ := Option.map_eq_some_iff.mp last
        rfl

theorem le_start (tiled : Tiled carries start blocks finish) : ∀ b ∈ blocks, start ≤ b.span.start := by
  induction tiled with
  | nil => exact List.forall_mem_nil _
  | line _ forth _ _ ih =>
      intro b member
      rcases List.mem_append.mp member with member | member
      · obtain ⟨_, -, rfl⟩ := List.mem_map.mp member
        exact Nat.le_refl _
      · exact Nat.le_of_lt (Nat.lt_of_lt_of_le forth (ih b member))

/-- Every span carries the text of its blocks. -/
theorem carries_textAt (tiled : Tiled carries start blocks finish) :
    ∀ b ∈ blocks, carries b.span (textAt blocks b.span) := by
  induction tiled with
  | nil => exact List.forall_mem_nil _
  | @line start stop finish texts others _ forth carried rest ih =>
      have whole (span : Span) : textAt (texts.map (⟨·, ⟨start, stop⟩⟩) ++ others) span =
          textAt (texts.map (⟨·, ⟨start, stop⟩⟩)) span ++ textAt others span := by
        rw [textAt, List.filter_append, List.flatMap_append]
        rfl
      intro b member
      rw [whole]
      rcases List.mem_append.mp member with member | member
      · obtain ⟨_, -, rfl⟩ := List.mem_map.mp member
        have here : textAt (texts.map (⟨·, ⟨start, stop⟩⟩)) ⟨start, stop⟩ = texts.flatten := by
          rw [textAt, List.filter_eq_self.mpr (by simp), List.flatMap_map, List.flatMap_id']
        have none : textAt others ⟨start, stop⟩ = [] := by
          rw [textAt, List.filter_eq_nil_iff.mpr, List.flatMap_nil]
          intro b member same
          have behind := rest.le_start b member
          rw [of_decide_eq_true same] at behind
          exact absurd behind (Nat.not_le_of_lt forth)
        dsimp only
        rw [here, none, List.append_nil]
        exact carried
      · have none : textAt (texts.map (⟨·, ⟨start, stop⟩⟩)) b.span = [] := by
          rw [textAt, List.filter_eq_nil_iff.mpr, List.flatMap_nil]
          intro a member' same
          obtain ⟨_, -, rfl⟩ := List.mem_map.mp member'
          have behind := rest.le_start b member
          rw [← of_decide_eq_true same] at behind
          exact absurd behind (Nat.not_le_of_lt forth)
        rw [none, List.nil_append]
        exact ih b member

theorem endOf_eq (tiled : Tiled carries start blocks finish) : endOf start blocks = finish := by
  induction tiled with
  | nil => rfl
  | @line start stop finish texts others filled _ _ _ ih =>
      cases others with
      | nil =>
          rw [List.append_nil, endOf, List.getLast?_map]
          cases last : texts.getLast? with
          | none => exact absurd (List.getLast?_eq_none_iff.mp last) filled
          | some text => exact ih
      | cons b others =>
          rw [endOf, List.getLast?_append_of_ne_nil _ (List.cons_ne_nil b others)]
          rw [endOf, List.getLast?_eq_some_getLast (List.cons_ne_nil b others)] at ih
          rw [List.getLast?_eq_some_getLast (List.cons_ne_nil b others)]
          exact ih

end Tiled

/-! ### The blocks of a source -/

theorem flatten_splitStatements (line : Text) : (splitStatements line).flatten = line := by
  have whole := flatten_cutAfterSemicolons [] line.glyphs
  rw [Text.ofGlyphs_glyphs, List.reverse_nil, List.nil_append] at whole
  unfold splitStatements
  cases cut : cutAfterSemicolons [] line.glyphs with
  | mk pieces last =>
      rw [cut] at whole
      dsimp only
      cases final : pieces.getLast? with
      | none =>
          rw [List.getLast?_eq_none_iff.mp final] at whole
          rw [List.flatten_singleton]
          exact whole
      | some piece =>
          obtain ⟨front, rfl⟩ := List.getLast?_eq_some_iff.mp final
          dsimp only
          split
          · rw [List.dropLast_concat]
            simpa using whole
          · simpa using whole

theorem splitStatements_ne_nil (line : Text) : splitStatements line ≠ [] := by
  unfold splitStatements
  dsimp only
  split
  · split <;> simp
  · simp

theorem exists_completedBlocks (preface line : Text) (span : Span) :
    ∃ texts : List Text, texts ≠ [] ∧ texts.flatten = preface ++ line ∧
      completedBlocks preface line span = texts.map (⟨·, span⟩) := by
  have whole := flatten_splitStatements line
  rw [completedBlocks]
  cases cut : splitStatements line with
  | nil => exact absurd cut (splitStatements_ne_nil line)
  | cons first others =>
      rw [cut, List.flatten_cons] at whole
      refine ⟨(preface ++ first) :: others, List.cons_ne_nil _ _, ?_, rfl⟩
      rw [List.flatten_cons, List.append_assoc, whole]

/-- No line of the source is continued. -/
def IsPlain (source : Text) : Prop := ∀ line ∈ source.lines, continues line = false

instance (source : Text) : Decidable (IsPlain source) :=
  inferInstanceAs (Decidable (∀ line ∈ source.lines, continues line = false))

/-- What has been read of the block to come when the source goes on with `lines` at byte `offset`. -/
structure PendingBlock.At (pending : PendingBlock) (source : Text) (offset : Nat) (lines : List Text) :
    Prop where
  fresh : pending.start = none → pending = {}
  begun : ∀ start ∈ pending.start, start < offset
  /-- Without continued lines, the preface is what stands in the source. -/
  text : IsPlain source → pending.statement = [] ∧ ∃ done : Text,
    source = done ++ (pending.preface ++ lines.flatten) ∧ done.bytes = pending.start.getD offset ∧
      done.bytes + pending.preface.bytes = offset

namespace PendingBlock.At

variable {pending : PendingBlock} {source line : Text} {offset : Nat} {lines : List Text}

theorem start_le (placed : pending.At source offset lines) : pending.start.getD offset ≤ offset := by
  cases some : pending.start with
  | none => exact Nat.le_refl _
  | some start => exact Nat.le_of_lt (placed.begun start some)

theorem start_lt (placed : pending.At source offset (line :: lines)) (filled : line ≠ []) :
    pending.start.getD offset < offset + line.bytes := by
  have := placed.start_le
  have := Text.bytes_pos filled
  omega

/-- A remark joins the preface. -/
theorem preface (placed : pending.At source offset (line :: lines)) (filled : line ≠ []) :
    At { pending with preface := pending.preface ++ line, start := some (pending.start.getD offset) }
      source (offset + line.bytes) lines where
  fresh := nofun
  begun _ some := Option.some.inj some ▸ placed.start_lt filled
  text plain := by
    obtain ⟨none, done, whole, start, read⟩ := placed.text plain
    refine ⟨none, done, ?_, start, ?_⟩
    · rw [whole, List.flatten_cons, List.append_assoc]
    · rw [Text.bytes_append, ← Nat.add_assoc, read]

/-- A continued line joins the statement. -/
theorem continued (placed : pending.At source offset (line :: lines)) (filled : line ≠ [])
    (mixed : ¬IsPlain source) (statement : Text) :
    At { pending with statement, start := some (pending.start.getD offset) }
      source (offset + line.bytes) lines where
  fresh := nofun
  begun _ some := Option.some.inj some ▸ placed.start_lt filled
  text plain := absurd plain mixed

/-- Behind a statement nothing is pending. -/
theorem complete (placed : pending.At source offset (line :: lines)) :
    At {} source (offset + line.bytes) lines where
  fresh _ := rfl
  begun := nofun
  text plain := by
    obtain ⟨-, done, whole, -, read⟩ := placed.text plain
    refine ⟨rfl, done ++ (pending.preface ++ line), ?_, ?_, ?_⟩
    · rw [whole, List.flatten_cons]
      simp only [List.append_assoc, List.nil_append]
    · rw [Text.bytes_append, Text.bytes_append, ← Nat.add_assoc, read]
      rfl
    · rw [Text.bytes_append, Text.bytes_append, Text.bytes_nil, ← Nat.add_assoc, read, Nat.add_zero]

/-- The text of a completed statement with its preface stands at its span. -/
theorem slice? (placed : pending.At source offset (line :: lines)) (plain : IsPlain source) :
    source.slice? ⟨pending.start.getD offset, offset + line.bytes⟩ =
      some (pending.preface ++ (pending.statement ++ line)) := by
  obtain ⟨none, done, whole, start, read⟩ := placed.text plain
  have stop : offset + line.bytes = done.bytes + (pending.preface ++ line).bytes := by
    rw [Text.bytes_append, ← Nat.add_assoc, read]
  rw [none, List.nil_append, ← start, stop, whole, List.flatten_cons, ← List.append_assoc pending.preface]
  exact Text.slice?_append ..

end PendingBlock.At

/-- The blocks of the lines that are left cover the source from the start of the pending block on, and
where no line is continued only blanks stand behind them. -/
theorem tiled_blocksFrom {source : Text} {lines : List Text} (filled : ∀ line ∈ lines, line ≠ [])
    (within : lines ⊆ source.lines) {pending : PendingBlock} {offset : Nat}
    (placed : pending.At source offset lines) :
    ∃ finish,
      Tiled (fun span text => IsPlain source → source.slice? span = some text)
        (pending.start.getD offset) (blocksFrom pending offset lines) finish ∧
      (IsPlain source → ∃ done rest : Text,
        source = done ++ rest ∧ done.bytes = finish ∧ rest.isBlankText) := by
  induction lines generalizing pending offset with
  | nil =>
      rw [blocksFrom]
      split
      · rename_i blank
        refine ⟨_, .nil, fun plain => ?_⟩
        obtain ⟨none, done, whole, start, -⟩ := placed.text plain
        rw [none, List.append_nil] at blank
        exact ⟨done, pending.preface, by simpa using whole, start, blank⟩
      · rename_i unread
        have begun : pending.start.getD offset < offset := by
          cases some : pending.start with
          | none =>
              rw [placed.fresh some] at unread
              exact absurd rfl unread
          | some start => exact placed.begun start some
        refine ⟨offset, .line (List.cons_ne_nil _ []) begun (fun plain => ?_) .nil, fun plain => ?_⟩
        all_goals obtain ⟨none, done, whole, start, read⟩ := placed.text plain
        · have stood := Text.slice?_append done pending.preface []
          rw [read, start] at stood
          rwa [none, List.append_nil, List.flatten_singleton, whole]
        · refine ⟨source, [], (List.append_nil _).symm, ?_, rfl⟩
          rw [whole, List.flatten_nil, List.append_nil, Text.bytes_append, read]
  | cons line lines ih =>
      obtain ⟨here, below⟩ := List.forall_mem_cons.mp filled
      obtain ⟨member, within⟩ := List.cons_subset.mp within
      rw [blocksFrom]
      cases role : lineRole pending.statement line with
      | preface => exact ih below within (placed.preface here)
      | continued code =>
          have mixed : ¬IsPlain source := by
            intro plain
            have unmarked := plain line member
            rw [continues_of_lineRole role] at unmarked
            cases unmarked
          exact ih below within (placed.continued here mixed _)
      | complete =>
          obtain ⟨finish, rest, blank⟩ := ih below within placed.complete
          obtain ⟨texts, some, whole, blocks⟩ := exists_completedBlocks pending.preface
            (pending.statement ++ line) ⟨pending.start.getD offset, offset + line.bytes⟩
          refine ⟨finish, ?_, blank⟩
          dsimp only
          rw [blocks]
          exact .line some (placed.start_lt here) (fun plain => whole ▸ placed.slice? plain) rest

/-- The spans of the blocks of a source follow each other without a gap from its start on. If no line is
continued, the blocks with one span have the text that stands there, and only blanks follow the last
of them. -/
theorem logicalBlocks_tile (source : Text) :
    (∀ b ∈ (logicalBlocks source).head?, b.span.start = 0) ∧
      ((logicalBlocks source).IsChain fun a b => b.span = a.span ∨ b.span.start = a.span.stop) ∧
      (IsPlain source →
        (∀ b ∈ logicalBlocks source,
          source.slice? b.span = some (textAt (logicalBlocks source) b.span)) ∧
        ∃ rest, source.slice? ⟨endOf 0 (logicalBlocks source), source.bytes⟩ = some rest ∧
          rest.isBlankText) := by
  have start : PendingBlock.At {} source 0 source.lines := by
    refine ⟨fun _ => rfl, nofun, fun _ => ⟨rfl, [], ?_, rfl, rfl⟩⟩
    exact (Text.flatten_lines source).symm
  obtain ⟨finish, tiled, blank⟩ :=
    tiled_blocksFrom (fun line member => ((areLines_lines source).each line member).1)
      (List.Subset.refl _) start
  refine ⟨tiled.start_of_head?, tiled.isChain, fun plain => ⟨fun b member => ?_, ?_⟩⟩
  · exact tiled.carries_textAt b member plain
  · obtain ⟨done, rest, whole, covered, none⟩ := blank plain
    refine ⟨rest, ?_, none⟩
    have stood := Text.slice?_append done rest []
    rw [List.append_nil, ← whole, ← Text.bytes_append, ← whole, covered, ← tiled.endOf_eq] at stood
    exact stood

/-- Two statements on a line with a preface, behind characters of more than one byte. -/
theorem logicalBlocks_tile_semicolon :
    IsPlain "% é\n\nx = 1; y = 2 % €\nz = 3\n \n".toList ∧
      ∀ b ∈ logicalBlocks "% é\n\nx = 1; y = 2 % €\nz = 3\n \n".toList,
        Text.slice? "% é\n\nx = 1; y = 2 % €\nz = 3\n \n".toList b.span =
          some (textAt (logicalBlocks "% é\n\nx = 1; y = 2 % €\nz = 3\n \n".toList) b.span) := by
  have plain : IsPlain "% é\n\nx = 1; y = 2 % €\nz = 3\n \n".toList := by decide +kernel
  exact ⟨plain, ((logicalBlocks_tile _).2.2 plain).1⟩

end MissionScript
