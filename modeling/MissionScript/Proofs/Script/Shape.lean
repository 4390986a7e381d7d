import MissionScript.Proofs.Command.Described

/-!
# Shapes and parts

The shape of an instruction promises what its parts are. An instruction that has been given a shape comes
apart in the way of this shape, or it fails for a reason of its own: its keyword is always there.
-/

namespace MissionScript

/-! ### Assignment signs -/

namespace Text

/-- The characters outside literals. -/
def freeChars (glyphs : List Glyph) : Text := ofGlyphs (glyphs.filter (·.isFree))

theorem freeChars_cons (g : Glyph) (rest : List Glyph) :
    freeChars (g :: rest) = if g.isFree then g.char :: freeChars rest else freeChars rest := by
  rw [freeChars, List.filter_cons]
  split <;> rfl

end Text

/-- An assignment sign is a `=` outside groups and literals that is no part of a relation. Literals do not
separate it from what stands around it. `lead` is what stands outside literals in front of it. -/
structure IsAssignmentSign (lead : Text) (sign : Glyph) (after : List Glyph) : Prop where
  top : sign.isTop
  equals : sign.char = '='
  previous : ∀ c ∈ lead.getLast?, c ∉ "=<>~!".toList
  next : (Text.freeChars after).head? ≠ some '='

/-- An assignment sign stands in the text. -/
def HasAssignment (text : Text) : Prop :=
  ∃ before sign after, text.glyphs = before ++ sign :: after ∧
    IsAssignmentSign (Text.freeChars before) sign after

theorem find?_isFree (glyphs : List Glyph) :
    (glyphs.find? Glyph.isFree).map (·.char) = (Text.freeChars glyphs).head? := by
  rw [Text.freeChars, Text.ofGlyphs, List.head?_map, List.head?_filter]

theorem isAssignmentSign_iff {lead : Text} {g : Glyph} {rest : List Glyph} :
    IsAssignmentSign lead g rest ↔
      (g.isTop && g.char == '=' && !lead.getLast?.any "=<>~!".toList.contains &&
        (rest.find? Glyph.isFree).map (·.char) != some '=') = true := by
  rw [find?_isFree]
  simp only [Bool.and_eq_true, beq_iff_eq, bne_iff_ne, Bool.not_eq_true', Option.any_eq_false,
    List.contains_eq_mem, decide_eq_false_iff_not]
  constructor
  · rintro ⟨top, equals, previous, next⟩
    exact ⟨⟨⟨top, equals⟩, previous⟩, next⟩
  · rintro ⟨⟨⟨top, equals⟩, previous⟩, next⟩
    exact ⟨top, equals, previous, next⟩

theorem splitAssignmentFrom_eq_none_iff {lead : Text} {glyphs : List Glyph} :
    splitAssignmentFrom lead.getLast? glyphs = none ↔
      ∀ before sign after, glyphs = before ++ sign :: after →
        ¬IsAssignmentSign (lead ++ Text.freeChars before) sign after := by
  induction glyphs generalizing lead with
  | nil => simp [splitAssignmentFrom]
  | cons g rest ih =>
      have previous : (if g.isFree then some g.char else lead.getLast?) =
          (lead ++ if g.isFree then [g.char] else []).getLast? := by
        split
        · rw [List.getLast?_concat]
        · rw [List.append_nil]
      have further (before : List Glyph) : lead ++ Text.freeChars (g :: before) =
          (lead ++ if g.isFree then [g.char] else []) ++ Text.freeChars before := by
        rw [Text.freeChars_cons]
        split <;> simp
      rw [splitAssignmentFrom]
      dsimp only
      by_cases sign : IsAssignmentSign lead g rest
      · rw [if_pos (isAssignmentSign_iff.mp sign)]
        refine iff_of_false (Option.some_ne_none _) fun absent => ?_
        exact absent [] g rest rfl (by rwa [Text.freeChars, List.filter_nil, Text.ofGlyphs,
          List.map_nil, List.append_nil])
      · rw [if_neg (mt isAssignmentSign_iff.mpr sign), Option.map_eq_none_iff, previous, ih]
        constructor
        · intro absent before other after split
          cases before with
          | nil =>
              cases split
              rwa [Text.freeChars, List.filter_nil, Text.ofGlyphs, List.map_nil, List.append_nil]
          | cons h before =>
              cases split
              rw [further]
              exact absent before other after rfl
        · intro absent before other after split
          rw [← further]
          exact absent (g :: before) other after (by rw [split]; rfl)

theorem splitAssignment_eq_none_iff {text : Text} :
    splitAssignment text = none ↔ ¬HasAssignment text := by
  rw [splitAssignment, Option.map_eq_none_iff,
    show (none : Option Char) = ([] : Text).getLast? from rfl, splitAssignmentFrom_eq_none_iff]
  constructor
  · rintro absent ⟨before, sign, after, split, is⟩
    exact absent before sign after split is
  · intro absent before sign after split is
    exact absent ⟨before, sign, after, split, is⟩

/-! ### Texts without blanks around them -/

namespace Text

/-- The text, which may be empty, neither starts nor ends with a blank. -/
structure Unpadded (text : Text) : Prop where
  first : ∀ c ∈ text.head?, isBlank c = false
  last : ∀ c ∈ text.getLast?, isBlank c = false

theorem unpadded_trim (text : Text) : text.trim.Unpadded where
  first := by
    intro c first
    have leads : text.trim <+: text.trimStart := dropEndWhile_prefix _ _
    rw [Text.head?_of_prefix leads (by rintro none; rw [none] at first; cases first)] at first
    exact head?_dropWhile c first
  last := getLast?_dropEndWhile

theorem unpadded_of_filled {word : Text} (letters : ∀ c ∈ word, isBlank c = false) : word.Unpadded where
  first c first := letters c (List.mem_of_head? first)
  last c last := letters c (List.mem_of_getLast? last)

theorem unpadded_of_word {word : Text} (letters : word.all isWordChar) : word.Unpadded :=
  unpadded_of_filled fun c member => isBlank_of_isWordChar (List.all_eq_true.mp letters c member)

theorem unpadded_nil : Unpadded [] := ⟨nofun, nofun⟩

end Text

/-! ### Words in front -/

/-- What stands in front of an instruction when it is a definition. -/
theorem create_of_shapeOf {keywords : Keywords} {instruction : Text}
    (shape : shapeOf keywords instruction = .definition) :
    ∃ rest, instruction = createKeyword ++ rest ∧ rest.head?.all isBlank := by
  unfold shapeOf at shape
  dsimp only at shape
  split at shape
  · cases shape
  split at shape
  · rename_i create
    rw [Bool.and_eq_true, beq_iff_eq] at create
    obtain ⟨word, blank⟩ := create
    refine ⟨instruction.dropWhile isWordChar, ?_, ?_⟩
    · rw [← word, List.takeWhile_append_dropWhile]
    · rwa [← Text.drop_takeWhile, List.head?_drop]
  split at shape
  · cases shape
  · split at shape
    · split at shape <;> cases shape
    · split at shape <;> cases shape

/-! ### What the parts are -/

/-- The chunks are those of the shape. -/
def Reading.Documented (keywords : Keywords) (r : Reading) (chunks : List Text) : Prop :=
  match r.shape with
  | .comment => chunks = []
  | .definition => ∃ objectType names, chunks = [createKeyword, objectType, names] ∧
      objectType ≠ [] ∧ names ≠ []
  | .command => ∃ keyword, keywords.contains keyword ∧
      (chunks = [keyword] ∨ ∃ arguments, chunks = [keyword, arguments] ∧ arguments ≠ [])
  | .call => ∃ outputs signature, chunks = [outputs, signature] ∧ signature ≠ [] ∧
      (outputs = [] ↔ ¬HasAssignment r.instruction)
  | .assignment => ∃ target value, chunks = [target, value] ∧ target ≠ [] ∧ value ≠ []
  | .function => ∃ outputs name inputs, chunks = [functionKeyword, outputs, name, inputs] ∧ name ≠ []

/-- The parts have the property, or there are none although the keyword is there. -/
def Promised (p : Parts → Prop) : Except ParseError Parts → Prop
  | .ok parts => p parts
  | .error e => e.cause ≠ .createKeywordMissing ∧ e.cause ≠ .commandNameMissing

theorem Promised.imp {p q : Parts → Prop} {x : Except ParseError Parts} (promised : Promised p x)
    (weaker : ∀ parts, p parts → q parts) : Promised q x := by
  cases x with
  | error e => exact promised
  | ok parts => exact weaker parts promised

namespace Reading

variable {r : Reading}

/-- Both sides of a sign are there. -/
theorem sides_promised (make : Text → Text → Parts) (left right : Text) :
    Promised (fun parts => ∃ l r : Text, parts = make l r ∧ l ≠ [] ∧ r ≠ [] ∧ l.Unpadded ∧ r.Unpadded)
      (r.sides make left right) := by
  cases cut : r.sides make left right with
  | ok parts =>
      obtain ⟨filledLeft, filledRight, rfl⟩ := sides_eq_ok_iff.mp cut
      exact ⟨_, _, rfl, filledLeft, filledRight, Text.unpadded_trim _, Text.unpadded_trim _⟩
  | error e =>
      unfold sides at cut
      split at cut
      · cases cut
        exact ⟨nofun, nofun⟩
      split at cut
      · cases cut
        exact ⟨nofun, nofun⟩
      · cases cut

theorem definitionParts_promised {keywords : Keywords}
    (shape : shapeOf keywords r.instruction = .definition) :
    Promised (fun parts => ∃ objectType names : Text, parts = .definition objectType names ∧
      objectType ≠ [] ∧ names ≠ [] ∧ objectType.Unpadded ∧ names.Unpadded) r.definitionParts := by
  obtain ⟨rest, whole, blank⟩ := create_of_shapeOf shape
  unfold definitionParts
  rw [Text.after?_eq_some_iff.mpr whole]
  dsimp only
  rw [blank, if_neg (by simp)]
  split
  · exact ⟨nofun, nofun⟩
  rename_i filledType
  split
  · exact ⟨nofun, nofun⟩
  rename_i filledNames
  refine ⟨_, _, rfl, mt List.isEmpty_iff.mpr filledType, mt List.isEmpty_iff.mpr filledNames, ?_,
    Text.unpadded_trim _⟩
  apply Text.unpadded_of_filled
  intro c member
  have kept := List.all_eq_true.mp List.all_takeWhile c member
  rwa [Bool.not_eq_true'] at kept

theorem commandParts_promised {keywords : Keywords} (trimmed : r.instruction.Trimmed)
    (named : keywords.contains [] = false) (shape : shapeOf keywords r.instruction = .command) :
    Promised (fun parts => ∃ (keyword : Text) (arguments : Option Text),
      parts = .command keyword arguments ∧ keywords.contains keyword ∧ keyword.Unpadded ∧
        ∀ a ∈ arguments, a ≠ [] ∧ a.Unpadded) r.commandParts := by
  obtain ⟨word, known⟩ := Text.keywordPart_of_shape trimmed shape
  have filled : r.instruction.keywordPart ≠ [] := by
    intro empty
    rw [empty, named] at known
    cases known
  rw [commandParts_eq filled]
  refine ⟨_, _, rfl, known, ?_, fun a given => ?_⟩
  · rw [word]
    exact Text.unpadded_of_word List.all_takeWhile
  · split at given
    · cases given
    · rename_i some
      cases given
      exact ⟨mt List.isEmpty_iff.mpr some, Text.unpadded_trim _⟩

theorem cause_of_nestingFault {opened : List Bracket} {glyphs : List Glyph} {cause : ParseCause}
    (fault : nestingFault opened glyphs = some cause) :
    cause = .unmatchedBracket ∨ cause = .unbalancedBracket := by
  fun_induction nestingFault opened glyphs with
  | case1 => cases fault
  | case2 => exact .inl (Option.some.inj fault).symm
  | case3 _ _ _ _ ih => exact ih fault
  | case4 _ _ _ _ _ _ ih => exact ih fault
  | case5 _ _ _ _ _ _ ih => exact ih fault
  | case6 => exact .inr (Option.some.inj fault).symm
  | case7 _ _ _ _ _ _ _ ih => exact ih fault
  | case8 => exact .inr (Option.some.inj fault).symm

theorem cause_of_checkBalance {text : Text} {e : ParseError} (unbalanced : checkBalance text = .error e) :
    e.cause ≠ .createKeywordMissing ∧ e.cause ≠ .commandNameMissing := by
  unfold checkBalance at unbalanced
  split at unbalanced
  · cases unbalanced
  · rename_i cause fault
    cases unbalanced
    rcases cause_of_nestingFault fault with rfl | rfl
    · exact ⟨nofun, nofun⟩
    · exact ⟨nofun, nofun⟩

/-- The function has a name, and its parts have been trimmed. -/
theorem function_promised {outputs name : Text} (unpadded : outputs.Unpadded)
    (filled : ¬(Text.trim name).isEmpty) (inputs : Text) :
    Promised (fun parts => ∃ outputs name inputs : Text, parts = .function outputs name inputs ∧
      name ≠ [] ∧ outputs.Unpadded ∧ name.Unpadded ∧ inputs.Unpadded)
      (.ok (.function outputs name.trim inputs.trim)) :=
  ⟨_, _, _, rfl, mt List.isEmpty_iff.mpr filled, unpadded, Text.unpadded_trim _, Text.unpadded_trim _⟩

theorem functionParts_promised :
    Promised (fun parts => ∃ outputs name inputs : Text, parts = .function outputs name inputs ∧
      name ≠ [] ∧ outputs.Unpadded ∧ name.Unpadded ∧ inputs.Unpadded) r.functionParts := by
  unfold functionParts
  extract_lets rest
  cases splitAssignment rest with
  | none =>
      dsimp only
      rw [if_neg (by simp)]
      repeat' split
      all_goals first
        | exact function_promised Text.unpadded_nil ‹_› _
        | exact ⟨nofun, nofun⟩
  | some cut =>
      obtain ⟨left, right⟩ := cut
      dsimp only
      split
      · split
        · rename_i e unbalanced
          have cause := cause_of_checkBalance unbalanced
          exact cause
        · repeat' split
          all_goals first
            | exact function_promised (Text.unpadded_trim left) ‹_› _
            | exact ⟨nofun, nofun⟩
      · repeat' split
        all_goals first
          | exact function_promised (Text.unpadded_trim left) ‹_› _
          | exact ⟨nofun, nofun⟩

/-! ### Blocks that are read -/

/-- What a block is read as. -/
theorem shape_of_ofBlock {keywords : Keywords} {block : Text} (read : ofBlock keywords block = .ok r) :
    r.shape = .comment ∨
      IsInstruction r.instruction ∧ r.shape = shapeOf keywords r.instruction := by
  rw [ofBlock] at read
  split at read
  · cases read
  · cases read
    exact readLines_shape keywords [] endsOnce_of_mem_blockLines

theorem parts_promised {keywords : Keywords} (named : keywords.contains [] = false)
    (proper : IsInstruction r.instruction) (shape : r.shape = shapeOf keywords r.instruction) :
    Promised (fun parts => r.Documented keywords parts.chunks ∧ ∀ chunk ∈ parts.chunks, chunk.Unpadded)
      r.parts := by
  have word : Text.Unpadded createKeyword ∧ Text.Unpadded functionKeyword :=
    ⟨Text.unpadded_of_word (by decide), Text.unpadded_of_word (by decide)⟩
  rw [parts]
  unfold Documented
  cases kind : r.shape with
  | comment => exact ⟨rfl, List.forall_mem_nil _⟩
  | definition =>
      refine (definitionParts_promised (shape.symm.trans kind)).imp ?_
      rintro _ ⟨objectType, names, rfl, filledType, filledNames, unpadded⟩
      refine ⟨⟨objectType, names, rfl, filledType, filledNames⟩, ?_⟩
      simpa [Parts.chunks] using ⟨word.1, unpadded⟩
  | command =>
      refine (commandParts_promised proper.toTrimmed named (shape.symm.trans kind)).imp ?_
      rintro _ ⟨keyword, arguments, rfl, known, unpadded, given⟩
      cases arguments with
      | none => exact ⟨⟨keyword, known, .inl rfl⟩, List.forall_mem_singleton.mpr unpadded⟩
      | some arguments =>
          obtain ⟨filled, trimmed⟩ := given arguments rfl
          refine ⟨⟨keyword, known, .inr ⟨arguments, rfl, filled⟩⟩, ?_⟩
          simpa [Parts.chunks] using ⟨unpadded, trimmed⟩
  | call =>
      dsimp only
      cases cut : splitAssignment r.instruction with
      | none =>
          refine ⟨⟨[], r.instruction.trim, rfl, ?_, ?_⟩, ?_⟩
          · rw [proper.trim]
            exact proper.filled
          · exact iff_of_true rfl (splitAssignment_eq_none_iff.mp cut)
          · simpa [Parts.chunks] using ⟨Text.unpadded_nil, Text.unpadded_trim _⟩
      | some sides =>
          have assigned : HasAssignment r.instruction := by
            rw [← not_not (a := HasAssignment _), ← splitAssignment_eq_none_iff, cut]
            exact Option.some_ne_none _
          refine (sides_promised .call sides.1 sides.2).imp ?_
          rintro _ ⟨outputs, signature, rfl, filledOutputs, filledSignature, unpadded⟩
          refine ⟨⟨outputs, signature, rfl, filledSignature, ?_⟩, ?_⟩
          · exact iff_of_false filledOutputs (not_not_intro assigned)
          · simpa [Parts.chunks] using unpadded
  | assignment =>
      dsimp only
      cases splitAssignment r.instruction with
      | none =>
          constructor
          · intro missing
            cases missing
          · intro missing
            cases missing
      | some sides =>
          refine (sides_promised .assignment sides.1 sides.2).imp ?_
          rintro _ ⟨target, value, rfl, filledTarget, filledValue, unpadded⟩
          refine ⟨⟨target, value, rfl, filledTarget, filledValue⟩, ?_⟩
          simpa [Parts.chunks] using unpadded
  | function =>
      refine functionParts_promised.imp ?_
      rintro _ ⟨outputs, name, inputs, rfl, filled, unpadded⟩
      refine ⟨⟨outputs, name, inputs, rfl, filled⟩, ?_⟩
      simpa [Parts.chunks] using ⟨word.2, unpadded⟩

/-- The parts of a block that has been read are those of its shape, without blanks around them. If there
are none, the reason is not that its keyword is missing. -/
theorem parts_documented {keywords : Keywords} (named : keywords.contains [] = false) {block : Text}
    (read : ofBlock keywords block = .ok r) :
    (∀ e, r.parts = .error e → e.cause ≠ .createKeywordMissing ∧ e.cause ≠ .commandNameMissing) ∧
      ∀ parts, r.parts = .ok parts →
        r.Documented keywords parts.chunks ∧ ∀ chunk ∈ parts.chunks, chunk.Unpadded := by
  have promised : Promised (fun parts => r.Documented keywords parts.chunks ∧
      ∀ chunk ∈ parts.chunks, chunk.Unpadded) r.parts := by
    rcases shape_of_ofBlock read with comment | ⟨proper, shape⟩
    · unfold parts Documented
      rw [comment]
      exact ⟨rfl, List.forall_mem_nil _⟩
    · exact parts_promised named proper shape
  constructor
  · intro e failed
    rwa [failed] at promised
  · intro parts cut
    rwa [cut] at promised

/-- A call with outputs, whose signature has a `=` of its own in a literal. -/
theorem parts_documented_call :
    Keywords.builtin.contains [] = false ∧
      ∃ r, ofBlock .builtin "  [a, b] = f(x, '=') % note\n".toList = .ok r ∧
        ∃ parts, r.parts = .ok parts ∧ parts.chunks = ["[a, b]".toList, "f(x, '=')".toList] ∧
          r.Documented .builtin parts.chunks ∧ ∀ chunk ∈ parts.chunks, chunk.Unpadded := by
  have named : Keywords.builtin.contains [] = false := by decide +kernel
  have read : ofBlock .builtin "  [a, b] = f(x, '=') % note\n".toList =
      .ok ⟨[], "% note".toList, "[a, b] = f(x, '=')".toList, .call⟩ := by decide +kernel
  have cut : parts ⟨[], "% note".toList, "[a, b] = f(x, '=')".toList, .call⟩ =
      .ok (.call "[a, b]".toList "f(x, '=')".toList) := by decide +kernel
  exact ⟨named, _, read, _, cut, rfl, (parts_documented named read).2 _ cut⟩

end Reading

end MissionScript
