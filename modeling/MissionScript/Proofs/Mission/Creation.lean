import MissionScript.Proofs.Mission.Configuration
import MissionScript.Proofs.Script.Meaning
import MissionScript.Proofs.Script.Rejoining
import MissionScript.Proofs.Script.Target

/-!
# What a definition makes

A script of one definition makes the objects that it lists, and no others. Commas stand between the entries of
the list and between the sizes of an array; what tells them apart is that the entries are closed up before
the list is cut, and that a subscript stays with the name in front of it.
-/

namespace MissionScript

/-! ### A script of one line -/

section Line

variable {keywords : Keywords} {line : Text}

theorem splitStatements_of_not_mem (absent : ';' ∉ line) : splitStatements line = [line] := by
  have each := semicolon_of_mem_cutAfterSemicolons [] line.glyphs
  have whole := flatten_cutAfterSemicolons [] line.glyphs
  rw [Text.ofGlyphs_glyphs, List.reverse_nil, List.nil_append] at whole
  have none : (cutAfterSemicolons [] line.glyphs).1 = [] := by
    refine List.eq_nil_iff_forall_not_mem.mpr fun piece member => absent ?_
    rw [← whole]
    exact List.mem_append_left _ (List.mem_flatten.mpr ⟨piece, member, each piece member⟩)
  rw [none, List.flatten_nil, List.nil_append] at whole
  rw [splitStatements]
  dsimp only
  rewrite [none, whole]
  rfl

theorem IsInstruction.isRemark_eq_false (proper : IsInstruction line) : isRemark line = false := by
  rw [isRemark, proper.trim, proper.uncommented.head?_ne]
  simp [proper.filled]

/-- An instruction that stands alone on a line is the one block of its source. -/
theorem logicalBlocks_instruction (proper : IsInstruction line) (plain : ';' ∉ line)
    (own : continues line = false) : logicalBlocks line = [⟨line, ⟨0, line.bytes⟩⟩] := by
  have lines : line.lines = [line] := by
    refine Text.lines_of_single proper.filled fun member => ?_
    have inside := proper.single _ (List.dropLast_subset _ member)
    cases inside
  rw [logicalBlocks, lines, blocksFrom, lineRole_of_code proper.isRemark_eq_false own, completedBlocks]
  simp only [List.nil_append, splitStatements_of_not_mem plain]
  simp [blocksFrom, Text.isBlankText]

/-- Such an instruction is read as it stands. -/
theorem ofBlock_of_plain (proper : IsInstruction line) (plain : ';' ∉ line) (here : ¬IsRemote line) :
    Reading.ofBlock keywords line = .ok (.ofInstruction keywords line) := by
  have start : line.trimStart = line := Text.dropWhile_eq_self proper.first
  have filled : line.isBlankText = false := by
    rw [Bool.eq_false_iff]
    intro blank
    rw [← Text.trimStart_eq_nil_iff, start] at blank
    exact proper.filled blank
  rw [ofBlock_eq keywords filled, cutLines_of_single proper.filled proper.single, readLines,
    proper.isRemark_eq_false, if_neg Bool.false_ne_true, dropRemoteKeyword_eq_self (start.symm ▸ here),
    splitComment_eq proper.uncommented]
  dsimp only
  rw [instructionOf_eq plain, proper.trim, if_neg (by simpa using proper.filled)]
  rfl

/-- An instruction that comes apart is the one statement of its source. -/
theorem parseScript_instruction (proper : IsInstruction line) (plain : ';' ∉ line) (here : ¬IsRemote line)
    (own : continues line = false) {parts : Parts}
    (cut : (Reading.ofInstruction keywords line).parts = .ok parts) :
    parseScript keywords line = .ok [⟨.ofInstruction keywords line, parts, ⟨0, line.bytes⟩⟩] := by
  have statement : Statement.ofBlock keywords line = .ok ⟨.ofInstruction keywords line, parts, ⟨0, 0⟩⟩ := by
    refine Outcome.bind_eq_ok_iff.mpr ⟨_, ofBlock_of_plain proper plain here, ?_⟩
    exact Outcome.bind_eq_ok_iff.mpr ⟨parts, cut, rfl⟩
  rw [parseScript, logicalBlocks_instruction proper plain own]
  simp [statement]

end Line

/-! ### Entries -/

/-- Decimal digits of a number that is not too large for a size. -/
structure Text.IsSize (digits : Text) : Prop where
  integer : digits.isInteger
  fits : readSize digits < sizeLimit

/-- What an entry of a definition defines, and how it is written. An array has its sizes in brackets, and
blanks may stand anywhere between these. -/
inductive Entry : (objectType : Text) → Text × Object → Text → Prop where
  | object {objectType name : Text} : objectType ≠ arrayType → name.isIdentifier →
      Entry objectType (name, .ofType objectType) name
  | row {name columns inside : Text} : name.isIdentifier → columns.IsSize →
      inside.filter (!isBlank ·) = columns →
        Entry arrayType (name, .array 1 (readSize columns)) (name ++ '[' :: (inside ++ [']']))
  | matrix {name rows columns inside : Text} : name.isIdentifier → rows.IsSize → columns.IsSize →
      inside.filter (!isBlank ·) = rows ++ ',' :: columns →
        Entry arrayType (name, .array (readSize rows) (readSize columns))
          (name ++ '[' :: (inside ++ [']']))

namespace Text.IsSize

variable {digits : Text} (size : digits.IsSize)

include size

theorem isDigit : digits ≠ [] ∧ ∀ c ∈ digits, c.isDigit := by
  have integer := size.integer
  rw [isInteger, Bool.and_eq_true, Bool.not_eq_true', List.isEmpty_eq_false_iff] at integer
  exact ⟨integer.1, List.all_eq_true.mp integer.2⟩

theorem isIndexWord : IsIndexWord false digits := ⟨.inr size.isDigit, nofun⟩

theorem not_mem_comma : ',' ∉ digits := by
  intro member
  have digit := size.isDigit.2 _ member
  revert digit
  decide

theorem parseSize : parseSize digits = .ok (readSize digits) := by
  rw [MissionScript.parseSize, size.integer, if_neg (by decide), if_pos size.fits]

end Text.IsSize

/-- The sizes that stand in the brackets of a token are read. -/
theorem parseArray_element {name : Text} {sizes : List Text} (identifier : name.isIdentifier)
    (each : ∀ size ∈ sizes, Text.IsSize size) (filled : sizes ≠ []) :
    parseArray (Bracket.square.element name sizes) =
      match sizes with
      | [columns] => .ok (name, .array 1 (readSize columns))
      | [rows, columns] => .ok (name, .array (readSize rows) (readSize columns))
      | _ => .error (.badDimensions (Bracket.square.element name sizes)) := by
  have letters := (isWordChar_of_isIdentifier identifier).2
  have cut : Text.cutAt '[' (Bracket.square.element name sizes) =
      some (name, [','].intercalate sizes ++ [']']) := by
    refine Text.cutAt_eq_some_iff.mpr ⟨rfl, fun member => ?_⟩
    have letter := letters _ member
    revert letter
    decide
  have behind : Text.before? [']'] ([','].intercalate sizes ++ [']']) = some ([','].intercalate sizes) :=
    Text.before?_eq_some_iff.mpr rfl
  have split : ([','].intercalate sizes).splitOn ',' = sizes :=
    List.splitOn_intercalate _ (fun size among => (each size among).not_mem_comma) filled
  have trimmed : sizes.map Text.trim = sizes :=
    (List.map_congr_left fun size among => (each size among).isIndexWord.trim).trans (List.map_id _)
  rw [parseArray, cut]
  dsimp only
  rw [behind]
  dsimp only
  rw [identifier, split, trimmed]
  rcases sizes with - | ⟨rows, - | ⟨columns, - | ⟨more, sizes⟩⟩⟩
  · exact absurd rfl filled
  · simp [(each rows (by simp)).parseSize]
  · simp [(each rows (by simp)).parseSize, (each columns (by simp)).parseSize]
    rfl
  · rfl

/-- The characters of a list of entries. -/
def isEntryChar (c : Char) : Bool := isWordChar c || isSeparator c || c == '[' || c == ']'

theorem isEntryChar_of_isIdentifier {name : Text} (identifier : name.isIdentifier) :
    ∀ c ∈ name, isEntryChar c := by
  intro c member
  simp [isEntryChar, (isWordChar_of_isIdentifier identifier).2 c member]

theorem isDotted_of_isIdentifier {name : Text} (identifier : name.isIdentifier) : name.IsDotted :=
  ⟨[name], List.cons_ne_nil _ _, List.forall_mem_singleton.mpr identifier, by simp⟩

/-- How an entry that defines something is closed up and read. -/
structure Defining (objectType : Text) (entry : Text × Object) (part token : Text) : Prop where
  spelling : Spelling .square token token
  closes : ClosesUp token part
  trimmed : part.Trimmed
  chars : ∀ c ∈ part, isEntryChar c
  read : parseDefinition objectType token = .ok entry

/-- A name with its sizes in brackets is closed up, whatever blanks stand between these. -/
theorem defining_element {name inside : Text} {sizes : List Text} {array : Object}
    (identifier : name.isIdentifier) (each : ∀ size ∈ sizes, Text.IsSize size)
    (count : sizes.length = 1 ∨ sizes.length = 2)
    (tight : inside.filter (!isBlank ·) = [','].intercalate sizes)
    (read : parseArray (Bracket.square.element name sizes) = .ok (name, array)) :
    Defining arrayType (name, array) (name ++ '[' :: (inside ++ [']'])) (Bracket.square.element name sizes) := by
  have dotted := isDotted_of_isIdentifier identifier
  have words : ∀ size ∈ sizes, Text.IsIndexWord false size := fun size among => (each size among).isIndexWord
  have letters : ∀ c ∈ [','].intercalate sizes, isWordChar c ∨ c = ',' :=
    Text.forall_mem_intercalate (.inr rfl) fun size among c digit =>
      .inl ((words size among).isWordChar c digit)
  have parts : ∀ c ∈ inside, isBlank c ∨ isWordChar c ∨ c = ',' := by
    intro c member
    by_cases blank : isBlank c
    · exact .inl blank
    · rw [← tight] at letters
      exact .inr (letters c (List.mem_filter.mpr ⟨member, by simp [blank]⟩))
  have flat : inside.IsFlat := by
    intro c member
    apply isFlat_of_plain
    rcases parts c member with blank | letter | rfl
    · simp [blank]
    · simp [letter]
    · decide
  refine ⟨.subscript nofun dotted count words (List.forall₂_same.mpr fun size _ => .refl size), ?_,
    by simpa [Bracket.element, Bracket.opening, Bracket.closing] using trimmed_element dotted .square [inside],
    ?_, ?_⟩
  · have closed := ClosesUp.group (b := .square) (by simp) dotted flat
    rwa [tight] at closed
  · intro c member
    simp only [List.mem_append, List.mem_cons, List.not_mem_nil, or_false] at member
    rcases member with letter | rfl | among | rfl
    · exact isEntryChar_of_isIdentifier identifier c letter
    · decide
    · rcases parts c among with blank | letter | rfl
      · simp [isEntryChar, isSeparator, blank]
      · simp [isEntryChar, letter]
      · decide
    · decide
  · rwa [parseDefinition, if_pos rfl]

theorem Entry.exists_defining {objectType part : Text} {entry : Text × Object}
    (written : Entry objectType entry part) : ∃ token, Defining objectType entry part token := by
  cases written with
  | object other identifier =>
      have dotted := isDotted_of_isIdentifier identifier
      refine ⟨part, .name dotted, .name dotted, dotted.trimmed, isEntryChar_of_isIdentifier identifier, ?_⟩
      rw [parseDefinition, if_neg other, if_pos identifier]
  | row identifier columns tight =>
      have each := List.forall_mem_singleton.mpr columns
      have read := parseArray_element identifier each (List.cons_ne_nil _ _)
      exact ⟨_, defining_element identifier each (.inl rfl) (by simpa using tight) read⟩
  | matrix identifier rows columns tight =>
      have each := List.forall_mem_cons.mpr ⟨rows, List.forall_mem_singleton.mpr columns⟩
      have read := parseArray_element identifier each (List.cons_ne_nil _ _)
      exact ⟨_, defining_element identifier each (.inr rfl) (by simpa using tight) read⟩

section List

variable {objectType names : Text} {entries : List (Text × Object)} {parts : List Text}

theorem exists_tokens (written : List.Forall₂ (Entry objectType) entries parts) :
    ∃ tokens, (∀ token ∈ tokens, Spelling .square token token) ∧ List.Forall₂ ClosesUp tokens parts ∧
      (∀ part ∈ parts, Text.Trimmed part ∧ ∀ c ∈ part, isEntryChar c) ∧
        List.Forall₂ (fun token entry => parseDefinition objectType token = .ok entry) tokens entries := by
  induction written with
  | nil => exact ⟨[], List.forall_mem_nil _, .nil, List.forall_mem_nil _, .nil⟩
  | cons first _ ih =>
      obtain ⟨token, defining⟩ := first.exists_defining
      obtain ⟨tokens, spelled, closed, proper, read⟩ := ih
      exact ⟨token :: tokens, List.forall_mem_cons.mpr ⟨defining.spelling, spelled⟩, .cons defining.closes closed,
        List.forall_mem_cons.mpr ⟨⟨defining.trimmed, defining.chars⟩, proper⟩, .cons defining.read read⟩

/-- A list of entries is trimmed, and comes apart into tokens that are read as what they define. -/
theorem Joined.exists_read (joined : Joined parts names)
    (written : List.Forall₂ (Entry objectType) entries parts) (filled : entries ≠ []) :
    names.Trimmed ∧ (∀ c ∈ names, isEntryChar c) ∧ ∃ tokens, decompose .square true false names = .ok tokens ∧
      List.Forall₂ (fun token entry => parseDefinition objectType token = .ok entry) tokens entries := by
  obtain ⟨tokens, spelled, closed, proper, read⟩ := exists_tokens written
  have present : parts ≠ [] := by
    rintro rfl
    cases written
    exact filled rfl
  have trimmed := joined.trimmed (fun part among => (proper part among).1) present
  refine ⟨trimmed, joined.forall_mem (fun c separates => ?_) fun part among => (proper part among).2, tokens, ?_,
    read⟩
  · simp [isEntryChar, separates]
  · apply decompose_of_readied spelled
    rw [Text.readied, if_pos rfl, trimmed.trim]
    exact (joined.removeInnerBlanks closed).1

end List

/-! ### The objects that are made -/

theorem Table.perm_insert {α : Type} {table : Table α} {name : Text} {value : α}
    (absent : table.contains name = false) :
    (table.insert name value).entries.Perm ((name, value) :: table.entries) := by
  have new : ∀ entry ∈ table.entries, entry.1 ≠ name := by
    rintro ⟨held, old⟩ member rfl
    rw [Table.contains_iff.mpr ⟨old, Table.get?_of_mem_entries member⟩] at absent
    cases absent
  change (insertEntry name value table.entries).Perm _
  generalize table.entries = entries at new
  induction entries with
  | nil => exact .refl _
  | cons entry rest ih =>
      obtain ⟨other, new⟩ := List.forall_mem_cons.mp new
      rw [insertEntry]
      split
      · exact .refl _
      · rw [if_neg other.symm]
        exact ((ih new).cons entry).trans (.swap ..)

/-- Tokens with new names make what they define, and the store keeps what it holds. -/
theorem Store.exists_define (instruction : Text) {objectType : Text} {tokens : List Text}
    {entries : List (Text × Object)}
    (read : List.Forall₂ (fun token entry => parseDefinition objectType token = .ok entry) tokens entries)
    (distinct : (entries.map (·.1)).Nodup) (store : Store)
    (new : ∀ entry ∈ entries, store.contains entry.1 = false) :
    ∃ next : Store, tokens.foldlM (fun store token => store.define instruction objectType token) store = .ok next ∧
      next.entries.Perm (entries ++ store.entries) := by
  induction read generalizing store with
  | nil => exact ⟨store, rfl, .refl _⟩
  | @cons token entry tokens entries first _ ih =>
      rw [List.map_cons, List.nodup_cons] at distinct
      obtain ⟨here, new⟩ := List.forall_mem_cons.mp new
      have made : store.define instruction objectType token = .ok (store.insert entry.1 entry.2) := by
        rw [define, first]
        simp [add?, here]
      have others : ∀ other ∈ entries, (store.insert entry.1 entry.2).contains other.1 = false := by
        intro other member
        have apart : other.1 ≠ entry.1 := fun same => distinct.1 (same ▸ List.mem_map_of_mem member)
        rw [Table.contains_insert, new other member]
        simp [apart]
      obtain ⟨next, done, held⟩ := ih distinct.2 _ others
      refine ⟨next, ?_, held.trans ?_⟩
      · rw [List.foldlM_cons, made]
        exact done
      · exact ((Table.perm_insert here).append_left entries).trans List.perm_middle

/-! ### The script of a definition -/

/-- A word that can stand for a type of objects: neither a blank, nor the end of a statement, nor the start of a
comment cuts it. -/
structure Text.IsTypeWord (word : Text) : Prop where
  filled : word ≠ []
  chars : ∀ c ∈ word, isBlank c = false ∧ c ≠ ';' ∧ c ≠ '%'

/-- The instruction that defines objects of a type. -/
def creation (objectType : Text) (blank : Char) (names : Text) : Text :=
  createKeyword ++ ' ' :: (objectType ++ blank :: names)

section Creation

variable {objectType names : Text} {blank : Char} (word : objectType.IsTypeWord)
  (separates : isBlank blank) (trimmed : names.Trimmed)

theorem takeWhile_creation : (creation objectType blank names).takeWhile isWordChar = createKeyword := by
  have letters : ∀ c ∈ createKeyword, isWordChar c := List.all_eq_true.mp (by decide)
  rw [creation, List.takeWhile_append_of_pos letters, List.takeWhile_cons_of_neg (by decide), List.append_nil]

theorem getLast?_creation (trimmed : names.Trimmed) :
    (creation objectType blank names).getLast? = names.getLast? := by
  rw [creation, List.getLast?_append_of_ne_nil _ (by simp), List.getLast?_cons_of_ne_nil (by simp),
    List.getLast?_append_of_ne_nil _ (by simp), List.getLast?_cons_of_ne_nil trimmed.filled]

theorem shapeOf_creation (keywords : Keywords) : shapeOf keywords (creation objectType blank names) = .definition := by
  have next : (creation objectType blank names)[createKeyword.length]? = some ' ' := by
    rw [creation, List.getElem?_append_right (Nat.le_refl _), Nat.sub_self]
    rfl
  have other : (createKeyword == functionKeyword) = false := by decide
  have space : isBlank ' ' = true := by decide
  rw [shapeOf, takeWhile_creation, next]
  simp [other, space]

include word separates trimmed

/-- The instruction comes apart into the type and the list. -/
theorem definitionParts_creation (keywords : Keywords) : (Reading.ofInstruction keywords (creation objectType blank names)).parts =
    .ok (.definition objectType names) := by
  have behind : createKeyword.after? (creation objectType blank names) =
      some (' ' :: (objectType ++ blank :: names)) := Text.after?_eq_some_iff.mpr rfl
  have kept : ∀ c ∈ objectType, (!isBlank c) = true := by
    intro c member
    rw [(word.chars c member).1]
    rfl
  have start : Text.trimStart (' ' :: (objectType ++ blank :: names)) = objectType ++ blank :: names := by
    rw [Text.trimStart, List.dropWhile_cons_of_pos (by decide), Text.dropWhile_eq_self]
    rw [List.head?_append_of_ne_nil _ word.filled]
    exact fun c first => (word.chars c (List.mem_of_head? first)).1
  have taken : (objectType ++ blank :: names).takeWhile (!isBlank ·) = objectType := by
    rw [List.takeWhile_append_of_pos kept, List.takeWhile_cons_of_neg (by simp [separates]), List.append_nil]
  have list : Text.trim (blank :: names) = names := by
    rw [← List.singleton_append, Text.trim_blank_append (by simp [Text.isBlankText, separates]), trimmed.trim]
  have space : Option.all isBlank (some ' ') = true := by decide
  rw [Reading.parts, Reading.ofInstruction]
  dsimp only
  rw [shapeOf_creation]
  dsimp only
  rw [Reading.definitionParts]
  dsimp only
  rw [behind]
  dsimp only
  rw [List.head?_cons, space, start, taken, List.drop_left, list, List.isEmpty_eq_false_iff.mpr word.filled,
    List.isEmpty_eq_false_iff.mpr trimmed.filled]
  rfl

variable (line : ∀ c ∈ blank :: names, isLineEnd c = false) (chars : ∀ c ∈ names, isEntryChar c)

include line chars

theorem isInstruction_creation :
    IsInstruction (creation objectType blank names) ∧ ';' ∉ creation objectType blank names := by
  have keyword : ∀ c ∈ createKeyword ++ [' '], (c != ';' && c != '%' && !isLineEnd c) = true :=
    List.all_eq_true.mp (by decide)
  have other {c d : Char} (inside : isEntryChar c) (outside : isEntryChar d = false) : c ≠ d := by
    rintro rfl
    rw [inside] at outside
    cases outside
  have entry {c : Char} (inside : isEntryChar c) : c ≠ ';' ∧ c ≠ '%' :=
    ⟨other inside (by decide), other inside (by decide)⟩
  have each : ∀ c ∈ creation objectType blank names, (c ≠ ';' ∧ c ≠ '%') ∧ isLineEnd c = false := by
    intro c member
    rw [creation, List.append_cons] at member
    rcases List.mem_append.mp member with inside | behind
    · simpa using keyword c inside
    rcases List.mem_append.mp behind with inside | inside
    · refine ⟨(word.chars c inside).2, Bool.eq_false_iff.mpr fun ends => ?_⟩
      exact Bool.eq_false_iff.mp (word.chars c inside).1 (isBlank_of_isLineEnd ends)
    · refine ⟨entry ?_, line c inside⟩
      rcases List.mem_cons.mp inside with rfl | inside
      · simp [isEntryChar, isSeparator, separates]
      · exact chars c inside
  refine ⟨⟨⟨List.cons_ne_nil _ _, ?_, ?_⟩, fun c member => (each c member).2, ?_⟩, ?_⟩
  · rintro c ⟨⟩
    decide
  · rw [getLast?_creation trimmed]
    exact trimmed.last
  · exact uncommented_of_not_mem fun member => (each _ member).1.2 rfl
  · exact fun member => (each _ member).1.1 rfl

/-- The instruction is the one statement of its source. -/
theorem parseScript_creation (keywords : Keywords) : ∃ span, parseScript keywords (creation objectType blank names) =
    .ok [⟨.ofInstruction keywords (creation objectType blank names), .definition objectType names, span⟩] := by
  obtain ⟨proper, plain⟩ := isInstruction_creation word separates trimmed line chars
  have here : ¬IsRemote (creation objectType blank names) := by
    rintro ⟨start, -⟩
    rw [takeWhile_creation] at start
    revert start
    decide
  have own : continues (creation objectType blank names) = false := by
    rw [continues, splitComment_eq proper.uncommented, Text.trimEnd, Text.dropEndWhile_eq_self proper.last,
      Option.isSome_eq_false_iff, Option.isNone_iff_eq_none, Option.eq_none_iff_forall_ne_some]
    intro code marked
    have dot : names.getLast? = some '.' := by
      rw [← getLast?_creation trimmed, Text.before?_eq_some_iff.mp marked]
      simp [continuationMark]
    have inside := chars '.' (List.mem_of_getLast? dot)
    revert inside
    decide
  exact ⟨_, parseScript_instruction proper plain here own (definitionParts_creation word separates trimmed keywords)⟩

end Creation

/-- A script of one definition is accepted, and its mission has exactly the objects that are listed: objects of the
type, or arrays of zeros with the sizes in their brackets. Between the entries may stand any blanks and commas, as
long as no line end cuts the list. -/
theorem Mission.ofSource_creation (keywords : Keywords) (source : Nat) {objectType names : Text} {blank : Char}
    {entries : List (Text × Object)} {parts : List Text} (word : objectType.IsTypeWord) (separates : isBlank blank)
    (filled : entries ≠ []) (distinct : (entries.map (·.1)).Nodup)
    (written : List.Forall₂ (Entry objectType) entries parts) (joined : Joined parts names)
    (line : ∀ c ∈ blank :: names, isLineEnd c = false) :
    ∃ m, ofSource keywords source (creation objectType blank names) = .ok m ∧ m.objects.entries.Perm entries := by
  obtain ⟨trimmed, chars, tokens, cut, read⟩ := joined.exists_read written filled
  obtain ⟨span, parsed⟩ := parseScript_creation word separates trimmed line chars keywords
  obtain ⟨store, made, held⟩ := Store.exists_define (creation objectType blank names) read distinct .empty
    fun _ _ => rfl
  have taken : [(⟨.ofInstruction keywords (creation objectType blank names), .definition objectType names, span⟩ :
      Statement)].foldlM Store.take .empty = .ok store := by
    refine Outcome.bind_eq_ok_iff.mpr ⟨store, ?_, rfl⟩
    rw [Store.take]
    dsimp only
    rw [Store.defineAll, cut]
    exact made
  obtain ⟨m, accepted, objects⟩ := @exists_of_settings source _ _ (List.forall_mem_singleton.mpr rfl) taken
  refine ⟨m, ?_, ?_⟩
  · rw [ofSource, parsed]
    exact accepted
  · rw [objects]
    exact held.trans (.of_eq (List.append_nil _))

/-- Commas within brackets are no separators, and those between the entries may stand behind a blank. -/
theorem Mission.ofSource_creation_arrays :
    ∃ m, ofSource .builtin 0 "Create Array A[2, 3] ,B[1 2 ]\tC[0]".toList = .ok m ∧
      m.objects.entries.Perm [("A".toList, .array 2 3), ("B".toList, .array 1 12), ("C".toList, .array 1 0)] := by
  have size {digits : Text} (integer : digits.isInteger) (fits : readSize digits < sizeLimit) : digits.IsSize :=
    ⟨integer, fits⟩
  have first : Entry arrayType ("A".toList, .array 2 3) "A[2, 3]".toList :=
    @Entry.matrix ['A'] ['2'] ['3'] "2, 3".toList (by decide) (size (by decide) (by decide))
      (size (by decide) (by decide)) (by decide)
  have second : Entry arrayType ("B".toList, .array 1 12) "B[1 2 ]".toList :=
    @Entry.row ['B'] "12".toList "1 2 ".toList (by decide) (size (by decide) (by decide)) (by decide)
  have third : Entry arrayType ("C".toList, .array 1 0) "C[0]".toList :=
    @Entry.row ['C'] ['0'] ['0'] (by decide) (size (by decide) (by decide)) (by decide)
  have run {run : Text} (all : run.all isSeparator) : ∀ c ∈ run, isSeparator c :=
    List.all_eq_true.mp all
  have joined : Joined ["A[2, 3]".toList, "B[1 2 ]".toList, "C[0]".toList]
      "A[2, 3] ,B[1 2 ]\tC[0]".toList :=
    .cons "A[2, 3]".toList (List.cons_ne_nil ' ' [',']) (run (by decide))
      (.cons "B[1 2 ]".toList (List.cons_ne_nil '\t' []) (run (by decide)) (.single "C[0]".toList))
  have letters : ∀ c ∈ arrayType, (!isBlank c && c != ';' && c != '%') = true := List.all_eq_true.mp (by decide)
  have word : arrayType.IsTypeWord := ⟨by decide, by simpa [and_assoc] using letters⟩
  have line : ∀ c ∈ ' ' :: "A[2, 3] ,B[1 2 ]\tC[0]".toList, (!isLineEnd c) = true :=
    List.all_eq_true.mp (by decide)
  have separates : isBlank ' ' := by decide
  exact ofSource_creation .builtin 0 word separates (List.cons_ne_nil _ _) (by decide)
    (.cons first (.cons second (.cons third .nil))) joined fun c member => by simpa using line c member

end MissionScript
