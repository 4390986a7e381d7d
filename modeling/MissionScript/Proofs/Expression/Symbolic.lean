import MissionScript.Proofs.Expression.Cutting

/-!
# Operands that are names

A variable, a parameter of an object or an element whose indices are variables is one token of an
expression, and its text is read as the operand again.
-/

namespace MissionScript

namespace Operand

/-- A variable by an identifier. -/
def isVariable : Operand → Bool
  | var name => name.isIdentifier
  | _ => false

/-- A variable, a parameter of an object, or an element whose indices are variables. An array is not called
like a function, for then its element is a call. -/
def isSymbolic : Operand → Bool
  | number _ => false
  | var name => name.isIdentifier
  | parameter owner field => owner.isIdentifier && field.isDottedName
  | element array index =>
    array.isIdentifier && (MathFunction.ofName? array).isNone && index.isVariable
  | cell array row column =>
    array.isIdentifier && (MathFunction.ofName? array).isNone && row.isVariable && column.isVariable

variable {c : Char} {name inside : Text} {o index row column : Operand}

theorem exists_name (identifier : name.isIdentifier) :
    ∃ c fields, name = c :: fields ∧ startsName c ∧ ∀ d ∈ fields, isNameChar d := by
  obtain ⟨filled, letters⟩ := isWordChar_of_isIdentifier identifier
  obtain ⟨c, fields, rfl⟩ := List.exists_cons_of_ne_nil filled
  refine ⟨c, fields, rfl, startsName_of_isIdentifier identifier, fun d member => ?_⟩
  simp [isNameChar, letters d (List.mem_cons_of_mem _ member)]

theorem exists_parameter {owner field : Text} (identifier : owner.isIdentifier)
    (dotted : field.isDottedName) :
    ∃ c fields, owner ++ '.' :: field = c :: fields ∧ startsName c ∧ ∀ d ∈ fields, isNameChar d := by
  obtain ⟨c, fields, rfl, starts, named⟩ := exists_name identifier
  refine ⟨c, fields ++ '.' :: field, rfl, starts, List.forall_mem_append.mpr ⟨named, ?_⟩⟩
  refine List.forall_mem_cons.mpr ⟨rfl, fun d member => ?_⟩
  simpa [isNameChar] using Text.dotted_of_isDottedName dotted d member

/-- Such a text has nothing to trim and no group. -/
theorem parse_of_name (starts : startsName c) (named : ∀ d ∈ name, isNameChar d)
    (read : ofName (c :: name) = .ok o) : parse (c :: name) = .ok o := by
  have all : ∀ d ∈ c :: name, isNameChar d :=
    List.forall_mem_cons.mpr ⟨isNameChar_of_startsName starts, named⟩
  have trimmed : Text.Trimmed (c :: name) :=
    { filled := List.cons_ne_nil _ _
      first := fun d member => isBlank_of_isNameChar (all d (List.mem_of_mem_head? member))
      last := fun d member => isBlank_of_isNameChar (all d (List.mem_of_mem_getLast? member)) }
  apply parse_of_reads
  rw [trimmed.trim]
  refine .name rfl (startsNumber_of_startsName starts) (fun last => ?_) read
  have closing := all _ (List.mem_of_mem_getLast? last)
  cases closing

theorem ofName_of_isIdentifier (identifier : name.isIdentifier) : ofName name = .ok (.var name) := by
  have undotted : name.cutAt '.' = none := by
    refine Text.cutAt_eq_none_iff.mpr fun member => ?_
    cases (isWordChar_of_isIdentifier identifier).2 _ member
  rw [ofName, undotted]
  simp only [identifier, if_true]

theorem parse_of_isIdentifier (identifier : name.isIdentifier) : parse name = .ok (.var name) := by
  have read := ofName_of_isIdentifier identifier
  obtain ⟨c, fields, rfl, starts, named⟩ := exists_name identifier
  exact parse_of_name starts named read

theorem parse_parameter {owner field : Text} (identifier : owner.isIdentifier)
    (dotted : field.isDottedName) : parse (owner ++ '.' :: field) = .ok (.parameter owner field) := by
  have cut : (owner ++ '.' :: field).cutAt '.' = some (owner, field) := by
    refine Text.cutAt_eq_some_iff.mpr ⟨rfl, fun member => ?_⟩
    cases (isWordChar_of_isIdentifier identifier).2 _ member
  have read : ofName (owner ++ '.' :: field) = .ok (.parameter owner field) := by
    rw [ofName, cut]
    simp only [identifier, dotted, Bool.and_self, if_true]
  obtain ⟨c, fields, same, starts, named⟩ := exists_parameter identifier dotted
  rw [same] at read ⊢
  exact parse_of_name starts named read

/-! ### Elements of arrays -/

theorem splitOpening_append {b : Bracket} {gs rest : List Glyph} {g : Glyph}
    (flat : ∀ h ∈ gs, h.opens b = false) (opens : g.opens b) :
    b.splitOpening 0 (gs ++ g :: rest) = some (gs, rest) := by
  induction gs with
  | nil => simp [Bracket.splitOpening, opens]
  | cons h gs ih =>
      obtain ⟨first, others⟩ := List.forall_mem_cons.mp flat
      simp [Bracket.splitOpening, first, ih others]

/-- The group behind a name is found, and it is the whole rest of the text. -/
theorem exists_group (identifier : name.isIdentifier) (nests : Nests inside) :
    ∃ c group, (name ++ '(' :: (inside ++ [')'])).head? = some c ∧ startsNumber c = false ∧
      (name ++ '(' :: (inside ++ [')'])).getLast? = some ')' ∧
      Bracket.paren.scan (name ++ '(' :: (inside ++ [')'])) 0 = .matched group ∧
      Text.ofGlyphs group.before = name ∧ group.content = inside ∧ group.after = [] := by
  obtain ⟨c, fields, same, starts, -⟩ := exists_name identifier
  have letters := (isWordChar_of_isIdentifier identifier).2
  have named : Nests name := .of_named fun c member => by simp [isNameChar, letters c member]
  have spelled := Spells.of_unquoted (named.append nests.group).unquoted
  refine ⟨c, ?_⟩
  rw [Bracket.scan, Bracket.scanGlyphs]
  generalize Text.glyphs (name ++ '(' :: (inside ++ [')'])) = gs at spelled
  obtain ⟨front, more, rfl, spelledName, spelled⟩ := spelled.append
  obtain ⟨opening, more, rfl, opens, free, spelled⟩ := spelled.cons
  obtain ⟨content, last, rfl, spelledInside, spelled⟩ := spelled.append
  obtain ⟨close, nothing, rfl, closing, free', spelled⟩ := spelled.cons
  obtain rfl := spelled.nil
  have flat : ∀ g ∈ front, g.opens .paren = false := by
    intro g member
    have letter := spelledName.forall_char letters g member
    simp [Glyph.opens, (not_bracket_of_isWordChar letter .paren).1]
  have opened : opening.opens .paren := by simp [Glyph.opens, Bracket.opening, opens, free]
  rw [splitOpening_append flat opened]
  simp only [nests.closes spelledInside free' closing]
  refine ⟨_, ?_, startsNumber_of_startsName starts, ?_, rfl, spelledName.1, spelledInside.1, rfl⟩
  · rw [same]
    rfl
  · rw [List.getLast?_append, List.getLast?_cons, List.getLast?_concat]
    rfl

theorem trim_group (identifier : name.isIdentifier) :
    (name ++ '(' :: (inside ++ [')'])).trim = name ++ '(' :: (inside ++ [')']) := by
  obtain ⟨c, fields, rfl, starts, -⟩ := exists_name identifier
  refine Text.Trimmed.trim ⟨by simp, ?_, ?_⟩
  · rintro d ⟨⟩
    exact isBlank_of_isNameChar (isNameChar_of_startsName starts)
  · rw [List.getLast?_append, List.getLast?_cons, List.getLast?_concat]
    rintro d ⟨⟩
    decide

theorem parse_element (identifier : name.isIdentifier) (nests : Nests inside)
    (single : inside.cutAt ',' = none) (read : parse inside = .ok index) :
    parse (name ++ '(' :: (inside ++ [')'])) = .ok (.element name index) := by
  obtain ⟨c, group, first, letter, last, found, rfl, rfl, ends⟩ := exists_group identifier nests
  apply parse_of_reads
  rw [trim_group identifier]
  exact .element first letter last found ends identifier single read

theorem parse_cell {left right : Text} (identifier : name.isIdentifier) (nests : Nests inside)
    (cut : inside.cutAt ',' = some (left, right)) (readRow : parse left = .ok row)
    (readColumn : parse right = .ok column) :
    parse (name ++ '(' :: (inside ++ [')'])) = .ok (.cell name row column) := by
  obtain ⟨c, group, first, letter, last, found, rfl, rfl, ends⟩ := exists_group identifier nests
  apply parse_of_reads
  rw [trim_group identifier]
  exact .cell first letter last found ends identifier cut readRow readColumn

/-! ### Displayed operands -/

theorem exists_variable (known : o.isVariable) : ∃ name, o = .var name ∧ name.isIdentifier := by
  cases o with
  | var name => exact ⟨name, rfl, known⟩
  | _ => cases known

theorem nests_of_isIdentifier (identifier : name.isIdentifier) : Nests name :=
  .of_named fun c member => by simp [isNameChar, (isWordChar_of_isIdentifier identifier).2 c member]

/-- The text of a variable as an index. -/
theorem index_of_isVariable (known : o.isVariable) :
    Nests o.display ∧ ',' ∉ o.display ∧ parse o.display = .ok o := by
  obtain ⟨name, rfl, identifier⟩ := exists_variable known
  refine ⟨nests_of_isIdentifier identifier, fun member => ?_, parse_of_isIdentifier identifier⟩
  cases (isWordChar_of_isIdentifier identifier).2 _ member

theorem display_element : (element name index).display = name ++ '(' :: (index.display ++ [')']) := by
  simp [display]

theorem display_cell : (cell name row column).display =
    name ++ '(' :: ((row.display ++ ',' :: column.display) ++ [')']) := by
  simp [display]

theorem nests_indices (knownRow : row.isVariable) (knownColumn : column.isVariable) :
    Nests (row.display ++ ',' :: column.display) :=
  (index_of_isVariable knownRow).1.comma (index_of_isVariable knownColumn).1

/-- The text of such an operand is read as the operand. -/
theorem parse_display (symbolic : o.isSymbolic) : parse o.display = .ok o := by
  cases o with
  | number value => cases symbolic
  | var name => exact parse_of_isIdentifier symbolic
  | parameter owner field =>
      obtain ⟨identifier, dotted⟩ := Bool.and_eq_true_iff.mp symbolic
      exact parse_parameter identifier dotted
  | element array index =>
      simp only [isSymbolic, Bool.and_eq_true] at symbolic
      obtain ⟨⟨identifier, -⟩, known⟩ := symbolic
      obtain ⟨nests, single, read⟩ := index_of_isVariable known
      rw [display_element]
      exact parse_element identifier nests (Text.cutAt_eq_none_iff.mpr single) read
  | cell array row column =>
      simp only [isSymbolic, Bool.and_eq_true] at symbolic
      obtain ⟨⟨⟨identifier, -⟩, knownRow⟩, knownColumn⟩ := symbolic
      obtain ⟨-, single, readRow⟩ := index_of_isVariable knownRow
      obtain ⟨-, -, readColumn⟩ := index_of_isVariable knownColumn
      rw [display_cell]
      exact parse_cell identifier (nests_indices knownRow knownColumn)
        (Text.cutAt_eq_some_iff.mpr ⟨rfl, single⟩) readRow readColumn

theorem nests_display (symbolic : o.isSymbolic) : Nests o.display := by
  cases o with
  | number value => cases symbolic
  | var name => exact nests_of_isIdentifier symbolic
  | parameter owner field =>
      obtain ⟨identifier, dotted⟩ := Bool.and_eq_true_iff.mp symbolic
      obtain ⟨c, fields, same, starts, named⟩ := exists_parameter identifier dotted
      rw [display, same]
      exact .of_named (List.forall_mem_cons.mpr ⟨isNameChar_of_startsName starts, named⟩)
  | element array index =>
      simp only [isSymbolic, Bool.and_eq_true] at symbolic
      obtain ⟨⟨identifier, -⟩, known⟩ := symbolic
      rw [display_element]
      exact (nests_of_isIdentifier identifier).append (index_of_isVariable known).1.group
  | cell array row column =>
      simp only [isSymbolic, Bool.and_eq_true] at symbolic
      obtain ⟨⟨⟨identifier, -⟩, knownRow⟩, knownColumn⟩ := symbolic
      rw [display_cell]
      exact (nests_of_isIdentifier identifier).append (nests_indices knownRow knownColumn).group

/-- A name that is not a function's is one token together with its group. -/
theorem cuts_group (identifier : name.isIdentifier) (absent : MathFunction.ofName? name = none)
    (nests : Nests inside) :
    Cuts (name ++ '(' :: (inside ++ [')'])) [.operand (name ++ '(' :: (inside ++ [')']))] := by
  obtain ⟨c, fields, rfl, starts, named⟩ := exists_name identifier
  have cuts := Cuts.of_group starts named nests
  simpa only [groupToken, absent, List.append_assoc, List.cons_append] using cuts

theorem cuts_display (symbolic : o.isSymbolic) : Cuts o.display [.operand o.display] := by
  cases o with
  | number value => cases symbolic
  | var name =>
      obtain ⟨c, fields, rfl, starts, named⟩ := exists_name symbolic
      exact .of_name starts named
  | parameter owner field =>
      obtain ⟨identifier, dotted⟩ := Bool.and_eq_true_iff.mp symbolic
      obtain ⟨c, fields, same, starts, named⟩ := exists_parameter identifier dotted
      rw [display, same]
      exact .of_name starts named
  | element array index =>
      simp only [isSymbolic, Bool.and_eq_true, Option.isNone_iff_eq_none] at symbolic
      obtain ⟨⟨identifier, absent⟩, known⟩ := symbolic
      rw [display_element]
      exact cuts_group identifier absent (index_of_isVariable known).1
  | cell array row column =>
      simp only [isSymbolic, Bool.and_eq_true, Option.isNone_iff_eq_none] at symbolic
      obtain ⟨⟨⟨identifier, absent⟩, knownRow⟩, knownColumn⟩ := symbolic
      rw [display_cell]
      exact cuts_group identifier absent (nests_indices knownRow knownColumn)

end Operand

end MissionScript
