import MissionScript.Proofs.Expression.Symbolic

/-!
# Texts of nested operands

The indices of an element are operands again, elements with two indices among them. The text of such an
operand is read back where the comma between two indices is the first one: where two indices stand only in
the column of what is around them. Any other such text is rejected.
-/

namespace MissionScript

namespace Operand

/-- Variables, parameters of objects and elements of arrays, at every depth. -/
def isNamed : Operand → Bool
  | number _ => false
  | var name => name.isIdentifier
  | parameter owner field => owner.isIdentifier && field.isDottedName
  | element array index => array.isIdentifier && index.isNamed
  | cell array row column => array.isIdentifier && row.isNamed && column.isNamed

/-- No element has two indices. -/
def isSingle : Operand → Bool
  | number _ | var _ | parameter _ _ => true
  | element _ index => index.isSingle
  | cell _ _ _ => false

/-- Elements have two indices only in the columns of elements around them. -/
def isColumnwise : Operand → Bool
  | number _ | var _ | parameter _ _ => true
  | element _ index => index.isSingle
  | cell _ row column => row.isSingle && column.isColumnwise

variable {name inside s : Text} {o : Operand}

theorem isColumnwise_of_isSingle (single : o.isSingle) : o.isColumnwise := by
  cases o with
  | cell array row column => cases single
  | element array index => exact single
  | _ => rfl

/-! ### What is displayed -/

/-- A displayed operand closes the groups that it opens. -/
theorem nests_of_isNamed (named : o.isNamed) : Nests o.display := by
  induction o with
  | number value => cases named
  | var name => exact nests_of_isIdentifier named
  | parameter owner field =>
      obtain ⟨identifier, dotted⟩ := Bool.and_eq_true_iff.mp named
      obtain ⟨c, fields, same, starts, letters⟩ := exists_parameter identifier dotted
      rw [display, same]
      exact .of_named (List.forall_mem_cons.mpr ⟨isNameChar_of_startsName starts, letters⟩)
  | element array index ih =>
      obtain ⟨identifier, within⟩ := Bool.and_eq_true_iff.mp named
      rw [display_element]
      exact (nests_of_isIdentifier identifier).append (ih within).group
  | cell array row column rowIH columnIH =>
      simp only [isNamed, Bool.and_eq_true] at named
      obtain ⟨⟨identifier, namedRow⟩, namedColumn⟩ := named
      rw [display_cell]
      exact (nests_of_isIdentifier identifier).append
        ((rowIH namedRow).comma (columnIH namedColumn)).group

/-- A comma is displayed between two indices only. -/
theorem comma_not_mem_display (named : o.isNamed) (single : o.isSingle) : ',' ∉ o.display := by
  have plain {name : Text} (identifier : name.isIdentifier) : ',' ∉ name := fun member => by
    cases (isWordChar_of_isIdentifier identifier).2 _ member
  induction o with
  | number value => cases named
  | var name => exact plain named
  | parameter owner field =>
      obtain ⟨identifier, dotted⟩ := Bool.and_eq_true_iff.mp named
      have undotted : ',' ∉ field := fun member => by
        rcases Text.dotted_of_isDottedName dotted _ member with word | dot
        · cases word
        · cases dot
      simp [display, plain identifier, undotted]
  | element array index ih =>
      obtain ⟨identifier, within⟩ := Bool.and_eq_true_iff.mp named
      simp [display, plain identifier, ih within single]
  | cell array row column rowIH columnIH => cases single

theorem cutAt_indices {row : Operand} (named : row.isNamed) (single : row.isSingle) (column : Operand) :
    (row.display ++ ',' :: column.display).cutAt ',' = some (row.display, column.display) :=
  Text.cutAt_eq_some_iff.mpr ⟨rfl, comma_not_mem_display named single⟩

/-! ### Texts that are read back -/

theorem parse_display_of_isColumnwise (named : o.isNamed) (columnwise : o.isColumnwise) :
    parse o.display = .ok o := by
  induction o with
  | number value => cases named
  | var name => exact parse_of_isIdentifier named
  | parameter owner field =>
      obtain ⟨identifier, dotted⟩ := Bool.and_eq_true_iff.mp named
      exact parse_parameter identifier dotted
  | element array index ih =>
      obtain ⟨identifier, within⟩ := Bool.and_eq_true_iff.mp named
      rw [display_element]
      refine parse_element identifier (nests_of_isNamed within) ?_ ?_
      · exact Text.cutAt_eq_none_iff.mpr (comma_not_mem_display within columnwise)
      · exact ih within (isColumnwise_of_isSingle columnwise)
  | cell array row column rowIH columnIH =>
      simp only [isNamed, isColumnwise, Bool.and_eq_true] at named columnwise
      obtain ⟨⟨identifier, namedRow⟩, namedColumn⟩ := named
      obtain ⟨single, behind⟩ := columnwise
      have cut := cutAt_indices namedRow single column
      have nests := (nests_of_isNamed namedRow).comma (nests_of_isNamed namedColumn)
      have readRow := rowIH namedRow (isColumnwise_of_isSingle single)
      rw [display_cell]
      exact parse_cell identifier nests cut readRow (columnIH namedColumn behind)

/-! ### Texts that are rejected -/

/-- The first comma of two indices stands inside a group. -/
theorem exists_comma (named : o.isNamed) (double : o.isSingle = false) :
    ∃ front behind, o.display = front ++ ',' :: behind ∧ ',' ∉ front ∧
      ∀ depth, depth < front.foldl depthAfter depth := by
  have name {array : Text} (identifier : array.isIdentifier) : ',' ∉ array := fun member => by
    cases (isWordChar_of_isIdentifier identifier).2 _ member
  have opened {array : Text} (identifier : array.isIdentifier) (front : Text) (depth : Nat) :
      (array ++ '(' :: front).foldl depthAfter depth = front.foldl depthAfter (depth + 1) := by
    rw [List.foldl_append, (Quiet.of_identifier identifier).level]
    rfl
  induction o with
  | element array index ih =>
      obtain ⟨identifier, within⟩ := Bool.and_eq_true_iff.mp named
      obtain ⟨front, behind, shown, first, deeper⟩ := ih within double
      refine ⟨array ++ '(' :: front, behind ++ [')'], ?_, by simp [name identifier, first], ?_⟩
      · simp [display, shown]
      · intro depth
        rw [opened identifier]
        exact Nat.lt_of_succ_lt (deeper (depth + 1))
  | cell array row column rowIH columnIH =>
      simp only [isNamed, Bool.and_eq_true] at named
      obtain ⟨⟨identifier, namedRow⟩, -⟩ := named
      cases single : row.isSingle with
      | true =>
          refine ⟨array ++ '(' :: row.display, column.display ++ [')'], by simp [display], ?_, ?_⟩
          · simp [name identifier, comma_not_mem_display namedRow single]
          · intro depth
            have read := parse_display_of_isColumnwise namedRow (isColumnwise_of_isSingle single)
            rw [opened identifier, (quiet_of_parse read).level]
            exact Nat.lt_succ_self depth
      | false =>
          obtain ⟨front, behind, shown, first, deeper⟩ := rowIH namedRow single
          refine ⟨array ++ '(' :: front, behind ++ ',' :: column.display ++ [')'], ?_,
            by simp [name identifier, first], ?_⟩
          · simp [display, shown]
          · intro depth
            rw [opened identifier]
            exact Nat.lt_of_succ_lt (deeper (depth + 1))
  | _ => cases double

/-- A group that is read as an element has indices on both sides of its first comma, or no comma. -/
theorem indices_of_parse (identifier : name.isIdentifier) (nests : Nests inside)
    (read : parse (name ++ '(' :: (inside ++ [')'])) = .ok o) :
    (∃ index, inside.cutAt ',' = none ∧ parse inside = .ok index) ∨
      ∃ left right row column, inside.cutAt ',' = some (left, right) ∧ parse left = .ok row ∧
        parse right = .ok column := by
  obtain ⟨c, group, first, letter, last, found, -, rfl, -⟩ := exists_group identifier nests
  have reads := reads_of_parse read
  rw [trim_group identifier] at reads
  cases reads with
  | number first' digit read =>
      rw [first] at first'
      cases first'
      rw [letter] at digit
      cases digit
  | element first' letter' last' found' ends array single readIndex =>
      rw [found] at found'
      cases found'
      exact .inl ⟨_, single, readIndex⟩
  | cell first' letter' last' found' ends array cut readRow readColumn =>
      rw [found] at found'
      cases found'
      exact .inr ⟨_, _, _, _, cut, readRow, readColumn⟩
  | name first' letter' last' read => exact absurd last last'

/-- What stands in front of a comma inside a group is no index. -/
theorem parse_front_ne_ok {front : Text} (deeper : ∀ depth, depth < front.foldl depthAfter depth) :
    parse front ≠ .ok o := by
  intro read
  exact absurd ((quiet_of_parse read).level 0) (deeper 0).ne'

theorem parse_display_ne_ok (named : o.isNamed) (nested : o.isColumnwise = false) (other : Operand) :
    parse o.display ≠ .ok other := by
  intro read
  induction o generalizing other with
  | element array index ih =>
      obtain ⟨identifier, within⟩ := Bool.and_eq_true_iff.mp named
      obtain ⟨front, behind, shown, first, deeper⟩ := exists_comma within nested
      have cut : index.display.cutAt ',' = some (front, behind) :=
        Text.cutAt_eq_some_iff.mpr ⟨shown, first⟩
      rw [display_element] at read
      rcases indices_of_parse identifier (nests_of_isNamed within) read with
        ⟨_, uncut, -⟩ | ⟨left, right, row, column, cut', readRow, -⟩
      · rw [cut] at uncut
        cases uncut
      · rw [cut] at cut'
        cases cut'
        exact parse_front_ne_ok deeper readRow
  | cell array row column rowIH columnIH =>
      simp only [isNamed, Bool.and_eq_true] at named
      obtain ⟨⟨identifier, namedRow⟩, namedColumn⟩ := named
      have nests := (nests_of_isNamed namedRow).comma (nests_of_isNamed namedColumn)
      rw [display_cell] at read
      rcases indices_of_parse identifier nests read with
        ⟨_, uncut, -⟩ | ⟨left, right, row', column', cut', readRow, readColumn⟩
      · exact Text.cutAt_eq_none_iff.mp uncut (by simp)
      · cases single : row.isSingle with
        | true =>
            rw [cutAt_indices namedRow single] at cut'
            cases cut'
            exact columnIH namedColumn (by simpa [isColumnwise, single] using nested) _ readColumn
        | false =>
            obtain ⟨front, behind, shown, first, deeper⟩ := exists_comma namedRow single
            have cut : (row.display ++ ',' :: column.display).cutAt ',' =
                some (front, behind ++ ',' :: column.display) :=
              Text.cutAt_eq_some_iff.mpr ⟨by simp [shown], first⟩
            rw [cut] at cut'
            cases cut'
            exact parse_front_ne_ok deeper readRow
  | _ => cases nested

/-! ### Reading back -/

/-- An operand whose two indices stand in columns only is read back from its text; the text of any other one
is rejected. -/
theorem parse_display_of_isNamed (named : o.isNamed) :
    (parse o.display = .ok o ↔ o.isColumnwise) ∧
      (o.isColumnwise = false → ∃ failure, parse o.display = .error failure) := by
  have rejected (nested : o.isColumnwise = false) : ∃ failure, parse o.display = .error failure := by
    cases read : parse o.display with
    | error failure => exact ⟨failure, rfl⟩
    | ok other => exact absurd read (parse_display_ne_ok named nested other)
  refine ⟨⟨fun read => ?_, parse_display_of_isColumnwise named⟩, rejected⟩
  by_contra nested
  exact parse_display_ne_ok named (Bool.eq_false_iff.mpr nested) o read

/-- `A(i,B(j,Sat.Earth.X))` -/
theorem parse_display_of_isNamed_column :
    let inner := cell "B".toList (var "j".toList) (parameter "Sat".toList "Earth.X".toList)
    let outer := cell "A".toList (var "i".toList) inner
    outer.isNamed ∧ (parse outer.display = .ok outer ↔ outer.isColumnwise) ∧ outer.isColumnwise := by
  intro inner outer
  have named : outer.isNamed := by rfl
  exact ⟨named, (parse_display_of_isNamed named).1, by rfl⟩

/-- `A(B(i,j),k)` is not read back. -/
theorem parse_display_row_ne_ok :
    let inner := cell "B".toList (var "i".toList) (var "j".toList)
    let outer := cell "A".toList inner (var "k".toList)
    outer.isNamed ∧ outer.display = "A(B(i,j),k)".toList ∧ parse outer.display ≠ .ok outer := by
  intro inner outer
  exact ⟨by rfl, by rfl, parse_display_ne_ok (by rfl) (by rfl) outer⟩

/-! ### Operands that were read -/

/-- A name has no indices. -/
theorem isSingle_of_ofName (read : ofName s = .ok o) : o.isSingle := by
  unfold ofName at read
  split at read
  all_goals
    split at read
    · cases read
      rfl
    · cases read

theorem isSingle_of_parse {s : Text} {o : Operand} (read : parse s = .ok o) (plain : ',' ∉ s) :
    o.isSingle := by
  have bound := Text.length_trim_le s
  have kept : ',' ∉ s.trim := fun member => plain ((trim_sublist s).subset member)
  have reads := reads_of_parse read
  generalize s.trim = text at bound kept reads
  cases reads with
  | number first digit found => rfl
  | @element c group index first letter last found ends array single readIndex =>
      have shorter := Bracket.length_content_of_scan found
      have inner : index.isSingle := isSingle_of_parse readIndex (Text.cutAt_eq_none_iff.mp single)
      exact inner
  | cell first letter last found ends array cut readRow readColumn =>
      rw [text_of_scan found, (Text.cutAt_eq_some_iff.mp cut).1] at kept
      simp at kept
  | name first letter last found => exact isSingle_of_ofName found
termination_by s.length

/-- Two indices are read in columns only. -/
theorem isColumnwise_of_parse {s : Text} {o : Operand} (read : parse s = .ok o) : o.isColumnwise := by
  have bound := Text.length_trim_le s
  have reads := reads_of_parse read
  generalize s.trim = text at bound reads
  cases reads with
  | number first digit found => rfl
  | element first letter last found ends array single readIndex =>
      exact isSingle_of_parse readIndex (Text.cutAt_eq_none_iff.mp single)
  | cell first letter last found ends array cut readRow readColumn =>
      have shorter := Bracket.length_content_of_scan found
      obtain ⟨shorterRow, shorterColumn⟩ := Text.length_of_cutAt cut
      have single := isSingle_of_parse readRow (Text.cutAt_eq_some_iff.mp cut).2
      exact Bool.and_eq_true_iff.mpr ⟨single, isColumnwise_of_parse readColumn⟩
  | name first letter last found => exact isColumnwise_of_isSingle (isSingle_of_ofName found)
termination_by s.length

/-- The text of an operand that was read, numbers apart, is read as the same operand. -/
theorem parse_display_of_parse (read : parse s = .ok o) (named : o.isNamed) :
    parse o.display = .ok o :=
  parse_display_of_isColumnwise named (isColumnwise_of_parse read)

end Operand

end MissionScript
