import MissionScript.Proofs.Objects.Index
import MissionScript.Proofs.Objects.Table
import MissionScript.Proofs.Step

/-!
# Cells of arrays

An array has a parameter for every cell inside its rows and columns and for no cell outside of them, and whatever is
written keeps it so. Its elements then are memory: what an element addresses can be written exactly if it can be read,
it reads what has been written, and a write to one cell leaves all others alone.
-/

namespace MissionScript

/-! ## The parameters of cells -/

namespace Text

theorem isDigit_of_mem_ofNat {n : Nat} {c : Char} (member : c ∈ ofNat n) : c.isDigit :=
  Nat.isDigit_of_mem_toDigits (by decide) (by decide) member

theorem ofNat_inj {m n : Nat} : ofNat m = ofNat n ↔ m = n := by
  constructor
  · intro same
    have read := congrArg (Nat.ofDigitChars 10 · 0) same
    simpa only [ofNat, Nat.ofDigitChars_ten_toDigits] using read
  · exact congrArg ofNat

end Text

/-- The digits end in front of the comma and the parenthesis. -/
theorem cellParameter_inj {row column row' column' : Nat} :
    cellParameter row column = cellParameter row' column' ↔ row = row' ∧ column = column' := by
  have digits (n : Nat) (mark : Char) (rest : Text) (stops : mark.isDigit = false) :
      (Text.ofNat n ++ mark :: rest).takeWhile Char.isDigit = Text.ofNat n ∧
        (Text.ofNat n ++ mark :: rest).dropWhile Char.isDigit = mark :: rest := by
    rw [List.takeWhile_append_of_pos fun _ => Text.isDigit_of_mem_ofNat,
      List.dropWhile_append_of_pos fun _ => Text.isDigit_of_mem_ofNat]
    simp [stops]
  have shape (row column : Nat) : cellParameter row column =
      '(' :: (Text.ofNat row ++ ',' :: (Text.ofNat column ++ [')'])) := by
    simp [cellParameter]
  constructor
  · intro same
    rw [shape, shape, List.cons.injEq] at same
    have first := congrArg (List.takeWhile Char.isDigit) same.2
    have behind := congrArg (List.dropWhile Char.isDigit) same.2
    rw [(digits row ',' _ rfl).1, (digits row' ',' _ rfl).1] at first
    rw [(digits row ',' _ rfl).2, (digits row' ',' _ rfl).2, List.cons.injEq] at behind
    have second := congrArg (List.takeWhile Char.isDigit) behind.2
    rw [(digits column ')' _ rfl).1, (digits column' ')' _ rfl).1] at second
    exact ⟨Text.ofNat_inj.mp first, Text.ofNat_inj.mp second⟩
  · rintro ⟨rfl, rfl⟩
    rfl

theorem ne_cellParameter {field : Text} (plain : '(' ∉ field) (row column : Nat) :
    field ≠ cellParameter row column := by
  rintro rfl
  exact plain List.mem_cons_self

/-- A cell, counted from one, that lies inside so many rows and columns. -/
def InBounds (size cell : Nat × Nat) : Prop :=
  (1 ≤ cell.1 ∧ cell.1 ≤ size.1) ∧ 1 ≤ cell.2 ∧ cell.2 ≤ size.2

theorem Object.mem_cells {rows columns row column : Nat} :
    cellParameter row column ∈ cells rows columns ↔ InBounds (rows, columns) (row, column) := by
  simp only [cells, List.mem_flatMap, List.mem_map, List.mem_range, cellParameter_inj]
  constructor
  · rintro ⟨r, below, c, inside, rfl, rfl⟩
    exact ⟨⟨Nat.le_add_left 1 r, below⟩, Nat.le_add_left 1 c, inside⟩
  · rintro ⟨⟨first, below⟩, start, inside⟩
    exact ⟨row - 1, by omega, column - 1, by omega, by omega, by omega⟩

/-- A new array has the parameters of its cells. -/
theorem Object.isSome_parameter?_array {rows columns : Nat} {name : Text} :
    ((array rows columns).parameter? name).isSome ↔ name ∈ cells rows columns := by
  refine Table.contains_ofList.trans ?_
  rw [List.map_map, show (fun entry : Text × Float => entry.1) ∘ (·, 0) = id from rfl, List.map_id]
  exact List.mem_mergeSort

/-! ## Arrays that have their cells -/

/-- If the object is an array, it has a size, and a parameter for every cell inside and for no other. -/
def Object.Cellular (object : Object) : Prop :=
  object.typeName = arrayType → ∃ size, object.dimensions = some size ∧
    ∀ cell : Nat × Nat, (object.parameter? (cellParameter cell.1 cell.2)).isSome ↔ InBounds size cell

namespace Object.Cellular

variable {object : Object}

theorem array (rows columns : Nat) : (Object.array rows columns).Cellular := fun _ =>
  ⟨(rows, columns), rfl, fun _ => isSome_parameter?_array.trans mem_cells⟩

theorem ofType {typeName : Text} (other : typeName ≠ arrayType) : (Object.ofType typeName).Cellular :=
  fun same => absurd same other

theorem setSetting (cellular : object.Cellular) (name value : Text) : (object.setSetting name value).Cellular :=
  cellular

/-- A parameter that is there may be set, and one that does not stand for a cell. -/
theorem setParameter (cellular : object.Cellular) {field : Text} (value : Float)
    (kept : (object.parameter? field).isSome ∨ '(' ∉ field) : (object.setParameter field value).Cellular := by
  intro isArray
  obtain ⟨size, dimensions, held⟩ := cellular isArray
  refine ⟨size, dimensions, fun cell => ?_⟩
  rw [← held cell]
  have set : (object.setParameter field value).parameter? (cellParameter cell.1 cell.2) =
      if cellParameter cell.1 cell.2 = field then some value
      else object.parameter? (cellParameter cell.1 cell.2) := Table.get?_insert
  rw [set]
  split
  · rename_i here
    rw [here]
    rcases kept with there | plain
    · exact iff_of_true rfl there
    · exact absurd here.symm (ne_cellParameter plain _ _)
  · rfl

end Object.Cellular

namespace Store

variable {store next : Store} {name field : Text}

/-- All arrays have their cells. -/
def Cellular (store : Store) : Prop := ∀ name object, store.get? name = some object → object.Cellular

/-- The objects of the store stay in another one, with their types and sizes. -/
def KeepsShapes (store next : Store) : Prop :=
  ∀ name object, store.get? name = some object → ∃ later, next.get? name = some later ∧
    later.typeName = object.typeName ∧ later.dimensions = object.dimensions

theorem KeepsShapes.refl (store : Store) : store.KeepsShapes store := fun _ object held => ⟨object, held, rfl, rfl⟩

theorem KeepsShapes.trans {last : Store} (first : store.KeepsShapes next) (second : next.KeepsShapes last) :
    store.KeepsShapes last := by
  intro name object held
  obtain ⟨middle, there, type, dimensions⟩ := first name object held
  obtain ⟨later, here, type', dimensions'⟩ := second name middle there
  exact ⟨later, here, type'.trans type, dimensions'.trans dimensions⟩

theorem Cellular.insert (cellular : store.Cellular) {object : Object} (new : object.Cellular) :
    Cellular (store.insert name object) :=
  Table.forall_insert cellular new

/-- A change to one object that is neither of its type nor of its size. -/
theorem keepsShapes_insert {old object : Object} (held : store.get? name = some old)
    (type : object.typeName = old.typeName) (dimensions : object.dimensions = old.dimensions) :
    store.KeepsShapes (store.insert name object) := by
  intro other found there
  rw [Table.get?_insert]
  split
  · rename_i here
    subst here
    obtain rfl : old = found := Option.some.inj (held.symm.trans there)
    exact ⟨object, rfl, type, dimensions⟩
  · exact ⟨found, there, rfl, rfl⟩

theorem setParameter_eq_ok_iff {value : Float} : store.setParameter name field value = .ok next ↔
    ∃ object, store.get? name = some object ∧ next = store.insert name (object.setParameter field value) := by
  unfold setParameter modify?
  cases store.get? name with
  | none => simp
  | some object => simp [eq_comm]

/-- Setting a parameter that is there or that does not stand for a cell. -/
theorem Cellular.setParameter (cellular : store.Cellular) {value : Float}
    (kept : (store.parameter? name field).isSome ∨ '(' ∉ field)
    (written : store.setParameter name field value = .ok next) : next.Cellular ∧ store.KeepsShapes next := by
  obtain ⟨object, held, rfl⟩ := setParameter_eq_ok_iff.mp written
  have there : store.parameter? name field = object.parameter? field := by rw [parameter?, held, Option.bind_some]
  rw [there] at kept
  exact ⟨cellular.insert ((cellular name object held).setParameter value kept), keepsShapes_insert held rfl rfl⟩

theorem parameter?_of_setParameter {value : Float} (written : store.setParameter name field value = .ok next)
    (other parameter : Text) :
    next.parameter? other parameter =
      if other = name ∧ parameter = field then some value else store.parameter? other parameter := by
  obtain ⟨object, held, rfl⟩ := setParameter_eq_ok_iff.mp written
  unfold parameter?
  rw [Table.get?_insert]
  by_cases here : other = name
  · subst here
    rw [if_pos rfl, held, Option.bind_some, Option.bind_some, Object.parameter?, Object.setParameter,
      Table.get?_insert]
    simp only [true_and]
    rfl
  · rw [if_neg here, if_neg fun both => here both.1]

theorem get?_of_setParameter {value : Float} (written : store.setParameter name field value = .ok next)
    {other : Text} (away : other ≠ name) : next.get? other = store.get? other := by
  obtain ⟨object, -, rfl⟩ := setParameter_eq_ok_iff.mp written
  rw [Table.get?_insert, if_neg away]

theorem arraySize_of_setParameter {value : Float} (written : store.setParameter name field value = .ok next)
    (other : Text) : next.arraySize other = store.arraySize other := by
  by_cases here : other = name
  · obtain ⟨object, held, rfl⟩ := setParameter_eq_ok_iff.mp written
    rw [here, arraySize, arraySize, Table.get?_insert, if_pos rfl, held]
    rfl
  · rw [arraySize, arraySize, get?_of_setParameter written here]

theorem checkCell_eq_ok_iff {size cell : Nat × Nat} {row column : Nat} :
    checkCell name size row column = .ok cell ↔ (row ≤ size.1 ∧ column ≤ size.2) ∧ (row, column) = cell := by
  unfold checkCell
  by_cases outside : size.1 < row ∨ size.2 < column
  · have refused : (decide (size.1 < row) || decide (size.2 < column)) = true := by simpa using outside
    rw [if_pos refused]
    exact iff_of_false nofun fun inside => by omega
  · have admitted : ¬(decide (size.1 < row) || decide (size.2 < column)) = true := by simpa using outside
    rw [if_neg admitted, Except.ok.injEq, and_iff_right (by omega)]

/-- A single index goes along the only row or the only column. -/
theorem inBounds_of_cellOfIndex {size cell : Nat × Nat} {index : Nat} (positive : 1 ≤ index)
    (found : cellOfIndex name size index = .ok cell) : InBounds size cell := by
  unfold cellOfIndex at found
  split at found
  · obtain ⟨inside, rfl⟩ := checkCell_eq_ok_iff.mp found
    exact ⟨⟨Nat.le_refl 1, inside.1⟩, positive, inside.2⟩
  · split at found
    · obtain ⟨inside, rfl⟩ := checkCell_eq_ok_iff.mp found
      exact ⟨⟨positive, inside.1⟩, Nat.le_refl 1, inside.2⟩
    · cases found

theorem cellValue_eq_ok_iff {cell : Nat × Nat} {value : Float} : store.cellValue name cell = .ok value ↔
    store.parameter? name (cellParameter cell.1 cell.2) = some value := by
  unfold cellValue
  cases store.parameter? name (cellParameter cell.1 cell.2) with
  | none => simp
  | some held => simp

theorem arraySize_eq_ok_iff {size : Nat × Nat} : store.arraySize name = .ok size ↔
    ∃ object, store.get? name = some object ∧ object.typeName = arrayType ∧
      object.dimensions.getD (0, 0) = size := by
  unfold arraySize
  cases store.get? name with
  | none => simp
  | some object =>
      dsimp only
      split
      · rename_i isArray
        simp [isArray]
      · rename_i other
        simp [other]

/-- Where all arrays have their cells, the cells inside an array are those that can be read. -/
theorem Cellular.isSome_parameter?_iff (cellular : store.Cellular) {size : Nat × Nat}
    (found : store.arraySize name = .ok size) (cell : Nat × Nat) :
    (store.parameter? name (cellParameter cell.1 cell.2)).isSome ↔ InBounds size cell := by
  obtain ⟨object, held, isArray, rfl⟩ := arraySize_eq_ok_iff.mp found
  obtain ⟨size, dimensions, cells⟩ := cellular name object held isArray
  rw [parameter?, held, Option.bind_some, dimensions, Option.getD_some]
  exact cells cell

end Store

/-! ## Elements as memory -/

namespace Operand

variable {store next : Store} {o : Operand} {array : Text} {address : Except ValueError (Nat × Nat)}
  {cell : Nat × Nat} {new : Float}

/-- The array of which an operand is an element, and the cell that its indices give. -/
def address? (store : Store) : Operand → Option (Text × Except ValueError (Nat × Nat))
  | element array index => some (array, do
    let size ← Store.arraySize store array
    let index ← indexOf (← index.value store)
    Store.cellOfIndex array size index)
  | .cell array row column => some (array, do
    let size ← Store.arraySize store array
    let row ← indexOf (← row.value store)
    let column ← indexOf (← column.value store)
    Store.checkCell array size row column)
  | number _ | var _ | parameter _ _ => none

/-- The objects that the indices of an element mention. -/
def indexNames : Operand → List Text
  | element _ index => index.names
  | .cell _ row column => row.names ++ column.names
  | number _ | var _ | parameter _ _ => []

/-- An element is read at its address. -/
theorem value_of_address? (own : o.address? store = some (array, address)) :
    o.value store = address >>= store.cellValue array := by
  cases o with
  | element name index =>
      cases own
      simp only [value, bind_assoc]
  | cell name row column =>
      cases own
      simp only [value, bind_assoc]
  | _ => cases own

/-- An element is written at its address. -/
theorem assign_of_address? (own : o.address? store = some (array, address)) :
    o.assign store new = address >>= fun cell =>
      store.setParameter array (cellParameter cell.1 cell.2) new := by
  cases o with
  | element name index =>
      cases own
      simp only [assign, bind_assoc]
  | cell name row column =>
      cases own
      simp only [assign, bind_assoc]
  | _ => cases own

/-- What an element addresses lies inside its array. -/
theorem inBounds_of_address? (own : o.address? store = some (array, .ok cell)) :
    ∃ size, store.arraySize array = .ok size ∧ InBounds size cell := by
  cases o with
  | element name index =>
      obtain ⟨rfl, found⟩ := Prod.mk.injEq .. ▸ Option.some.inj own
      obtain ⟨size, sized, rest⟩ := Outcome.bind_eq_ok_iff.mp found
      obtain ⟨_, _, rest⟩ := Outcome.bind_eq_ok_iff.mp rest
      obtain ⟨index, whole, inside⟩ := Outcome.bind_eq_ok_iff.mp rest
      exact ⟨size, sized, Store.inBounds_of_cellOfIndex (one_le_of_indexOf whole) inside⟩
  | cell name row column =>
      obtain ⟨rfl, found⟩ := Prod.mk.injEq .. ▸ Option.some.inj own
      obtain ⟨size, sized, rest⟩ := Outcome.bind_eq_ok_iff.mp found
      obtain ⟨_, _, rest⟩ := Outcome.bind_eq_ok_iff.mp rest
      obtain ⟨row, wholeRow, rest⟩ := Outcome.bind_eq_ok_iff.mp rest
      obtain ⟨_, _, rest⟩ := Outcome.bind_eq_ok_iff.mp rest
      obtain ⟨column, wholeColumn, rest⟩ := Outcome.bind_eq_ok_iff.mp rest
      obtain ⟨inside, rfl⟩ := Store.checkCell_eq_ok_iff.mp rest
      exact ⟨size, sized, ⟨one_le_of_indexOf wholeRow, inside.1⟩, one_le_of_indexOf wholeColumn, inside.2⟩
  | _ => cases own

/-- What an element addresses is there. -/
theorem isSome_of_address? (cellular : store.Cellular) (own : o.address? store = some (array, .ok cell)) :
    (store.parameter? array (cellParameter cell.1 cell.2)).isSome := by
  obtain ⟨size, sized, inside⟩ := inBounds_of_address? own
  exact (cellular.isSome_parameter?_iff sized cell).mpr inside

/-- A value comes from the objects that the operand mentions. -/
theorem value_congr (same : ∀ name ∈ o.names, next.get? name = store.get? name) :
    o.value next = o.value store := by
  induction o with
  | number value => rfl
  | var name => rw [value, value, Store.variableNamed, Store.variableNamed, same name List.mem_cons_self]
  | parameter owner field => rw [value, value, same owner List.mem_cons_self]
  | element array index ih =>
      obtain ⟨own, inner⟩ := List.forall_mem_cons.mp same
      simp only [value, Store.arraySize, Store.cellValue, Store.parameter?, own, ih inner]
  | cell array row column rowIH columnIH =>
      obtain ⟨own, inner⟩ := List.forall_mem_cons.mp same
      obtain ⟨ofRow, ofColumn⟩ := List.forall_mem_append.mp inner
      simp only [value, Store.arraySize, Store.cellValue, Store.parameter?, own, rowIH ofRow, columnIH ofColumn]

/-- An element addresses the same cell as long as its array has the same size and its indices mention nothing that
has changed. -/
theorem address?_congr (own : o.address? store = some (array, address))
    (size : next.arraySize array = store.arraySize array)
    (same : ∀ name ∈ o.indexNames, next.get? name = store.get? name) :
    o.address? next = some (array, address) := by
  cases o with
  | element name index =>
      cases own
      rw [address?, size, value_congr same]
  | cell name row column =>
      cases own
      obtain ⟨ofRow, ofColumn⟩ := List.forall_mem_append.mp same
      rw [address?, size, value_congr ofRow, value_congr ofColumn]
  | _ => cases own

/-- Where all arrays have their cells, an element can be written exactly if it can be read. -/
theorem exists_assign_iff (cellular : store.Cellular) (own : o.address? store = some (array, address)) :
    (∃ next, o.assign store new = .ok next) ↔ ∃ old, o.value store = .ok old := by
  rw [assign_of_address? own, value_of_address? own]
  cases address with
  | error e => exact iff_of_false nofun nofun
  | ok cell =>
      obtain ⟨old, held⟩ := Option.isSome_iff_exists.mp (isSome_of_address? cellular own)
      obtain ⟨object, there, -⟩ := Option.bind_eq_some_iff.mp held
      exact iff_of_true ⟨_, Store.setParameter_eq_ok_iff.mpr ⟨object, there, rfl⟩⟩
        ⟨old, Store.cellValue_eq_ok_iff.mpr held⟩

section

variable (own : o.address? store = some (array, address)) (written : o.assign store new = .ok next)

include own written

theorem exists_of_assign : ∃ cell, address = .ok cell ∧
    store.setParameter array (cellParameter cell.1 cell.2) new = .ok next :=
  Outcome.bind_eq_ok_iff.mp ((assign_of_address? own).symm.trans written)

/-- An element whose indices do not mention its array reads what has been written to it. -/
theorem value_of_assign (apart : array ∉ o.indexNames) : o.value next = .ok new := by
  obtain ⟨cell, rfl, stored⟩ := exists_of_assign own written
  have still : o.address? next = some (array, .ok cell) :=
    address?_congr own (Store.arraySize_of_setParameter stored array) fun name member =>
      Store.get?_of_setParameter stored fun same => apart (same ▸ member)
  rw [value_of_address? still]
  refine Store.cellValue_eq_ok_iff.mpr ?_
  rw [Store.parameter?_of_setParameter stored, if_pos ⟨rfl, rfl⟩]

/-- A write to an element changes the cell that it addresses and nothing else. -/
theorem exists_changed_of_assign : ∃ cell, address = .ok cell ∧
    (∀ other place, (other, place) ≠ (array, cell) →
      next.cellValue other place = store.cellValue other place) ∧
    ∀ other, other ≠ array → next.get? other = store.get? other := by
  obtain ⟨cell, rfl, stored⟩ := exists_of_assign own written
  refine ⟨cell, rfl, fun other place away => ?_, fun other => Store.get?_of_setParameter stored⟩
  unfold Store.cellValue
  rw [Store.parameter?_of_setParameter stored, if_neg]
  rintro ⟨rfl, same⟩
  obtain ⟨row, column⟩ := cellParameter_inj.mp same
  exact away (Prod.ext rfl (Prod.ext row column))

end

/-! ## What keeps the cells -/

/-- The operand does not name a cell as a parameter of its array. -/
def SparesCells : Operand → Prop
  | parameter _ field => '(' ∉ field
  | number _ | var _ | element .. | .cell .. => True

/-- Writing to an operand keeps the cells of all arrays: an element is there already, and no other operand stands for
a cell. -/
theorem cellular_of_assign (cellular : store.Cellular) (spares : o.SparesCells)
    (written : o.assign store new = .ok next) : next.Cellular ∧ store.KeepsShapes next := by
  have element {array : Text} {address : Except ValueError (Nat × Nat)}
      (own : o.address? store = some (array, address)) : next.Cellular ∧ store.KeepsShapes next := by
    obtain ⟨cell, rfl, stored⟩ := exists_of_assign own written
    exact cellular.setParameter (.inl (isSome_of_address? cellular own)) stored
  cases o with
  | number value => cases written
  | var name =>
      obtain ⟨_, _, stored⟩ := Outcome.bind_eq_ok_iff.mp written
      exact cellular.setParameter (.inr (by decide)) stored
  | parameter owner field => exact cellular.setParameter (.inr spares) written
  | element array index => exact element rfl
  | cell array row column => exact element rfl

end Operand

end MissionScript
