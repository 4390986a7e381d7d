import MissionScript.Text.Basic

/-!
# Tables

A table maps names to values. Its entries are kept in ascending order of their names, by code point,
so two tables with the same content are equal.
-/

namespace MissionScript

/-- Put an entry in its place among entries in ascending order. -/
def insertEntry (name : Text) (value : α) : List (Text × α) → List (Text × α)
  | [] => [(name, value)]
  | (other, held) :: rest =>
    if name < other then (name, value) :: (other, held) :: rest
    else if name = other then (name, value) :: rest
    else (other, held) :: insertEntry name value rest

/-- The names of the entries ascend. -/
def Ascending (entries : List (Text × α)) : Prop := entries.Pairwise fun a b => a.1 < b.1

theorem mem_insertEntry {name : Text} {value : α} {entries : List (Text × α)} {entry : Text × α}
    (member : entry ∈ insertEntry name value entries) : entry = (name, value) ∨ entry ∈ entries := by
  induction entries with
  | nil => simpa [insertEntry] using member
  | cons head rest ih =>
    obtain ⟨other, held⟩ := head
    simp only [insertEntry] at member
    split at member
    · simpa using member
    · split at member
      · simp only [List.mem_cons] at member ⊢
        exact member.imp_right Or.inr
      · simp only [List.mem_cons] at member ⊢
        rcases member with rfl | member
        · exact .inr (.inl rfl)
        · exact (ih member).imp_right Or.inr

theorem ascending_insertEntry {name : Text} {value : α} {entries : List (Text × α)}
    (ascending : Ascending entries) : Ascending (insertEntry name value entries) := by
  induction entries with
  | nil => simp [insertEntry, Ascending]
  | cons head rest ih =>
    obtain ⟨other, held⟩ := head
    have ⟨above, sorted⟩ := List.pairwise_cons.mp ascending
    simp only [insertEntry]
    split
    · rename_i before
      refine List.pairwise_cons.mpr ⟨fun entry member => ?_, ascending⟩
      rcases List.mem_cons.mp member with rfl | member
      · exact before
      · exact List.lt_trans before (above entry member)
    · split
      · rename_i same
        subst same
        exact List.pairwise_cons.mpr ⟨above, sorted⟩
      · rename_i notBefore different
        refine List.pairwise_cons.mpr ⟨fun entry member => ?_, ih sorted⟩
        rcases mem_insertEntry member with rfl | member
        · exact Decidable.byContradiction fun notAfter =>
            different (List.le_antisymm (List.not_lt.mp notAfter) (List.not_lt.mp notBefore))
        · exact above entry member

/-- A finite map from names to values. -/
structure Table (α : Type) where
  entries : List (Text × α)
  ascending : Ascending entries
deriving DecidableEq, Repr

namespace Table

variable {α β : Type}

def empty : Table α := ⟨[], .nil⟩

instance : Inhabited (Table α) := ⟨empty⟩

/-- The value held under a name. -/
def get? (table : Table α) (name : Text) : Option α := table.entries.lookup name

def contains (table : Table α) (name : Text) : Bool := (table.get? name).isSome

/-- Hold `value` under `name`, in place of what was held there. -/
def insert (table : Table α) (name : Text) (value : α) : Table α :=
  ⟨insertEntry name value table.entries, ascending_insertEntry table.ascending⟩

/-- Hold nothing under `name`. -/
def erase (table : Table α) (name : Text) : Table α :=
  ⟨table.entries.filter (·.1 != name), table.ascending.filter _⟩

/-- Later entries take the place of earlier ones of the same name. -/
def ofList (entries : List (Text × α)) : Table α :=
  entries.foldl (fun table entry => table.insert entry.1 entry.2) empty

/-- The names in ascending order. -/
def keys (table : Table α) : List Text := table.entries.map (·.1)

/-- The values in the order of their names. -/
def values (table : Table α) : List α := table.entries.map (·.2)

/-- Change every value. -/
def map (f : α → β) (table : Table α) : Table β where
  entries := table.entries.map fun entry => (entry.1, f entry.2)
  ascending := by simpa only [Ascending, List.pairwise_map] using table.ascending

theorem ext {left right : Table α} (same : left.entries = right.entries) : left = right := by
  cases left; cases right; cases same; rfl

end Table

end MissionScript
