import Mathlib.Data.List.Forall2
import Mathlib.Data.List.Sort
import MissionScript.Objects.Store

/-!
# Looking up entries

What a table holds under a name after an entry has been put in or taken out. A table is what it holds:
two tables that hold the same under every name are equal.
-/

namespace MissionScript

theorem lookup_cons_eq {α : Type} (held : Text) (value : α) (rest : List (Text × α)) (name : Text) :
    ((held, value) :: rest).lookup name = if name = held then some value else rest.lookup name := by
  by_cases same : name = held
  · simp [same]
  · simp [List.lookup_cons, beq_eq_false_iff_ne.mpr same, same]

theorem lookup_insertEntry {α : Type} (name : Text) (value : α) (entries : List (Text × α))
    (other : Text) :
    (insertEntry name value entries).lookup other =
      if other = name then some value else entries.lookup other := by
  induction entries with
  | nil => rw [insertEntry, lookup_cons_eq]
  | cons entry rest ih =>
      obtain ⟨held, old⟩ := entry
      rw [insertEntry]
      split
      · rw [lookup_cons_eq]
      · split
        · rename_i found
          subst found
          rw [lookup_cons_eq, lookup_cons_eq]
          split <;> rfl
        · rename_i different
          rw [lookup_cons_eq, lookup_cons_eq, ih]
          by_cases same : other = held
          · have away : other ≠ name := fun equal => different (equal.symm.trans same)
            rw [if_pos same, if_neg away, if_pos same]
          · rw [if_neg same, if_neg same]

namespace Table

variable {α : Type} {table : Table α} {name other : Text} {value : α}

theorem get?_insert :
    (table.insert name value).get? other = if other = name then some value else table.get? other :=
  lookup_insertEntry name value table.entries other

/-- What holds of all that a table holds and of a new value holds after the new one has been put in. -/
theorem forall_insert {holds : Text → α → Prop} (each : ∀ name value, table.get? name = some value → holds name value)
    (new : holds name value) :
    ∀ other found, (table.insert name value).get? other = some found → holds other found := by
  intro other found got
  rw [get?_insert] at got
  split at got
  · rename_i here
    cases got
    exact here ▸ new
  · exact each other found got

theorem contains_insert :
    (table.insert name value).contains other = (decide (other = name) || table.contains other) := by
  rw [contains, get?_insert]
  by_cases same : other = name <;> simp [same, contains]

theorem contains_insert_of_contains (held : table.contains other) :
    (table.insert name value).contains other := by
  rw [contains_insert, held, Bool.or_true]

theorem contains_iff : table.contains name ↔ ∃ value, table.get? name = some value :=
  Option.isSome_iff_exists

theorem contains_ofList {entries : List (Text × α)} :
    (ofList entries).contains name ↔ name ∈ entries.map (·.1) := by
  have put (held : Table α) : (entries.foldl (fun table entry => table.insert entry.1 entry.2) held).contains name ↔
      name ∈ entries.map (·.1) ∨ held.contains name := by
    induction entries generalizing held with
    | nil => simp
    | cons entry rest ih =>
        rw [List.foldl_cons, ih, contains_insert, List.map_cons, List.mem_cons, Bool.or_eq_true, decide_eq_true_iff,
          or_left_comm, or_assoc]
  exact (put empty).trans (or_iff_left Bool.false_ne_true)

theorem get?_erase :
    (table.erase name).get? other = if other = name then none else table.get? other := by
  unfold get? erase
  dsimp only
  induction table.entries with
  | nil => simp
  | cons entry rest ih =>
      obtain ⟨held, value⟩ := entry
      by_cases here : held = name
      · rw [List.filter_cons_of_neg (by simp [here]), ih, lookup_cons_eq, here]
        by_cases same : other = name
        · rw [if_pos same, if_pos same]
        · rw [if_neg same, if_neg same, if_neg same]
      · rw [List.filter_cons_of_pos (by simp [here]), lookup_cons_eq, lookup_cons_eq, ih]
        by_cases same : other = held
        · rw [if_pos same, if_pos same, if_neg (same ▸ here)]
        · rw [if_neg same, if_neg same]

theorem mem_entries_of_get? (held : table.get? name = some value) : (name, value) ∈ table.entries := by
  unfold get? at held
  generalize table.entries = entries at held
  induction entries with
  | nil => cases held
  | cons entry rest ih =>
      obtain ⟨first, old⟩ := entry
      rw [lookup_cons_eq] at held
      split at held
      · rename_i same
        cases held
        rw [same]
        exact List.mem_cons_self
      · exact List.mem_cons_of_mem _ (ih held)

theorem get?_of_mem_entries (member : (name, value) ∈ table.entries) : table.get? name = some value := by
  obtain ⟨before, behind, whole⟩ := List.append_of_mem member
  refine List.lookup_eq_some_iff.mpr ⟨before, behind, whole, fun entry inside => ?_⟩
  have ascending := table.ascending
  rw [whole] at ascending
  have below := (List.pairwise_append.mp ascending).2.2 entry inside (name, value) List.mem_cons_self
  simpa using fun same : name = entry.1 => List.lt_irrefl name (same ▸ below)

theorem ext_get? {left right : Table α} (same : ∀ name, left.get? name = right.get? name) :
    left = right := by
  have below : Std.Antisymm fun a b : Text × α => a.1 < b.1 :=
    ⟨fun a b before after => (List.lt_irrefl a.1 (List.lt_trans before after)).elim⟩
  have irrefl : Std.Irrefl fun a b : Text × α => a.1 < b.1 := ⟨fun a => List.lt_irrefl a.1⟩
  refine ext (left.ascending.eq_of_mem_iff right.ascending fun (name, value) => ?_)
  constructor
  · exact fun member => mem_entries_of_get? ((same name).symm.trans (get?_of_mem_entries member))
  · exact fun member => mem_entries_of_get? ((same name).trans (get?_of_mem_entries member))

/-! ## Tables with the same names -/

section

variable {β : Type} {left : Table α} {right : Table β}

theorem mem_keys_iff {name : Text} : name ∈ left.keys ↔ left.contains name := by
  rw [contains_iff]
  constructor
  · intro member
    obtain ⟨⟨_, value⟩, inside, rfl⟩ := List.mem_map.mp member
    exact ⟨value, get?_of_mem_entries inside⟩
  · rintro ⟨value, held⟩
    exact List.mem_map.mpr ⟨_, mem_entries_of_get? held, rfl⟩

/-- Tables that hold something under the same names have the same names in the same order. -/
theorem keys_eq (same : ∀ name, left.contains name = right.contains name) :
    left.keys = right.keys := by
  have below : Std.Antisymm fun a b : Text => a < b :=
    ⟨fun a b before after => (List.lt_irrefl a (List.lt_trans before after)).elim⟩
  have irrefl : Std.Irrefl fun a b : Text => a < b := ⟨fun a => List.lt_irrefl a⟩
  have first : left.keys.Pairwise (· < ·) := List.pairwise_map.mpr left.ascending
  have second : right.keys.Pairwise (· < ·) := List.pairwise_map.mpr right.ascending
  refine first.eq_of_mem_iff second fun name => ?_
  rw [mem_keys_iff, mem_keys_iff, same]

/-- Tables whose values are related under every name have related entries. -/
theorem forall₂_entries {R : Text → α → β → Prop}
    (each : ∀ name, Option.Rel (R name) (left.get? name) (right.get? name)) :
    List.Forall₂ (fun x y => x.1 = y.1 ∧ R x.1 x.2 y.2) left.entries right.entries := by
  have keys : left.keys = right.keys := by
    refine keys_eq fun name => ?_
    have related := each name
    unfold contains
    generalize left.get? name = x at related ⊢
    generalize right.get? name = y at related ⊢
    cases related with
    | none => rfl
    | some => rfl
  have paired : List.Forall₂ (fun x y => x.1 = y.1) left.entries right.entries := by
    unfold Table.keys at keys
    rw [← List.forall₂_eq_eq_eq, List.forall₂_map_left_iff, List.forall₂_map_right_iff] at keys
    exact keys
  rw [List.forall₂_iff_zip] at paired ⊢
  refine ⟨paired.1, fun {x y} zipped => ⟨paired.2 zipped, ?_⟩⟩
  obtain ⟨inLeft, inRight⟩ := List.of_mem_zip zipped
  have related := each x.1
  rw [get?_of_mem_entries inLeft, paired.2 zipped, get?_of_mem_entries inRight] at related
  cases related with
  | some holds => exact (paired.2 zipped).symm ▸ holds

end

end Table

end MissionScript
