import MissionScript.Command.Basic
import MissionScript.Proofs.Renaming.Condition

/-!
# Renaming and the arguments of commands

A renamed argument text reads as the renamed arguments, as long as the renaming does not touch what
the arguments hold besides names.
-/

namespace MissionScript

open Lettered

variable {ρ : Renaming} {s t : Text}

theorem Operand.isNumber_rename (old new : Text) (o : Operand) :
    (o.rename old new).isNumber = o.isNumber := by
  cases o <;> rfl

/-! ### Ranges -/

/-- Every bound of the range can be renamed. -/
def LoopRange.Renamable (ρ : Renaming) (r : LoopRange) : Prop :=
  ∀ e ∈ r.expressions, e.Renamable ρ

theorem LoopRange.parse_renamed {r : LoopRange} (read : LoopRange.parse s = .ok r)
    (renamable : r.Renamable ρ) (related : Renamed ρ false s t) :
    LoopRange.parse t = .ok (r.rename ρ.old ρ.new) := by
  unfold LoopRange.parse at read ⊢
  cases cut : s.cutAt '=' with
  | none =>
      simp only [cut] at read
      cases read
  | some x =>
      obtain ⟨index, range⟩ := x
      obtain ⟨index', range', cut', left, right⟩ := related.cutAt_some rfl cut
      simp only [cut] at read
      simp only [cut']
      obtain ⟨o, readIndex, read⟩ := Outcome.bind_eq_ok_iff.mp read
      rw [Outcome.mapError_eq_ok_iff] at readIndex
      have readIndex' := (Operand.parse_renamed readIndex left).1
      refine Outcome.bind_eq_ok_iff.mpr ⟨_, Outcome.mapError_eq_ok_iff.mpr readIndex', ?_⟩
      rw [Operand.isNumber_rename]
      split at read
      · cases read
      rename_i named
      rw [if_neg named]
      have bound {text text' : Text} {e : Expression}
          (read : (Expression.parse text).mapError ArgumentError.expression = .ok e)
          (member : e ∈ r.expressions) (related : Renamed ρ false text text') :
          (Expression.parse text').mapError ArgumentError.expression =
            .ok (e.rename ρ.old ρ.new) := by
        rw [Outcome.mapError_eq_ok_iff] at read ⊢
        exact (Expression.parse_renamed read (renamable e member) related).1
      have pieces : List.Forall₂ (Renamed ρ false) (range.splitOn ':') (range'.splitOn ':') :=
        right.splitOnP (separates_char rfl (by decide))
      split at read
      · rename_i start stop pair
        rw [pair] at pieces
        obtain ⟨start', _, first, rest, same⟩ := List.forall₂_cons_left_iff.mp pieces
        obtain ⟨stop', _, second, empty, rfl⟩ := List.forall₂_cons_left_iff.mp rest
        cases empty
        rw [same]
        obtain ⟨lowest, readStart, read⟩ := Outcome.bind_eq_ok_iff.mp read
        obtain ⟨last, readStop, read⟩ := Outcome.bind_eq_ok_iff.mp read
        cases read
        refine Outcome.bind_eq_ok_iff.mpr ⟨_, bound readStart (by simp [LoopRange.expressions]) first, ?_⟩
        exact Outcome.bind_eq_ok_iff.mpr ⟨_, bound readStop (by simp [LoopRange.expressions]) second, rfl⟩
      · rename_i start step stop triple
        rw [triple] at pieces
        obtain ⟨start', _, first, rest, same⟩ := List.forall₂_cons_left_iff.mp pieces
        obtain ⟨step', _, second, more, rfl⟩ := List.forall₂_cons_left_iff.mp rest
        obtain ⟨stop', _, third, empty, rfl⟩ := List.forall₂_cons_left_iff.mp more
        cases empty
        rw [same]
        obtain ⟨lowest, readStart, read⟩ := Outcome.bind_eq_ok_iff.mp read
        obtain ⟨width, readStep, read⟩ := Outcome.bind_eq_ok_iff.mp read
        obtain ⟨last, readStop, read⟩ := Outcome.bind_eq_ok_iff.mp read
        cases read
        refine Outcome.bind_eq_ok_iff.mpr ⟨_, bound readStart (by simp [LoopRange.expressions]) first, ?_⟩
        refine Outcome.bind_eq_ok_iff.mpr ⟨_, bound readStep (by simp [LoopRange.expressions]) second, ?_⟩
        exact Outcome.bind_eq_ok_iff.mpr ⟨_, bound readStop (by simp [LoopRange.expressions]) third, rfl⟩
      · cases read

/-! ### Solver loops -/

theorem insertEntry_map {α β : Type} (f : α → β) (name : Text) (value : α)
    (entries : List (Text × α)) :
    (insertEntry name value entries).map (fun entry => (entry.1, f entry.2)) =
      insertEntry name (f value) (entries.map fun entry => (entry.1, f entry.2)) := by
  induction entries with
  | nil => rfl
  | cons entry entries ih =>
      simp only [insertEntry, List.map_cons]
      split
      · rfl
      · split
        · rfl
        · rw [List.map_cons, ih]

namespace Table

variable {α β : Type}

theorem map_insert (f : α → β) (table : Table α) (name : Text) (value : α) :
    (table.insert name value).map f = (table.map f).insert name (f value) :=
  Table.ext (insertEntry_map f name value table.entries)

theorem map_eq_self {f : α → α} {table : Table α} (kept : ∀ value ∈ table.values, f value = value) :
    table.map f = table := by
  have same : ∀ entry ∈ table.entries, (entry.1, f entry.2) = id entry := fun entry member =>
    congrArg (entry.1, ·) (kept entry.2 (List.mem_map_of_mem member))
  exact Table.ext ((List.map_congr_left same).trans (List.map_id _))

end Table

/-- Nothing but the solver of the loop has the old name, and the texts of the options stay. -/
structure SolverLoop.Renamable (ρ : Renaming) (loop : SolverLoop) : Prop where
  options : ∀ o : SolverOption, o.name ≠ ρ.old
  modes : ∀ m : SolveMode, m.name ≠ ρ.old
  values : ∀ value ∈ loop.options.values, ρ.text value = value

namespace SolverLoop

/-- The loop after the renaming of its text. -/
def renamed (ρ : Renaming) (loop : SolverLoop) : SolverLoop where
  solver := ρ.word false loop.solver
  mode := loop.mode
  options := loop.options.map ρ.text

theorem setOption_renamed {loop loop' : SolverLoop} {o : SolverOption} {written written' : Text}
    (modes : ∀ m : SolveMode, m.name ≠ ρ.old) (set : loop.setOption o written = .ok loop')
    (related : Renamed ρ false written written') :
    (loop.renamed ρ).setOption o written' = .ok (loop'.renamed ρ) := by
  have inserted : (loop.options.insert o.name written).map ρ.text =
      (loop.options.map ρ.text).insert o.name written' := by
    rw [Table.map_insert, ← related.eq_text]
  cases o with
  | exitMode =>
      cases set
      exact congrArg Except.ok (congrArg (SolverLoop.mk _ _) inserted.symm)
  | showProgressWindow =>
      cases set
      exact congrArg Except.ok (congrArg (SolverLoop.mk _ _) inserted.symm)
  | solveMode =>
      simp only [setOption] at set ⊢
      cases found : SolveMode.ofName? written with
      | none =>
          rw [found] at set
          cases set
      | some mode =>
          rw [found] at set
          cases set
          have same : mode.name = written := by simpa using List.find?_some found
          have identifier : mode.name.isIdentifier := by cases mode <;> decide
          have kept : written' = written := by
            rw [related.eq_word_of_isIdentifier (same ▸ identifier)]
            exact Renaming.word_of_ne (same ▸ modes mode)
          rw [kept] at inserted ⊢
          rw [found]
          exact congrArg Except.ok (congrArg (SolverLoop.mk _ _) inserted.symm)

theorem addEntry_renamed {loop loop' : SolverLoop} {entry entry' : Text}
    (options : ∀ o : SolverOption, o.name ≠ ρ.old) (modes : ∀ m : SolveMode, m.name ≠ ρ.old)
    (added : loop.addEntry entry = .ok loop') (related : Renamed ρ false entry entry') :
    (loop.renamed ρ).addEntry entry' = .ok (loop'.renamed ρ) := by
  unfold addEntry at added ⊢
  cases cut : entry.cutAt '=' with
  | none =>
      simp only [cut] at added
      cases added
  | some x =>
      obtain ⟨key, written⟩ := x
      obtain ⟨key', written', cut', left, right⟩ := related.cutAt_some rfl cut
      simp only [cut] at added
      simp only [cut']
      cases found : SolverOption.ofName? key.trim with
      | none =>
          rw [found] at added
          cases added
      | some o =>
          rw [found] at added
          have same : o.name = key.trim := by simpa using List.find?_some found
          have identifier : o.name.isIdentifier := by cases o <;> decide
          have kept : key'.trim = key.trim := by
            rw [left.trim.eq_word_of_isIdentifier (same ▸ identifier)]
            exact Renaming.word_of_ne (same ▸ options o)
          rw [kept, found]
          exact setOption_renamed modes added right.trim

theorem addEntries_renamed {loop loop' : SolverLoop} {entries entries' : List Text}
    (options : ∀ o : SolverOption, o.name ≠ ρ.old) (modes : ∀ m : SolveMode, m.name ≠ ρ.old)
    (added : entries.foldlM addEntry loop = .ok loop')
    (related : List.Forall₂ (Renamed ρ false) entries entries') :
    entries'.foldlM addEntry (loop.renamed ρ) = .ok (loop'.renamed ρ) := by
  induction related generalizing loop with
  | nil =>
      cases added
      rfl
  | cons head tail ih =>
      rw [List.foldlM_cons] at added ⊢
      obtain ⟨middle, first, rest⟩ := Outcome.bind_eq_ok_iff.mp added
      exact Outcome.bind_eq_ok_iff.mpr ⟨_, addEntry_renamed options modes first head, ih rest⟩

theorem split_renamed {x : Text × Option Text} (read : split s = .ok x)
    (related : Renamed ρ false s t) :
    ∃ y, split t = .ok y ∧ Renamed ρ false x.1 y.1 ∧ Option.Rel (Renamed ρ false) x.2 y.2 := by
  unfold split at read ⊢
  obtain ⟨pieces, cut, read⟩ := Outcome.bind_eq_ok_iff.mp read
  rw [Outcome.mapError_eq_ok_iff] at cut
  obtain ⟨pieces', cut', both⟩ := related.decompose_ok cut
  split at read
  · cases read
  · rename_i solver
    cases read
    obtain ⟨solver', _, first, empty, rfl⟩ := List.forall₂_cons_left_iff.mp both
    cases empty
    exact ⟨(solver', none),
      Outcome.bind_eq_ok_iff.mpr ⟨_, Outcome.mapError_eq_ok_iff.mpr cut', rfl⟩, first, .none⟩
  · rename_i solver options
    obtain ⟨solver', _, first, more, rfl⟩ := List.forall₂_cons_left_iff.mp both
    obtain ⟨options', _, second, empty, rfl⟩ := List.forall₂_cons_left_iff.mp more
    cases empty
    split at read
    · rename_i opens
      cases read
      refine ⟨(solver', some options'),
        Outcome.bind_eq_ok_iff.mpr ⟨_, Outcome.mapError_eq_ok_iff.mpr cut', ?_⟩, first, .some second⟩
      rw [← second.head?_beq rfl] at opens
      exact if_pos opens
    · cases read
  · cases read

/-- A renamed text reads as the renamed loop. -/
theorem parse_renamed {loop : SolverLoop} (read : SolverLoop.parse s = .ok loop)
    (options : ∀ o : SolverOption, o.name ≠ ρ.old) (modes : ∀ m : SolveMode, m.name ≠ ρ.old)
    (related : Renamed ρ false s t) :
    SolverLoop.parse t = .ok (loop.renamed ρ) := by
  unfold parse at read ⊢
  obtain ⟨⟨solver, block⟩, cut, read⟩ := Outcome.bind_eq_ok_iff.mp read
  obtain ⟨⟨solver', block'⟩, cut', first, second⟩ := split_renamed cut related
  refine Outcome.bind_eq_ok_iff.mpr ⟨_, cut', ?_⟩
  dsimp only at read ⊢
  split at read
  · cases read
  rename_i named
  rw [Bool.not_eq_true, Bool.not_eq_false'] at named
  have solves : solver' = ρ.word false solver := first.eq_word_of_isIdentifier named
  have named' : solver'.isIdentifier := solves ▸ Renaming.isIdentifier_word named
  rw [named', if_neg (by simp)]
  cases second with
  | none =>
      cases read
      rw [renamed, solves]
      rfl
  | some block =>
      obtain ⟨entries, cut, read⟩ := Outcome.bind_eq_ok_iff.mp read
      rw [Outcome.mapError_eq_ok_iff] at cut
      obtain ⟨entries', cut', both⟩ :=
        block.separateGroup (separates_isDelimiter (by decide) (by decide)) cut
      refine Outcome.bind_eq_ok_iff.mpr ⟨_, Outcome.mapError_eq_ok_iff.mpr cut', ?_⟩
      rw [solves]
      exact addEntries_renamed options modes read both

end SolverLoop

end MissionScript
