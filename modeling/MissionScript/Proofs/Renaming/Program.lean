import MissionScript.Proofs.Renaming.World
import MissionScript.Proofs.Sequence.Rewriting

/-!
# Programs under another name

A program and the one with every command renamed run side by side from renamed worlds. If no solver is
started inside its own loop, this stays so.
-/

namespace MissionScript

namespace Command

variable {c : Command} {old new : Text}

/-- The renamed command starts the renamed solver. -/
theorem starts?_afterRename :
    (c.afterRename .any old new).starts? = c.starts?.map (Text.renamed old new) := by
  have bodies : c.body.Renames old new (c.afterRename .any old new).body := c.renames_afterRename
  unfold starts?
  generalize c.body = before at bodies
  generalize (c.afterRename .any old new).body = after at bodies
  cases bodies <;> rfl

/-- A command that does not refer to an object does not start it. -/
theorem ne_of_starts {name solver : Text} (avoids : c.body.Avoids name) (starts : solver ∈ c.starts?) :
    solver ≠ name := by
  unfold starts? at starts
  split at starts
  · rename_i l body
    cases starts
    rw [body] at avoids
    exact avoids
  · cases starts

end Command

namespace Program

/-- What holds of a branch, the command that ends it and those behind. -/
theorem forall_mem_branch {holds : Command → Prop} {body next : List Command} {closer : Command} :
    (∀ c ∈ body ++ closer :: next, holds c) ↔
      (∀ c ∈ body, holds c) ∧ holds closer ∧ ∀ c ∈ next, holds c := by
  rw [List.forall_mem_append, List.forall_mem_cons]

variable {old new : Text}

/-- The program with every command renamed. -/
def renamed (old new : Text) (program : Program) : Program :=
  program.map (·.afterRename .any old new) fun c => c.kind_afterRename

/-! ## Runs -/

section

variable {used : List Text} {t : Terms}

theorem size_renamed (program : Program) : (program.renamed old new).size = program.size := by
  rw [size, renamed, commands_map, List.length_map, size]

/-- The program runs as the renamed one does, at whatever position. -/
def Mirrored (old new : Text) (used : List Text) (t : Terms) (program : Program) : Prop :=
  ∀ position : Nat, Direct.Mirrors old new used (program.run t position)
    ((program.renamed old new).run t position)

namespace Mirrored

/-- A branch with the command that ends it. -/
theorem ended {program : Program} (inside : Mirrored old new used t program) (position : Nat) :
    Direct.Mirrors old new used
      (do
        program.run t position
        Direct.count)
      (do
        (program.renamed old new).run t position
        Direct.count) :=
  (inside position).bind fun _ => .count

variable {opener closer : Command} {body next : Program}

theorem script {opens : opener.kind = .beginScript} {closes : closer.kind = .endScript}
    (inside : Mirrored old new used t body) (behind : Mirrored old new used t next) :
    Mirrored old new used t (.script opener opens body closer closes next) := by
  intro position
  change Direct.Mirrors old new used (do
      Direct.count
      body.run t (position + 1)
      next.run t (position + 1 + (body.size + 1)))
    (do
      Direct.count
      (body.renamed old new).run t (position + 1)
      (next.renamed old new).run t (position + 1 + ((body.renamed old new).size + 1)))
  rw [size_renamed]
  exact .bind .count fun _ => (inside _).bind fun _ => behind _

theorem block {ends : (opener.kind, closer.kind) ∈ CommandKind.branchEnds}
    (avoids : opener.body.Avoids new) (starts : ∀ solver ∈ opener.starts?, solver ∈ used)
    (differ : old ≠ new) (fresh : new ∉ used) (inside : Mirrored old new used t body)
    (behind : Mirrored old new used t next) :
    Mirrored old new used t (.block opener body closer ends next) := by
  intro position
  change Direct.Mirrors old new used (do
      Direct.block t position (1 + (body.size + 1)) opener do
        body.run t (position + 1)
        Direct.count
      next.run t (position + 1 + (body.size + 1)))
    (do
      Direct.block t position (1 + ((body.renamed old new).size + 1))
        (opener.afterRename .any old new) do
          (body.renamed old new).run t (position + 1)
          Direct.count
      (next.renamed old new).run t (position + 1 + ((body.renamed old new).size + 1)))
  rw [size_renamed]
  exact (Direct.Mirrors.block opener.renames_afterRename avoids (inside.ended _)
    opener.kind_afterRename differ fresh starts position _).bind fun _ => behind _

theorem choice {first second : Program} {alternative : Command} {opens : opener.kind = .ifThen}
    {turns : alternative.kind = .otherwise} {closes : closer.kind = .endIf}
    (avoids : opener.body.Avoids new) (inFirst : Mirrored old new used t first)
    (inSecond : Mirrored old new used t second) (behind : Mirrored old new used t next) :
    Mirrored old new used t
      (.choice opener opens first alternative turns second closer closes next) := by
  intro position
  change Direct.Mirrors old new used (do
      Direct.choice t opener
        (do
          first.run t (position + 1)
          Direct.count)
        (do
          second.run t (position + 1 + (first.size + 1))
          Direct.count)
      next.run t (position + 1 + (first.size + 1) + (second.size + 1)))
    (do
      Direct.choice t (opener.afterRename .any old new)
        (do
          (first.renamed old new).run t (position + 1)
          Direct.count)
        (do
          (second.renamed old new).run t (position + 1 + ((first.renamed old new).size + 1))
          Direct.count)
      (next.renamed old new).run t (position + 1 + ((first.renamed old new).size + 1) +
        ((second.renamed old new).size + 1)))
  rw [size_renamed, size_renamed]
  exact (Direct.Mirrors.choice opener.renames_afterRename avoids (inFirst.ended _)
    (inSecond.ended _)).bind fun _ => behind _

end Mirrored

/-- A program in which the new name does not occur runs as the renamed one does. -/
theorem mirrored (differ : old ≠ new) (fresh : new ∉ used) (program : Program)
    (suits : ∀ c ∈ program.commands, c.body.Avoids new ∧ ∀ solver ∈ c.starts?, solver ∈ used) :
    Mirrored old new used t program := by
  induction program with
  | done => exact fun _ => .value _
  | plain c isPlain next ih =>
      obtain ⟨⟨avoids, -⟩, suitsNext⟩ := List.forall_mem_cons.mp suits
      intro position
      refine (Direct.Mirrors.plain c.renames_afterRename avoids c.kind_afterRename differ fresh
        position).bind fun _ => ?_
      exact ih suitsNext (position + 1)
  | script opener opens body closer closes next bodyIH nextIH =>
      obtain ⟨-, suits⟩ := List.forall_mem_cons.mp suits
      obtain ⟨suitsBody, -, suitsNext⟩ := forall_mem_branch.mp suits
      exact .script (bodyIH suitsBody) (nextIH suitsNext)
  | block opener body closer ends next bodyIH nextIH =>
      obtain ⟨⟨avoids, starts⟩, suits⟩ := List.forall_mem_cons.mp suits
      obtain ⟨suitsBody, -, suitsNext⟩ := forall_mem_branch.mp suits
      exact .block avoids starts differ fresh (bodyIH suitsBody) (nextIH suitsNext)
  | choice opener opens first alternative turns second closer closes next firstIH secondIH nextIH =>
      obtain ⟨⟨avoids, -⟩, suits⟩ := List.forall_mem_cons.mp suits
      obtain ⟨suitsFirst, -, suits⟩ := forall_mem_branch.mp suits
      obtain ⟨suitsSecond, -, suitsNext⟩ := forall_mem_branch.mp suits
      exact .choice avoids (firstIH suitsFirst) (secondIH suitsSecond) (nextIH suitsNext)

end

/-! ## Loops -/

/-- Where no solver is started inside its own loop, none is after the renaming. -/
theorem LoopsApart.renamed {program : Program} {active : List Text} (apart : program.LoopsApart active)
    (starts : ∀ c ∈ program.commands, ∀ solver ∈ c.starts?, solver ≠ new) (fresh : new ∉ active) :
    (program.renamed old new).LoopsApart (active.map (Text.renamed old new)) := by
  induction program generalizing active with
  | done => trivial
  | plain c isPlain next ih =>
      obtain ⟨-, startsNext⟩ := List.forall_mem_cons.mp starts
      exact ih apart startsNext fresh
  | script opener opens body closer closes next bodyIH nextIH =>
      obtain ⟨-, starts⟩ := List.forall_mem_cons.mp starts
      obtain ⟨startsBody, -, startsNext⟩ := forall_mem_branch.mp starts
      exact ⟨bodyIH apart.1 startsBody fresh, nextIH apart.2 startsNext fresh⟩
  | block opener body closer ends next bodyIH nextIH =>
      obtain ⟨away, starts⟩ := List.forall_mem_cons.mp starts
      obtain ⟨startsBody, -, startsNext⟩ := forall_mem_branch.mp starts
      obtain ⟨idle, inside, behind⟩ := apart
      have running : new ∉ opener.starts?.toList ++ active := by
        rw [List.mem_append, not_or, Option.mem_toList]
        exact ⟨fun started => away new started rfl, fresh⟩
      have branch := bodyIH inside startsBody running
      rw [List.map_append, ← Option.toList_map, ← Command.starts?_afterRename] at branch
      refine ⟨fun solver started member => ?_, branch, nextIH behind startsNext fresh⟩
      rw [Command.starts?_afterRename] at started
      obtain ⟨own, starting, rfl⟩ := Option.map_eq_some_iff.mp started
      obtain ⟨other, around, same⟩ := List.mem_map.mp member
      have other_ne : other ≠ new := fun isNew => fresh (isNew ▸ around)
      exact idle own starting ((Text.renamed_inj other_ne (away own starting)).mp same ▸ around)
  | choice opener opens first alternative turns second closer closes next firstIH secondIH nextIH =>
      obtain ⟨-, starts⟩ := List.forall_mem_cons.mp starts
      obtain ⟨startsFirst, -, starts⟩ := forall_mem_branch.mp starts
      obtain ⟨startsSecond, -, startsNext⟩ := forall_mem_branch.mp starts
      obtain ⟨inFirst, inSecond, behind⟩ := apart
      exact ⟨firstIH inFirst startsFirst fresh, secondIH inSecond startsSecond fresh,
        nextIH behind startsNext fresh⟩

end Program

end MissionScript
