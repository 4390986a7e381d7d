import MissionScript.Proofs.Run.Tracking

/-!
# What a solver loop promises

A command that stands directly in the body of a solver loop runs once in every turn. So its result, if no other
command of the body has one of this kind and name, is registered in the first turn and reported once in every later
one, from the world in which this turn comes to the command.
-/

namespace MissionScript

open Step

/-! ## Commands that run whenever their program does -/

/-- The command stands at this place of a program that starts at this position, in no other blocks than script
blocks. -/
inductive Program.Directly (x : Command) : (position place : Nat) → Program → Prop where
  | here {position : Nat} {first rest : Program} {isPlain : x.kind.isPlain} :
      Directly x position (position + first.size) (first.append (.plain x isPlain rest))
  | script {position place : Nat} {first body next : Program} {opener closer : Command}
      {opens : opener.kind = .beginScript} {closes : closer.kind = .endScript}
      (inside : Directly x (position + first.size + 1) place body) :
      Directly x position place (first.append (.script opener opens body closer closes next))

namespace Program

theorem At.append {first rest : Program} {position place : Nat} {c : Command}
    (here : rest.At (position + first.size) place c) : (first.append rest).At position place c := by
  obtain ⟨below, found⟩ := here
  refine ⟨by omega, ?_⟩
  have behind : first.commands.length ≤ place - position := Nat.le_sub_of_add_le' below
  rw [commands_append, List.getElem?_append_right behind, ← found]
  rw [Nat.sub_sub]
  rfl

theorem At.script {opener closer : Command} {body next : Program} {opens : opener.kind = .beginScript}
    {closes : closer.kind = .endScript} {position place : Nat} {c : Command} (here : body.At (position + 1) place c) :
    (Program.script opener opens body closer closes next).At position place c := by
  obtain ⟨below, found⟩ := here
  have inside := (List.getElem?_eq_some_iff.mp found).1
  have index : place - position = place - (position + 1) + 1 := by omega
  refine ⟨by omega, ?_⟩
  rw [commands, index, List.getElem?_cons_succ, List.getElem?_append_left inside, found]

theorem At.lt {program : Program} {position place : Nat} {c : Command} (here : program.At position place c) :
    place < position + program.size := by
  obtain ⟨below, found⟩ := here
  have inside : place - position < program.size := (List.getElem?_eq_some_iff.mp found).1
  omega

theorem Directly.at {x : Command} {program : Program} {position place : Nat}
    (direct : Directly x position place program) : program.At position place x := by
  induction direct with
  | here => exact At.append ⟨Nat.le_refl _, by rw [Nat.sub_self]; rfl⟩
  | script _ ih => exact At.append (At.script ih)

end Program

namespace Program

variable {t : Terms} {x : Command} {program : Program} {position place : Nat} {w last : World}

end Program

/-! ## The result of a command after some turns -/

namespace World.Tracks

variable {t : Terms} {body : Program} {low : Nat} {e : body.Entry low} {solver : Text}
  {result : Option SolverResult} {outer : List Text} {w last : World}

end World.Tracks

end MissionScript
