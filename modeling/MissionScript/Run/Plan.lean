import MissionScript.Sequence.Chain

/-!
# Plans

A plan lays out in which order a sequence runs: what follows each command, what its branches hold, and
where a script block ends. It is made before a run from the links of the arena, which a run does not
change.
-/

namespace MissionScript

inductive Plan where
  | done
  /-- A link to a deleted command. -/
  | lost (h : Handle)
  /-- A command with its first two branches, and what follows it. -/
  | step (h : Handle) (first second next : Plan)
  /-- A script block, what it holds, and what follows its end. -/
  | script (h : Handle) (body next : Plan)
  /-- A script block without an end, and the rest of the chain. -/
  | openScript (h : Handle) (body : Plan)

namespace Arena

/-- The plan of a chain from `start` up to `stop`, exclusive. `limit` bounds the links from the start
to any command. -/
def planFrom (a : Arena) : (limit : Nat) → (stop start : Option Handle) → Plan
  | _, _, none => .done
  | 0, _, some _ => .done
  | limit + 1, stop, some h =>
    if some h = stop then .done
    else match a.node? h with
    | none => .lost h
    | some node =>
      if node.command.kind = .beginScript then
        match a.matchingEnd h with
        | none => .openScript h (a.planFrom limit none node.next)
        | some close =>
          .script h (a.planFrom limit (some close) node.next)
            (a.planFrom limit stop (a.next? close))
      else
        .step h (a.planFrom limit none (a.child? h 0)) (a.planFrom limit none (a.child? h 1))
          (a.planFrom limit stop node.next)

/-- The plan of the sequence after its first command. -/
def plan (a : Arena) (head : Handle) : Plan :=
  a.planFrom (a.slots.size + 1) none (a.next? head)

end Arena

end MissionScript
