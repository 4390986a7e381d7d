import MissionScript.Proofs.Script.Meaning

/-!
# Statements from their meanings

The chunks of a statement tell its parts, so a statement that has been read is known from its meaning, but for
its comments and its place. The meaning of two sources put together is that of one after the other.
-/

namespace MissionScript

/-! ### What a meaning tells -/

namespace Meaning

/-- The parts with these chunks. -/
def parts (m : Meaning) : Parts :=
  match m.blockType, m.call, m.chunks with
  | .definition, _, [_, objectType, names] => .definition objectType names
  | .command, false, keyword :: arguments => .command keyword arguments.head?
  | .command, true, [outputs, signature] => .call outputs signature
  | .assignment, _, [target, value] => .assignment target value
  | .function, _, [_, outputs, name, inputs] => .function outputs name inputs
  | _, _, _ => .comment

/-- A statement that stands alone and says this. -/
def statement (m : Meaning) : Statement where
  reading := { instruction := m.instruction, shape := m.parts.shape }
  parts := m.parts

end Meaning

namespace Reading

variable {r : Reading} {parts : Parts}

theorem shape_of_parts (cut : r.parts = .ok parts) : parts.shape = r.shape := by
  unfold Reading.parts at cut
  cases shape : r.shape with
  | comment =>
      rw [shape] at cut
      cases cut
      rfl
  | definition =>
      rw [shape] at cut
      obtain ⟨_, _, rfl⟩ := definition_of_definitionParts cut
      rfl
  | command =>
      rw [shape] at cut
      change r.commandParts = _ at cut
      rw [commandParts_eq (keyword_of_commandParts cut)] at cut
      cases cut
      rfl
  | call =>
      rw [shape] at cut
      dsimp only at cut
      split at cut
      · obtain ⟨-, -, rfl⟩ := sides_eq_ok_iff.mp cut
        rfl
      · cases cut
        rfl
  | assignment =>
      rw [shape] at cut
      dsimp only at cut
      split at cut
      · obtain ⟨-, -, rfl⟩ := sides_eq_ok_iff.mp cut
        rfl
      · cases cut
  | function =>
      rw [shape] at cut
      obtain ⟨_, _, _, rfl⟩ := function_of_functionParts cut
      rfl

end Reading

namespace Statement

variable {s : Statement}

/-- The parts are those of the shape that was read. -/
def IsCut (s : Statement) : Prop := s.parts.shape = s.reading.shape

theorem IsCut.comment (isCut : s.IsCut) (none : s.meaning? = none) : s.parts = .comment := by
  obtain ⟨⟨preface, remark, instruction, shape⟩, parts, span⟩ := s
  obtain rfl : parts.shape = shape := isCut
  cases parts with
  | comment => rfl
  | _ => cases none

/-- A statement says what it says alone. -/
theorem IsCut.eq_statement (isCut : s.IsCut) {m : Meaning} (said : s.meaning? = some m) :
    s = { m.statement with
      reading := { m.statement.reading with preface := s.reading.preface, remark := s.reading.remark }
      span := s.span } := by
  obtain ⟨⟨preface, remark, instruction, shape⟩, parts, span⟩ := s
  obtain rfl : parts.shape = shape := isCut
  cases parts with
  | comment => cases said
  | command keyword arguments =>
      cases said
      cases arguments <;> rfl
  | _ =>
      cases said
      rfl

/-- Statements that say the same have the same parts. -/
theorem IsCut.parts_eq {t : Statement} (isCut : s.IsCut) (isCut' : t.IsCut) (same : s.meaning? = t.meaning?) :
    s.parts = t.parts := by
  cases said : s.meaning? with
  | none => rw [isCut.comment said, isCut'.comment (same.symm.trans said)]
  | some m => rw [isCut.eq_statement said, isCut'.eq_statement (same.symm.trans said)]

end Statement

variable {keywords : Keywords}

theorem Statement.isCut_of_ofBlock {block : Text} {s : Statement} (read : ofBlock keywords block = .ok s) :
    s.IsCut := by
  obtain ⟨r, -, rest⟩ := Outcome.bind_eq_ok_iff.mp read
  obtain ⟨parts, cut, same⟩ := Outcome.bind_eq_ok_iff.mp rest
  cases same
  exact Reading.shape_of_parts cut

theorem isCut_of_ofBlocks (blocks : List Block) :
    ∀ s ∈ (Harvest.ofBlocks keywords blocks).statements, s.IsCut := by
  induction blocks with
  | nil => exact List.forall_mem_nil _
  | cons block blocks ih =>
      change ∀ s ∈ (Harvest.add block.span (Statement.ofBlock keywords block.text)
        (Harvest.ofBlocks keywords blocks)).statements, s.IsCut
      cases read : Statement.ofBlock keywords block.text with
      | error e => exact ih
      | ok s =>
          have first : s.IsCut := Statement.isCut_of_ofBlock read
          exact List.forall_mem_cons.mpr ⟨first, ih⟩

theorem isCut_of_parseScript {source : Text} {statements : List Statement}
    (parsed : parseScript keywords source = .ok statements) : ∀ s ∈ statements, s.IsCut := by
  rw [parseScript_eq_outcome, Harvest.outcome] at parsed
  split at parsed
  · cases parsed
    exact isCut_of_ofBlocks _
  · cases parsed

/-! ### Sources put together -/

/-- Sources that are read can be read one after the other, if the first one ends a statement. -/
theorem parseScript_append {first second : Text} (apart : second = [] ∨ EndsStatement first)
    {statements others : List Statement} (parsed : parseScript keywords first = .ok statements)
    (behind : parseScript keywords second = .ok others) :
    ∃ both, parseScript keywords (first ++ second) = .ok both ∧
      meanings both = meanings statements ++ meanings others := by
  have texts : (logicalBlocks (first ++ second)).map (·.text) =
      (logicalBlocks first).map (·.text) ++ (logicalBlocks second).map (·.text) := by
    rcases apart with rfl | whole
    · rw [List.append_nil]
      exact (List.append_nil _).symm
    · rw [logicalBlocks_append whole, List.map_append, List.map_map]
      rfl
  have said : (parseScript keywords (first ++ second)).toOption.map meanings = _ :=
    meanings_parseScript (first ++ second)
  rw [texts, meaningsOf_append, ← meanings_parseScript, ← meanings_parseScript, parsed, behind] at said
  cases found : parseScript keywords (first ++ second) with
  | error errors =>
      rw [found] at said
      cases said
  | ok both =>
      rw [found] at said
      exact ⟨both, rfl, Option.some.inj said⟩

end MissionScript
