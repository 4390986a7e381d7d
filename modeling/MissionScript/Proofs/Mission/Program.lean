import MissionScript.Proofs.Sequence.Layout

/-!
# Programs

A program is a list of commands with its block structure made explicit: what each block holds, and the
command that ends it. Every program is well nested by construction, and the lists of kinds that
programs have are exactly those of a context-free grammar.
-/

namespace MissionScript

namespace CommandKind

/-- The kinds that neither open nor end a block or a branch. -/
def isPlain : CommandKind → Bool
  | noOp | beginMissionSequence | assignment | callFunction | minimize | nonlinearConstraint
  | generic => true
  | _ => false

/-- What a kind does to the open blocks. -/
theorem cases_of_kind (kind : CommandKind) :
    kind.isPlain ∨ kind = beginScript ∨ kind.ownsBranches ∨ kind = otherwise ∨ kind.closesBlock := by
  cases kind <;> simp [isPlain, ownsBranches, closesBlock]

/-- The kinds that own branches, with the kinds that end them. -/
def branchEnds : List (CommandKind × CommandKind) :=
  [(ifThen, endIf), (whileLoop, endWhile), (forLoop, endFor), (optimize, endOptimize),
   (target, endTarget)]

theorem ownsBranches_of_branchEnds {opener closer : CommandKind}
    (ends : (opener, closer) ∈ branchEnds) : opener.ownsBranches := by
  cases opener <;> simp_all [branchEnds, ownsBranches]

theorem terminator?_of_branchEnds {opener closer : CommandKind}
    (ends : (opener, closer) ∈ branchEnds) : opener.terminator? = some closer := by
  cases opener <;> simp_all [branchEnds, terminator?]

theorem endsBranch_of_branchEnds {opener closer : CommandKind}
    (ends : (opener, closer) ∈ branchEnds) : closer.endsBranch := by
  cases closer <;> simp_all [branchEnds, endsBranch]

theorem isPlain_of_branchEnds {opener closer : CommandKind}
    (ends : (opener, closer) ∈ branchEnds) : opener.isPlain = false := by
  cases opener <;> simp_all [branchEnds, isPlain]

theorem opensBlock_of_isPlain {kind : CommandKind} (isPlain : kind.isPlain) :
    kind.opensBlock = false := by
  cases kind <;> first | rfl | cases isPlain

theorem closesBlock_of_isPlain {kind : CommandKind} (isPlain : kind.isPlain) :
    kind.closesBlock = false := by
  cases kind <;> first | rfl | cases isPlain

theorem endsBranch_of_isPlain {kind : CommandKind} (isPlain : kind.isPlain) :
    kind.endsBranch = false := by
  cases kind <;> first | rfl | cases isPlain

theorem endsBranch_of_ownsBranches {kind : CommandKind} (owns : kind.ownsBranches) :
    kind.endsBranch = false := by
  cases kind <;> first | rfl | cases owns

theorem ne_script_of_isPlain {kind : CommandKind} (isPlain : kind.isPlain) :
    kind ≠ beginScript ∧ kind ≠ endScript := by
  constructor <;> rintro rfl <;> cases isPlain

theorem ne_script_of_ownsBranches {kind : CommandKind} (owns : kind.ownsBranches) :
    kind ≠ beginScript ∧ kind ≠ endScript := by
  constructor <;> rintro rfl <;> cases owns

theorem opensBlock_of_endsBranch {kind : CommandKind} (ends : kind.endsBranch) :
    kind.opensBlock = false := by
  cases kind <;> first | rfl | cases ends

theorem ne_beginScript_of_endsBranch {kind : CommandKind} (ends : kind.endsBranch) :
    kind ≠ beginScript := by
  rintro rfl
  cases ends

theorem mem_branchEnds {opener : CommandKind} (owns : opener.ownsBranches) :
    (opener, opener.terminator?.getD noOp) ∈ branchEnds := by
  cases opener <;> simp_all [branchEnds, ownsBranches, terminator?]

end CommandKind

/-- The lists of kinds in which all blocks are properly nested. -/
inductive WellNested : List CommandKind → Prop where
  | nil : WellNested []
  | plain {kind : CommandKind} {rest : List CommandKind} :
      kind.isPlain → WellNested rest → WellNested (kind :: rest)
  | script {body rest : List CommandKind} :
      WellNested body → WellNested rest →
      WellNested (.beginScript :: (body ++ .endScript :: rest))
  /-- `While`, `For`, `Optimize`, `Target`, and `If` without `Else`. -/
  | block {opener closer : CommandKind} {body rest : List CommandKind} :
      (opener, closer) ∈ CommandKind.branchEnds → WellNested body → WellNested rest →
      WellNested (opener :: (body ++ closer :: rest))
  /-- `If` with `Else`. -/
  | choice {first second rest : List CommandKind} :
      WellNested first → WellNested second → WellNested rest →
      WellNested (.ifThen :: (first ++ .otherwise :: (second ++ .endIf :: rest)))

/-- Commands with their block structure. -/
inductive Program where
  | done
  | plain (command : Command) (isPlain : command.kind.isPlain) (next : Program)
  /-- `BeginScript ... EndScript` -/
  | script (opener : Command) (opens : opener.kind = .beginScript) (body : Program)
      (closer : Command) (closes : closer.kind = .endScript) (next : Program)
  /-- A command with one branch. -/
  | block (opener : Command) (body : Program) (closer : Command)
      (ends : (opener.kind, closer.kind) ∈ CommandKind.branchEnds) (next : Program)
  /-- `If ... Else ... EndIf` -/
  | choice (opener : Command) (opens : opener.kind = .ifThen) (first : Program)
      (alternative : Command) (turns : alternative.kind = .otherwise) (second : Program)
      (closer : Command) (closes : closer.kind = .endIf) (next : Program)

namespace Program

/-- The commands in the order in which they are written. -/
def commands : Program → List Command
  | done => []
  | plain command _ next => command :: next.commands
  | script opener _ body closer _ next =>
    opener :: (body.commands ++ closer :: next.commands)
  | block opener body closer _ next =>
    opener :: (body.commands ++ closer :: next.commands)
  | choice opener _ first alternative _ second closer _ next =>
    opener :: (first.commands ++ alternative :: (second.commands ++ closer :: next.commands))

/-- The tree of links that stands for a program. A script block lies flat on its chain, and the end
of a branch is the last command in it. -/
def layout : Program → Layout
  | done => .done
  | plain command _ next => .step command .done .done next.layout
  | script opener _ body closer _ next =>
    .step opener .done .done (body.layout ++ .step closer .done .done next.layout)
  | block opener body closer _ next =>
    .step opener (body.layout ++ .step closer .done .done .done) .done next.layout
  | choice opener _ first alternative _ second closer _ next =>
    .step opener (first.layout ++ .step alternative .done .done .done)
      (second.layout ++ .step closer .done .done .done) next.layout

/-- The commands of the tree stand in the order of the program. -/
@[simp] theorem commands_layout (p : Program) : p.layout.commands = p.commands := by
  induction p with
  | done => rfl
  | plain command isPlain next ih => simp [layout, commands, Layout.commands, ih]
  | script opener opens body closer closes next bodyIH nextIH =>
      simp [layout, commands, Layout.commands, bodyIH, nextIH]
  | block opener body closer ends next bodyIH nextIH =>
      simp [layout, commands, Layout.commands, bodyIH, nextIH]
  | choice opener opens first alternative turns second closer closes next firstIH secondIH nextIH =>
      simp [layout, commands, Layout.commands, firstIH, secondIH, nextIH]

theorem length_commands (p : Program) : p.commands.length = p.layout.size := by
  rw [← commands_layout, Layout.length_commands]

section

variable {c opener alternative closer : Command} {body first second next : Program}

/-- The end of a script block stands on the chain that goes on behind it. -/
theorem layout_script_append {opens : opener.kind = .beginScript} {closes : closer.kind = .endScript}
    (more : Layout) :
    (script opener opens body closer closes next).layout ++ more =
      .step opener .done .done
        (body.layout ++ .step closer .done .done (next.layout ++ more)) := by
  simp only [layout, Layout.step_append, Layout.append_assoc]

theorem size_layout_plain {isPlain : c.kind.isPlain} :
    (plain c isPlain next).layout.size = next.layout.size + 1 := by
  simp only [layout, Layout.size_step, Layout.size_done]
  omega

theorem size_layout_script {opens : opener.kind = .beginScript}
    {closes : closer.kind = .endScript} :
    (script opener opens body closer closes next).layout.size =
      body.layout.size + (next.layout.size + 2) := by
  simp only [layout, Layout.size_step, Layout.size_done, Layout.size_append]
  omega

theorem size_layout_block {ends : (opener.kind, closer.kind) ∈ CommandKind.branchEnds} :
    (block opener body closer ends next).layout.size =
      body.layout.size + (next.layout.size + 2) := by
  simp only [layout, Layout.size_step, Layout.size_done, Layout.size_ended]
  omega

theorem size_layout_choice {opens : opener.kind = .ifThen} {turns : alternative.kind = .otherwise}
    {closes : closer.kind = .endIf} :
    (choice opener opens first alternative turns second closer closes next).layout.size =
      first.layout.size + (second.layout.size + (next.layout.size + 3)) := by
  simp only [layout, Layout.size_step, Layout.size_ended]
  omega

end

/-- One program after the other. -/
def append : Program → Program → Program
  | done, more => more
  | plain command isPlain next, more => plain command isPlain (next.append more)
  | script opener opens body closer closes next, more =>
    script opener opens body closer closes (next.append more)
  | block opener body closer ends next, more => block opener body closer ends (next.append more)
  | choice opener opens first alternative turns second closer closes next, more =>
    choice opener opens first alternative turns second closer closes (next.append more)

theorem commands_append (p more : Program) :
    (p.append more).commands = p.commands ++ more.commands := by
  induction p with
  | done => rfl
  | plain command isPlain next ih => simp [append, commands, ih]
  | script opener opens body closer closes next _ ih => simp [append, commands, ih]
  | block opener body closer ends next _ ih => simp [append, commands, ih]
  | choice opener opens first alternative turns second closer closes next _ _ ih =>
      simp [append, commands, ih]

/-- The kinds of a program are well nested. -/
theorem wellNested (p : Program) : WellNested (p.commands.map (·.kind)) := by
  induction p with
  | done => exact .nil
  | plain command isPlain next ih => exact .plain isPlain ih
  | script opener opens body closer closes next bodyIH nextIH =>
      simp only [commands, List.map_cons, List.map_append, opens, closes]
      exact .script bodyIH nextIH
  | block opener body closer ends next bodyIH nextIH =>
      simp only [commands, List.map_cons, List.map_append]
      exact .block ends bodyIH nextIH
  | choice opener opens first alternative turns second closer closes next firstIH secondIH nextIH =>
      simp only [commands, List.map_cons, List.map_append, opens, turns, closes]
      exact .choice firstIH secondIH nextIH

/-- Commands whose kinds are well nested have a block structure. -/
theorem exists_of_wellNested {kinds : List CommandKind} (nested : WellNested kinds)
    {commands : List Command} (kindsOf : commands.map (·.kind) = kinds) :
    ∃ p : Program, p.commands = commands := by
  induction nested generalizing commands with
  | nil =>
      rw [List.map_eq_nil_iff] at kindsOf
      exact ⟨done, kindsOf.symm⟩
  | plain isPlain _ ih =>
      obtain ⟨command, rest, rfl, rfl, restKinds⟩ := List.map_eq_cons_iff.mp kindsOf
      obtain ⟨next, rfl⟩ := ih restKinds
      exact ⟨plain command isPlain next, rfl⟩
  | script _ _ bodyIH restIH =>
      obtain ⟨opener, behind, rfl, opens, behindKinds⟩ := List.map_eq_cons_iff.mp kindsOf
      obtain ⟨inside, ending, rfl, insideKinds, endingKinds⟩ := List.map_eq_append_iff.mp behindKinds
      obtain ⟨closer, rest, rfl, closes, restKinds⟩ := List.map_eq_cons_iff.mp endingKinds
      obtain ⟨body, rfl⟩ := bodyIH insideKinds
      obtain ⟨next, rfl⟩ := restIH restKinds
      exact ⟨script opener opens body closer closes next, rfl⟩
  | block ends _ _ bodyIH restIH =>
      obtain ⟨opener, behind, rfl, rfl, behindKinds⟩ := List.map_eq_cons_iff.mp kindsOf
      obtain ⟨inside, ending, rfl, insideKinds, endingKinds⟩ := List.map_eq_append_iff.mp behindKinds
      obtain ⟨closer, rest, rfl, rfl, restKinds⟩ := List.map_eq_cons_iff.mp endingKinds
      obtain ⟨body, rfl⟩ := bodyIH insideKinds
      obtain ⟨next, rfl⟩ := restIH restKinds
      exact ⟨block opener body closer ends next, rfl⟩
  | choice _ _ _ firstIH secondIH restIH =>
      obtain ⟨opener, behind, rfl, opens, behindKinds⟩ := List.map_eq_cons_iff.mp kindsOf
      obtain ⟨inside, turning, rfl, firstKinds, turningKinds⟩ := List.map_eq_append_iff.mp behindKinds
      obtain ⟨alternative, after, rfl, turns, afterKinds⟩ := List.map_eq_cons_iff.mp turningKinds
      obtain ⟨other, ending, rfl, secondKinds, endingKinds⟩ := List.map_eq_append_iff.mp afterKinds
      obtain ⟨closer, rest, rfl, closes, restKinds⟩ := List.map_eq_cons_iff.mp endingKinds
      obtain ⟨first, rfl⟩ := firstIH firstKinds
      obtain ⟨second, rfl⟩ := secondIH secondKinds
      obtain ⟨next, rfl⟩ := restIH restKinds
      exact ⟨choice opener opens first alternative turns second closer closes next, rfl⟩

end Program

end MissionScript
