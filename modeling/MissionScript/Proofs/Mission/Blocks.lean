import MissionScript.Proofs.Command.Described
import MissionScript.Proofs.Mission.Fidelity
import MissionScript.Proofs.Sequence.Enclosure

/-!
# Blocks of an accepted script

While a mission is built, a stack of open blocks tells which statement closes which block. The links of
the finished sequence tell the same, and so the next command can always be found.
-/

namespace MissionScript

namespace Draft

variable {d next : Draft} {c : Command} {opener closer : Handle} {program : Program}

/-- Between two drafts the innermost open block is closed, `opener` is the command that opened it, and
the command `closer` is added. -/
def Ends (d next : Draft) (opener closer : Handle) : Prop :=
  ∃ frame, d.frames = frame :: next.frames ∧ frame.opener? = some opener ∧
    ¬d.arena.contains closer ∧ next.arena.contains closer

/-- When inputs are taken in order, one of them closes the block of `opener` with the command
`closer`. -/
inductive Closing {α : Type} (take : α → Drafting Unit) (opener closer : Handle) :
    Draft → List α → Prop
  | here {d next : Draft} {input : α} {rest : List α} (taken : take input d = (.ok (), next))
      (ends : Ends d next opener closer) : Closing take opener closer d (input :: rest)
  | later {d next : Draft} {input : α} {rest : List α} (taken : take input d = (.ok (), next))
      (closing : Closing take opener closer next rest) :
      Closing take opener closer d (input :: rest)

section

variable {α : Type} {take : α → Drafting Unit} {input : α} {rest : List α}

theorem closing_nil : ¬Closing take opener closer d [] := by
  intro closing
  cases closing

theorem closing_cons (taken : take input d = (.ok (), next)) :
    Closing take opener closer d (input :: rest) ↔
      Ends d next opener closer ∨ Closing take opener closer next rest := by
  constructor
  · intro closing
    cases closing with
    | here too ends =>
        cases taken.symm.trans too
        exact .inl ends
    | later too closing =>
        cases taken.symm.trans too
        exact .inr closing
  · rintro (ends | closing)
    · exact .here taken ends
    · exact .later taken closing

end

/-- A block is closed by the same command wherever the draft stands in the source. -/
theorem Closing.congr {e : Draft} {commands : List Command}
    (closing : Closing place opener closer d commands) (arena : e.arena = d.arena)
    (head : e.head = d.head) (frames : e.frames = d.frames) :
    Closing place opener closer e commands := by
  induction closing generalizing e with
  | here placed ends =>
      obtain ⟨admits, h, b, linked, rfl⟩ := place_eq_ok_iff.mp placed
      rw [← arena, ← head, ← frames] at linked
      rw [← frames] at admits
      refine .here (place_eq_ok_iff.mpr ⟨admits, h, b, linked, rfl⟩) ?_
      unfold Ends at ends ⊢
      rwa [arena, frames]
  | later placed _ ih =>
      obtain ⟨admits, h, b, linked, rfl⟩ := place_eq_ok_iff.mp placed
      rw [← arena, ← head, ← frames] at linked
      rw [← frames] at admits
      exact .later (place_eq_ok_iff.mpr ⟨admits, h, b, linked, rfl⟩)
        (ih rfl head (by rw [frames]))

theorem closing_congr {e : Draft} {commands : List Command} (arena : e.arena = d.arena)
    (head : e.head = d.head) (frames : e.frames = d.frames) :
    Closing place opener closer d commands ↔ Closing place opener closer e commands :=
  ⟨fun closing => closing.congr arena head frames,
    fun closing => closing.congr arena.symm head.symm frames.symm⟩

/-- Statements close the blocks that their commands close. -/
theorem closing_add {source : Nat} {statements : List Statement} {final : Draft}
    (added : addAll source statements d = ([], final)) :
    Closing add opener closer d statements ↔
      Closing place opener closer d (describe (steps d.inMission statements)) := by
  induction statements generalizing d with
  | nil => exact iff_of_false closing_nil closing_nil
  | cons s rest ih =>
      obtain ⟨next, first, others⟩ := addAll_cons_eq_nil_iff.mp added
      rw [closing_cons first, ih others]
      by_cases isStep : s.isStep d.inMission
      · obtain ⟨c, described, _, placed⟩ := (add_eq_ok_iff_of_isStep isStep).mp first
        have kept := place_keeps placed
        have inMission : next.inMission = true := congrArg Draft.inMission kept
        have listed : describe (s :: steps true rest) = c :: describe (steps true rest) := by
          rw [describe, List.filterMap_cons, described]
          rfl
        rw [steps, if_pos isStep, listed,
          closing_congr (d := d) (e := d.started c) rfl rfl rfl, closing_cons placed, inMission]
        rfl
      · obtain ⟨_, store, _, rfl⟩ := (add_eq_ok_iff_of_not_isStep isStep).mp first
        rw [steps, if_neg isStep, closing_congr (d := d) (e := { d with objects := store }) rfl rfl rfl]
        refine or_iff_right ?_
        rintro ⟨frame, frames, -⟩
        exact absurd frames.symm (List.cons_ne_self _ _)

/-! ## Programs -/

/-- Taking commands leads from one draft to the next and closes some blocks. -/
structure Passes (d : Draft) (commands : List Command) (blocks : List (Handle × Handle))
    (next : Draft) : Prop where
  fresh : next.arena.Fresh
  size : next.arena.slots.size = d.arena.slots.size + commands.length
  closing : ∀ opener closer rest, Closing place opener closer d (commands ++ rest) ↔
    (opener, closer) ∈ blocks ∨ Closing place opener closer next rest

theorem Passes.trans {middle final : Draft} {commands more : List Command}
    {blocks others : List (Handle × Handle)} (first : Passes d commands blocks middle)
    (second : Passes middle more others final) :
    Passes d (commands ++ more) (blocks ++ others) final where
  fresh := second.fresh
  size := by rw [second.size, first.size, List.length_append, Nat.add_assoc]
  closing opener closer rest := by
    rw [List.append_assoc, first.closing, second.closing, List.mem_append, or_assoc]

/-- The new command is the last one in the arena. -/
theorem ends_iff (fresh : d.arena.Fresh) (placed : place c d = (.ok (), next)) :
    Ends d next opener closer ↔
      (∃ frame, d.frames = frame :: next.frames ∧ frame.opener? = some opener) ∧
        closer = .ofIndex d.arena.slots.size := by
  obtain ⟨_, h, b, linked, rfl⟩ := place_eq_ok_iff.mp placed
  obtain ⟨rfl, freshNow, size⟩ := linkIn_adds linked fresh
  have added : (¬d.arena.contains closer ∧ b.contains closer) ↔
      closer = .ofIndex d.arena.slots.size := by
    rw [fresh.contains_iff, freshNow.contains_iff, size]
    constructor
    · rintro ⟨absent, index, inside, rfl⟩
      by_cases before : index < d.arena.slots.size
      · exact absurd ⟨index, before, rfl⟩ absent
      · rw [show index = d.arena.slots.size by omega]
    · rintro rfl
      refine ⟨?_, _, Nat.lt_succ_self _, rfl⟩
      rintro ⟨index, inside, same⟩
      rw [Handle.ofIndex_inj] at same
      omega
  rw [Ends, ← added]
  simp only [← and_assoc, ← exists_and_right]

/-- One command is placed, and closes the blocks that it ends. -/
theorem Passes.place (fresh : d.arena.Fresh) (placed : place c d = (.ok (), next))
    {blocks : List (Handle × Handle)}
    (ends : ∀ opener closer, Ends d next opener closer ↔ (opener, closer) ∈ blocks) :
    Passes d [c] blocks next := by
  have closing (opener closer : Handle) (rest : List Command) :
      Closing Draft.place opener closer d ([c] ++ rest) ↔
        (opener, closer) ∈ blocks ∨ Closing Draft.place opener closer next rest := by
    rw [List.singleton_append, closing_cons placed, ends]
  obtain ⟨_, h, b, linked, rfl⟩ := place_eq_ok_iff.mp placed
  obtain ⟨rfl, freshNow, size⟩ := linkIn_adds linked fresh
  exact ⟨freshNow, size, closing⟩

theorem frames_of_place (fresh : d.arena.Fresh) (placed : place c d = (.ok (), next)) :
    next.frames = framesAfter c.kind (.ofIndex d.arena.slots.size) d.frames := by
  obtain ⟨_, h, b, linked, rfl⟩ := place_eq_ok_iff.mp placed
  rw [(linkIn_adds linked fresh).1]

/-- A command behind which as many blocks are open as before, or more, closes none. -/
theorem Passes.onward (fresh : d.arena.Fresh) (placed : Draft.place c d = (.ok (), next))
    (deep : d.frames.length ≤ next.frames.length) : Passes d [c] [] next := by
  refine .place fresh placed fun opener closer => iff_of_false ?_ List.not_mem_nil
  rintro ⟨frame, frames, -⟩
  rw [frames, List.length_cons] at deep
  omega

/-- A command that closes the innermost block. -/
theorem Passes.close (fresh : d.arena.Fresh) (placed : Draft.place c d = (.ok (), next))
    {frame : Frame} (frames : d.frames = frame :: next.frames)
    (opens : frame.opener? = some opener) :
    Passes d [c] [(opener, .ofIndex d.arena.slots.size)] next := by
  refine .place fresh placed fun h close => ?_
  rw [ends_iff fresh placed, frames, List.mem_singleton, Prod.mk.injEq]
  refine and_congr_left' ?_
  constructor
  · rintro ⟨_, same, too⟩
    cases same
    exact Option.some.inj (too.symm.trans opens)
  · rintro rfl
    exact ⟨frame, rfl, opens⟩

theorem Passes.of_mem_iff {commands : List Command} {blocks others : List (Handle × Handle)}
    (passes : Passes d commands blocks next) (same : ∀ b, b ∈ blocks ↔ b ∈ others) :
    Passes d commands others next :=
  ⟨passes.fresh, passes.size, fun opener closer rest => by rw [passes.closing, same]⟩

/-- Where a program is placed, its blocks are closed as it says, and no other ones. -/
def Passed (program : Program) : Prop :=
  ∀ {d next : Draft}, d.arena.Fresh → placeAll program.commands d = (.ok (), next) →
    next.frames = d.frames ∧ Passes d program.commands (program.blocks d.arena.slots.size) next

theorem Passed.plain {program : Program} (isPlain : c.kind.isPlain) (passed : Passed program) :
    Passed (.plain c isPlain program) := by
  intro d final fresh placed
  obtain ⟨⟨⟩, next, first, others⟩ := Step.bind_eq_ok placed
  have frames := frames_of_place fresh first
  rw [framesAfter_of_isPlain isPlain] at frames
  have step := Passes.onward fresh first (by rw [frames])
  obtain ⟨kept, passes⟩ := passed step.fresh others
  refine ⟨kept.trans frames, ?_⟩
  rw [step.size] at passes
  exact step.trans passes

/-- A program with the command behind it that closes the block around it. -/
theorem Passed.ended {body : Program} (passed : Passed body) (fresh : d.arena.Fresh)
    {rest : List Command} {frames : List Frame} {frame : Frame} {final : Draft}
    (around : d.frames = frame :: frames) (opens : frame.opener? = some opener)
    (after : ∀ h, framesAfter c.kind h (frame :: frames) = frames)
    (placed : placeAll (body.commands ++ c :: rest) d = (.ok (), final)) :
    ∃ next, placeAll rest next = (.ok (), final) ∧ next.frames = frames ∧
      next.arena.slots.size = d.arena.slots.size + body.layout.size + 1 ∧
      Passes d (body.commands ++ [c])
        (body.blocks d.arena.slots.size ++
          [(opener, .ofIndex (d.arena.slots.size + body.layout.size))]) next := by
  obtain ⟨middle, inside, behind⟩ := exists_of_placeAll_append placed
  obtain ⟨⟨⟩, next, last, others⟩ := Step.bind_eq_ok behind
  obtain ⟨kept, passes⟩ := passed fresh inside
  have closed := frames_of_place passes.fresh last
  rw [kept, around, after] at closed
  have step := Passes.close passes.fresh last (by rw [kept, around, closed]) opens
  have size := passes.size
  rw [Program.length_commands] at size
  rw [size] at step
  refine ⟨next, others, closed, ?_, passes.trans step⟩
  rw [step.size, size, List.length_singleton]

/-- A block without `Else`, and what is behind it. -/
theorem Passed.enclosed {body behind : Program} (inside : Passed body) (after : Passed behind)
    (fresh : d.arena.Fresh) {ending : Command} (frame : Handle → Frame) {final : Draft}
    (own : ∀ h, (frame h).opener? = some h)
    (opens : ∀ h frames, framesAfter c.kind h frames = frame h :: frames)
    (closes : ∀ h first frames, framesAfter ending.kind h (first :: frames) = frames)
    (placed : placeAll (c :: (body.commands ++ ending :: behind.commands)) d = (.ok (), final)) :
    let base := d.arena.slots.size
    let close := base + 1 + body.layout.size
    final.frames = d.frames ∧
      Passes d (c :: (body.commands ++ ending :: behind.commands))
        ((.ofIndex base, .ofIndex close) :: (body.blocks (base + 1) ++ behind.blocks (close + 1)))
        final := by
  intro base close
  obtain ⟨⟨⟩, opened, first, others⟩ := Step.bind_eq_ok placed
  have around := frames_of_place fresh first
  rw [opens] at around
  have step := Passes.onward fresh first (by rw [around, List.length_cons]; omega)
  obtain ⟨next, rest, frames, size, block⟩ := inside.ended step.fresh around (own _)
    (fun h => closes h _ _) others
  obtain ⟨kept, passes⟩ := after block.fresh rest
  rw [step.size, List.length_singleton] at size block
  rw [size] at passes
  refine ⟨kept.trans frames, ?_⟩
  have whole := (step.trans block).trans passes
  rw [List.append_assoc, List.append_assoc] at whole
  refine whole.of_mem_iff fun b => ?_
  simp only [List.nil_append, List.mem_append, List.mem_cons, List.not_mem_nil, or_false]
  tauto

/-- An `If` with `Else`, and what is behind it. -/
theorem Passed.choice {opener alternative ending : Command} {inFirst inSecond behind : Program}
    (opens : opener.kind = .ifThen) (turns : alternative.kind = .otherwise)
    (closes : ending.kind = .endIf) (first : Passed inFirst) (second : Passed inSecond)
    (after : Passed behind) :
    Passed (.choice opener opens inFirst alternative turns inSecond ending closes behind) := by
  intro d final fresh placed
  obtain ⟨⟨⟩, opened, front, others⟩ := Step.bind_eq_ok placed
  have around := frames_of_place fresh front
  rw [opens] at around
  have step := Passes.onward fresh front (by rw [around]; exact Nat.le_succ _)
  obtain ⟨middle, inside, rest⟩ := exists_of_placeAll_append others
  obtain ⟨keptFirst, passesFirst⟩ := first step.fresh inside
  obtain ⟨⟨⟩, turned, turning, others⟩ := Step.bind_eq_ok rest
  have between := frames_of_place passesFirst.fresh turning
  rw [turns, keptFirst, around] at between
  have turn := Passes.onward passesFirst.fresh turning (by rw [keptFirst, around, between]; rfl)
  obtain ⟨next, rest, frames, size, block⟩ := second.ended turn.fresh between rfl
    (fun h => by rw [closes]; rfl) others
  obtain ⟨kept, passes⟩ := after block.fresh rest
  have sizeOpened := step.size
  have sizeMiddle := passesFirst.size
  have sizeTurned := turn.size
  rw [List.length_singleton] at sizeOpened sizeTurned
  rw [sizeOpened] at passesFirst
  rw [Program.length_commands, sizeOpened] at sizeMiddle
  rw [sizeTurned, sizeMiddle] at size block
  rw [size] at passes
  refine ⟨kept.trans frames, ?_⟩
  have whole := (step.trans (passesFirst.trans (turn.trans block))).trans passes
  simp only [List.append_assoc, List.cons_append, List.nil_append] at whole
  refine whole.of_mem_iff fun b => ?_
  simp only [Program.blocks, List.mem_append, List.mem_cons]
  tauto

/-- The blocks of every program are closed as it says. -/
theorem passed (program : Program) : Passed program := by
  induction program with
  | done =>
      intro d next fresh placed
      cases placed
      exact ⟨rfl, fresh, rfl, fun _ _ _ => (or_iff_right List.not_mem_nil).symm⟩
  | plain c isPlain next ih => exact Passed.plain isPlain ih
  | script opener opens body closer closes next bodyIH nextIH =>
      intro d final fresh placed
      exact bodyIH.enclosed nextIH fresh .script (fun _ => rfl)
        (fun h frames => by rw [opens]; rfl) (fun h first frames => by rw [closes]; rfl) placed
  | block opener body closer ends next bodyIH nextIH =>
      intro d final fresh placed
      exact bodyIH.enclosed nextIH fresh (.branch · opener.kind 0) (fun _ => rfl)
        (fun h frames => framesAfter_of_ownsBranches (CommandKind.ownsBranches_of_branchEnds ends) h)
        (fun h first frames => framesAfter_of_branchEnds ends h) placed
  | choice opener opens first alternative turns second closer closes next firstIH secondIH nextIH =>
      exact Passed.choice opens turns closes firstIH secondIH nextIH

end Draft

/-! ## Branch ends -/

/-- A command is a branch end by its name only if this is its type name. -/
theorem Command.isBranchEnd_eq {c : Command} (other : c.typeName ≠ "BranchEnd".toList) :
    c.isBranchEnd = c.kind.endsBranch := by
  have name : ("BranchEnd".toList == c.typeName) = false := by
    rw [beq_eq_false_iff_ne]
    exact Ne.symm other
  unfold isBranchEnd isOfType
  rw [name]
  cases c.kind <;> rfl

/-- The type name of a command that a line describes is a keyword or the name of its kind. -/
theorem Command.typeName_of_ofLine {keywords : Keywords} {line : Text} {c : Command}
    (read : ofLine keywords line = .ok c) :
    keywords.contains c.typeName ∨ c.typeName = c.kind.name := by
  obtain ⟨instruction, proper, described⟩ := described_of_ofLine read
  cases described with
  | assignment => exact .inr rfl
  | callWithOutputs => exact .inr rfl
  | call => exact .inr rfl
  | keyword shape => exact .inl (Text.keywordPart_of_shape proper.toTrimmed shape).2

/-- The statements of a script are those of its blocks, in their places. -/
theorem exists_ofBlock_of_parseScript {keywords : Keywords} {text : Text}
    {statements : List Statement} (parsed : parseScript keywords text = .ok statements) :
    ∀ s ∈ statements, ∃ block read, Statement.ofBlock keywords block = .ok read ∧
      s = { read with span := s.span } := by
  intro s member
  unfold parseScript at parsed
  dsimp only at parsed
  split at parsed
  · cases parsed
    obtain ⟨⟨span, result⟩, listed, kept⟩ := List.mem_filterMap.mp member
    obtain ⟨block, _, made⟩ := List.mem_map.mp listed
    cases made
    cases read : Statement.ofBlock keywords block.text with
    | error e =>
        rw [read] at kept
        cases kept
    | ok st =>
        rw [read] at kept
        cases kept
        exact ⟨_, st, read, rfl⟩
  · cases parsed

namespace Mission

variable {m : Mission} {keywords : Keywords} {source : Nat} {text : Text}
  {statements : List Statement}

/-- Where no keyword is called like a branch end, the branch ends of a mission are those by kind. -/
theorem Draws.endsByKind {program : Program} (draws : m.Draws program)
    (parsed : parseScript keywords text = .ok statements)
    (commands : program.commands = missionCommands statements)
    (noName : ¬keywords.contains "BranchEnd".toList) : m.arena.EndsByKind := by
  intro h c found
  apply Command.isBranchEnd_eq
  obtain ⟨node, held, rfl⟩ := Option.map_eq_some_iff.mp found
  rcases draws.command_of_node? held with head | listed
  · rw [head]
    decide
  · rw [commands] at listed
    obtain ⟨s, member, described⟩ := List.mem_filterMap.mp listed
    obtain ⟨block, read, readBlock, placed⟩ :=
      exists_ofBlock_of_parseScript parsed s (mem_of_mem_missionStatements member)
    have built := (Command.renders_of_command? described).built
    have same : Command.ofStatement s = Command.ofStatement read :=
      Command.ofStatement_congr (by rw [placed]; rfl) (by rw [placed])
    have line : Command.ofLine keywords block = .ok { node.command with span := none } := by
      rw [Command.ofLine, readBlock]
      exact same.symm.trans built
    rcases Command.typeName_of_ofLine line with known | kind
    · intro same
      rw [same] at known
      exact noName known
    · intro same
      rw [kind] at same
      revert same
      cases node.command.kind <;> decide

/-- The statements of an accepted script close the blocks of its program. -/
theorem closing_iff {program : Program} (accepted : ofStatements source statements = .ok m)
    (commands : program.commands = missionCommands statements) (opener closer : Handle) :
    Draft.Closing Draft.add opener closer (.start .empty) statements ↔
      (opener, closer) ∈ program.blocks 1 := by
  obtain ⟨store, b, sound, places, rfl⟩ := ofStatements_eq_ok_iff.mp accepted
  have steps : Draft.describe (Draft.steps (Draft.start .empty).inMission statements) =
      program.commands := by
    rw [commands, Draft.start_eq, Draft.steps_false]
    rfl
  rw [← commands, ← steps] at places
  obtain ⟨final, added, -⟩ :
      ∃ final, Draft.addAll source statements (.start .empty) = ([], final) ∧ _ :=
    Draft.addAll_eq_nil_iff.mpr ⟨sound, places⟩
  rw [steps] at places
  have passes := (Draft.passed program (Draft.anchored_start .empty).fresh places).2
  have closing := passes.closing opener closer []
  rw [List.append_nil, or_iff_left Draft.closing_nil] at closing
  rw [Draft.closing_add added, steps, closing, Draft.start_eq]
  rfl

section

variable {program : Program} (draws : m.Draws program)

include draws

/-- The links find the blocks of the program. -/
theorem Draws.encloses (ends : m.arena.EndsByKind) {h close : Handle}
    (member : (h, close) ∈ program.blocks 1) : m.arena.Encloses h close := by
  have drawn : m.arena.Drawn none 1 (some (.ofIndex 0)) (program.layout ++ .done) := by
    rw [Layout.append_done]
    exact draws.drawn.after
  have full := draws.full
  rw [Layout.size_step, Layout.size_done] at full
  have wide : m.arena.slots.size < m.arena.linkLimit :=
    Nat.lt_of_lt_of_le (Nat.lt_succ_self _) (Nat.le_mul_of_pos_left _ (Nat.succ_pos _))
  exact Arena.encloses_of_mem_blocks ends program drawn (by rw [Layout.append_done]; omega) member

/-- Every command of the sequence that opens a block has one. -/
theorem Draws.exists_mem_blocks {h : Handle} {c : Command} (found : m.arena.command? h = some c)
    (opens : c.kind.opensBlock) : ∃ close, (h, close) ∈ program.blocks 1 := by
  have drawn : m.arena.Drawn none 1 (some (.ofIndex 0)) (program.layout ++ .done) := by
    rw [Layout.append_done]
    exact draws.drawn.after
  have full := draws.full
  rw [Layout.size_step, Layout.size_done] at full
  obtain ⟨node, held, _⟩ := Option.map_eq_some_iff.mp found
  have live : m.arena.contains h := by
    rw [Arena.contains, held]
    rfl
  obtain ⟨index, inside, rfl⟩ := draws.fresh.contains_iff.mp live
  have kind : m.arena.kind? (.ofIndex index) = some c.kind := by
    rw [Arena.kind?, found]
    rfl
  refine Arena.exists_mem_blocks program drawn ?_ (by omega) kind opens
  -- The head opens no block.
  by_contra first
  obtain rfl : index = 0 := by omega
  rw [Arena.command?_of_drawn draws.drawn] at found
  cases found
  cases opens

/-- What follows a command can always be told. -/
theorem Draws.exists_nextCommand (ends : m.arena.EndsByKind) {h : Handle}
    (live : m.arena.contains h) : ∃ next, m.arena.nextCommand h = .ok next := by
  obtain ⟨node, found⟩ := Option.isSome_iff_exists.mp live
  unfold Arena.nextCommand
  rw [found]
  by_cases script : node.command.kind = .beginScript
  · have held : m.arena.command? h = some node.command := by
      rw [Arena.command?, found]
      rfl
    obtain ⟨close, member⟩ := draws.exists_mem_blocks held (by rw [script]; rfl)
    simp only [script, if_true, (draws.encloses ends member).matching]
    exact ⟨_, rfl⟩
  · simp only [script, if_false]
    exact ⟨_, rfl⟩

end

/-- In the sequence of an accepted source, the links find for every block the command that was added with
the statement that closed it: at the end of the last branch, or on the chain of a script block. The
command after a command can always be told. -/
theorem ofSource_closes (accepted : Mission.ofSource .builtin source text = .ok m) :
    (∃ statements, parseScript .builtin text = .ok statements ∧
      ∀ opener c, m.arena.command? opener = some c → c.kind.opensBlock →
        ∃ closer, m.arena.Encloses opener closer ∧
          ∀ other, Draft.Closing Draft.add opener other (.start .empty) statements ↔
            other = closer) ∧
      ∀ h, m.arena.contains h → ∃ next, m.arena.nextCommand h = .ok next := by
  unfold ofSource at accepted
  cases parsed : parseScript .builtin text with
  | error errors =>
      rw [parsed] at accepted
      cases accepted
  | ok statements =>
      rw [parsed] at accepted
      obtain ⟨_, _, ⟨program, commands⟩, each⟩ := draws_of_accepted accepted
      have draws := each program commands
      have ends := draws.endsByKind parsed commands (by decide)
      refine ⟨⟨statements, rfl, fun opener c found opens => ?_⟩,
        fun h live => draws.exists_nextCommand ends live⟩
      obtain ⟨closer, member⟩ := draws.exists_mem_blocks found opens
      have encloses := draws.encloses ends member
      refine ⟨closer, encloses, fun other => ?_⟩
      rw [closing_iff accepted commands]
      constructor
      · intro too
        exact Option.some.inj ((draws.encloses ends too).matching.symm.trans encloses.matching)
      · rintro rfl
        exact member

theorem ofSource_closes_optimize :
    ∃ m, Mission.ofSource .builtin 0
        "Optimize DC1\nBeginScript\nTarget DC2\nStop;\nEndTarget;\nEndScript;\nEndOptimize;".toList = .ok m ∧
      (∃ statements, parseScript .builtin
          "Optimize DC1\nBeginScript\nTarget DC2\nStop;\nEndTarget;\nEndScript;\nEndOptimize;".toList =
            .ok statements ∧
        ∀ opener c, m.arena.command? opener = some c → c.kind.opensBlock →
          ∃ closer, m.arena.Encloses opener closer ∧
            ∀ other, Draft.Closing Draft.add opener other (.start .empty) statements ↔
              other = closer) ∧
        ∀ h, m.arena.contains h → ∃ next, m.arena.nextCommand h = .ok next := by
  have accepted : (Mission.ofSource .builtin 0
      "Optimize DC1\nBeginScript\nTarget DC2\nStop;\nEndTarget;\nEndScript;\nEndOptimize;".toList).isOk := by
    decide +kernel
  obtain ⟨m, built⟩ := Outcome.exists_of_isOk accepted
  exact ⟨m, built, ofSource_closes built⟩

end Mission

end MissionScript
