import MissionScript.Mission.Draft
import MissionScript.Proofs.Mission.Program
import MissionScript.Proofs.Sequence.Growth

/-!
# Drafting programs

A draft takes commands one at a time and knows the open blocks only. Adding the commands of a program
always succeeds and draws the layout of the program; and commands that a draft takes, with no block
open before and after, are the commands of a program.
-/

namespace MissionScript

namespace Draft

/-- Check, link and account for one command. -/
def place (c : Command) : Drafting Unit := do
  checkEnd c
  let h ← link c
  modify fun d => { d with frames := framesAfter c.kind h d.frames }

/-- Place commands in order. -/
def placeAll : List Command → Drafting Unit
  | [] => return
  | c :: rest => do
    place c
    placeAll rest

variable {d next final : Draft} {c : Command} {p : Point}

theorem placeAll_append {commands rest : List Command}
    (placed : placeAll commands d = (.ok (), next)) :
    placeAll (commands ++ rest) d = placeAll rest next := by
  induction commands generalizing d with
  | nil =>
      cases placed
      rfl
  | cons c commands ih =>
      obtain ⟨⟨⟩, middle, first, others⟩ := Step.bind_eq_ok placed
      rw [List.cons_append, placeAll, Step.bind_ok first]
      exact ih others

theorem exists_of_placeAll_append {commands rest : List Command}
    (placed : placeAll (commands ++ rest) d = (.ok (), final)) :
    ∃ next, placeAll commands d = (.ok (), next) ∧ placeAll rest next = (.ok (), final) := by
  induction commands generalizing d with
  | nil => exact ⟨d, rfl, placed⟩
  | cons c commands ih =>
      obtain ⟨⟨⟩, middle, first, others⟩ := Step.bind_eq_ok placed
      obtain ⟨next, inside, behind⟩ := ih others
      exact ⟨next, (Step.bind_ok first).trans inside, behind⟩

/-- An end of a block or a branch fits the innermost open block. -/
def Admits (frames : List Frame) (kind : CommandKind) : Prop :=
  kind = .otherwise ∨ kind.closesBlock → frames.head?.any (·.admits kind)

theorem checkEnd_ok (admits : Admits d.frames c.kind) : checkEnd c d = (.ok (), d) := by
  unfold checkEnd
  by_cases ends : c.kind = .otherwise ∨ c.kind.closesBlock
  · have fits := admits ends
    simp only [Bool.or_eq_true, decide_eq_true_eq, ends, if_true, Step.get_bind, fits,
      Bool.not_true, Bool.false_eq_true, if_false]
    rfl
  · simp only [Bool.or_eq_true, decide_eq_true_eq, ends, if_false]
    rfl

/-- A draft only takes what fits. -/
theorem admits_of_checkEnd (checked : checkEnd c d = (.ok (), next)) :
    Admits d.frames c.kind ∧ next = d := by
  by_cases fits : Admits d.frames c.kind
  · rw [checkEnd_ok fits] at checked
    cases checked
    exact ⟨fits, rfl⟩
  · obtain ⟨ends, refused⟩ := Classical.not_imp.mp fits
    unfold checkEnd at checked
    simp only [Bool.or_eq_true, decide_eq_true_eq, ends, if_true, Step.get_bind] at checked
    rw [if_pos (by simpa using refused)] at checked
    cases checked

theorem edit_bind {α β : Type} (e : Edit α) (more : α → Edit β) (d : Draft) :
    edit (e >>= more) d = (edit e >>= fun value => edit (more value)) d := by
  cases ran : e d.arena with
  | mk outcome arena =>
      have edited : edit e d = (outcome, { d with arena }) := by
        simp only [edit, ran]
      cases outcome with
      | ok value =>
          rw [Step.bind_ok edited]
          simp only [edit, Step.bind_ok ran]
      | error error =>
          rw [Step.bind_error edited]
          simp only [edit, Step.bind_error ran]

/-- Put a command in the arena. -/
def insertion (c : Command) : Edit Handle := fun a => (.ok (a.insert c).1, (a.insert c).2)

/-- Put a command in the arena and link it in a place, a branch or the chain of `head`. -/
def linkIn (head : Handle) (place : Option (Handle × Nat)) (c : Command) : Edit Handle := do
  let h ← insertion c
  match place with
  | some (owner, branch) => Edit.appendToBranch owner branch h
  | none => Edit.append head h
  return h

theorem link_eq (c : Command) (d : Draft) :
    link c d = edit (linkIn d.head (d.frames.findSome? Frame.place?) c) d := by
  have inserted : edit (insertion c) d =
      (.ok (d.arena.insert c).1, { d with arena := (d.arena.insert c).2 }) := rfl
  unfold link linkIn
  rw [edit_bind, Step.bind_ok inserted]
  refine (Step.bind_ok inserted).trans ?_
  rw [Step.get_bind]
  dsimp only
  cases d.frames.findSome? Frame.place? with
  | none =>
      dsimp only
      rw [edit_bind]
      rfl
  | some place =>
      dsimp only
      rw [edit_bind]
      rfl

/-- When a command can be placed, and what is changed then. -/
theorem place_eq_ok_iff :
    place c d = (.ok (), next) ↔
      Admits d.frames c.kind ∧
        ∃ h b, linkIn d.head (d.frames.findSome? Frame.place?) c d.arena = (.ok h, b) ∧
          next = { d with arena := b, frames := framesAfter c.kind h d.frames } := by
  constructor
  · intro placed
    obtain ⟨⟨⟩, checked, check, others⟩ := Step.bind_eq_ok placed
    obtain ⟨h, middle, linked, counted⟩ := Step.bind_eq_ok others
    obtain ⟨admits, rfl⟩ := admits_of_checkEnd check
    rw [link_eq] at linked
    cases ran : linkIn checked.head (checked.frames.findSome? Frame.place?) c checked.arena with
    | mk outcome b =>
        simp only [edit, ran] at linked
        cases linked
        rw [Step.modify_apply] at counted
        cases counted
        exact ⟨admits, h, b, rfl, rfl⟩
  · rintro ⟨admits, h, b, ran, rfl⟩
    have linked : link c d = (.ok h, { d with arena := b }) := by
      rw [link_eq]
      simp only [edit, ran]
    unfold place
    rw [Step.bind_ok (checkEnd_ok admits), Step.bind_ok linked]
    rfl

/-- A command is linked at the point where it is awaited. -/
theorem exists_linkIn {a : Arena} {head : Handle} {place : Option (Handle × Nat)} (fresh : a.Fresh)
    (awaits : a.Awaits head place p) (c : Command) :
    ∃ b, linkIn head place c a = (.ok (.ofIndex a.slots.size), b) ∧
      a.Grown b p (.step c .done .done .done) ∧ b.Fresh := by
  have inserted : insertion c a = (.ok (.ofIndex a.slots.size), a.push (.ofCommand c)) := by
    simp only [insertion, fresh.insert]
  unfold linkIn
  rw [Step.bind_ok inserted]
  cases awaits with
  | main path live =>
      obtain ⟨b, ran, grown, freshNow⟩ := Arena.exists_append fresh c path live
      exact ⟨b, Step.bind_ok ran, grown, freshNow⟩
  | @branch owner _ last number first path live lastLive =>
      have awaited : a.Awaits head (some (owner, number)) (.after last) :=
        .branch first path live lastLive
      obtain ⟨b, ran, grown, freshNow⟩ := Arena.exists_appendToBranch fresh c awaited
      exact ⟨b, Step.bind_ok ran, grown, freshNow⟩
  | @empty owner number vacant live =>
      have awaited : a.Awaits head (some (owner, number)) (.inside owner number) :=
        .empty vacant live
      obtain ⟨b, ran, grown, freshNow⟩ := Arena.exists_appendToBranch fresh c awaited
      exact ⟨b, Step.bind_ok ran, grown, freshNow⟩

/-- A command that fits is placed. -/
theorem exists_place (fresh : d.arena.Fresh)
    (awaits : d.arena.Awaits d.head (d.frames.findSome? Frame.place?) p)
    (admits : Admits d.frames c.kind) :
    ∃ b, place c d = (.ok (),
        { d with
          arena := b
          frames := framesAfter c.kind (.ofIndex d.arena.slots.size) d.frames }) ∧
      d.arena.Grown b p (.step c .done .done .done) ∧ b.Fresh := by
  obtain ⟨b, linked, grown, freshNow⟩ := exists_linkIn fresh awaits c
  exact ⟨b, place_eq_ok_iff.mpr ⟨admits, _, b, linked, rfl⟩, grown, freshNow⟩

/-! ## Programs are drafted -/

/-- Frames that commands go through. -/
theorem admits_of_isPlain {frames : List Frame} {kind : CommandKind} (isPlain : kind.isPlain) :
    Admits frames kind := by
  rintro (rfl | closes)
  · cases isPlain
  · cases kind <;> simp_all [CommandKind.isPlain, CommandKind.closesBlock]

theorem framesAfter_of_isPlain {frames : List Frame} {kind : CommandKind} (isPlain : kind.isPlain)
    (h : Handle) : framesAfter kind h frames = frames := by
  cases kind <;> simp_all [CommandKind.isPlain, framesAfter, CommandKind.ownsBranches,
    CommandKind.closesBlock]

theorem admits_of_opens {frames : List Frame} {kind : CommandKind} (opens : kind.opensBlock) :
    Admits frames kind := by
  rintro (rfl | closes)
  · cases opens
  · cases kind <;> simp_all [CommandKind.opensBlock, CommandKind.terminator?,
      CommandKind.closesBlock]

theorem framesAfter_of_ownsBranches {frames : List Frame} {kind : CommandKind}
    (owns : kind.ownsBranches) (h : Handle) :
    framesAfter kind h frames = .branch h kind 0 :: frames := by
  cases kind <;> simp_all [framesAfter, CommandKind.ownsBranches]

theorem admits_of_branchEnds {frames : List Frame} {opener closer : CommandKind}
    (ends : (opener, closer) ∈ CommandKind.branchEnds) (h : Handle) (current : Nat) :
    Admits (.branch h opener current :: frames) closer := by
  intro _
  have terminator := CommandKind.terminator?_of_branchEnds ends
  cases closer <;> simp_all [CommandKind.branchEnds, Frame.admits, Frame.closer]

theorem framesAfter_of_branchEnds {frames : List Frame} {frame : Frame}
    {opener closer : CommandKind} (ends : (opener, closer) ∈ CommandKind.branchEnds) (h : Handle) :
    framesAfter closer h (frame :: frames) = frames := by
  cases closer <;> simp_all [CommandKind.branchEnds, framesAfter, CommandKind.ownsBranches,
    CommandKind.closesBlock]

/-- A program can be added wherever a draft stands: it draws its layout, and the open blocks stay as
they were. -/
def Drafted (program : Program) : Prop :=
  ∀ (d : Draft) (p : Point), d.arena.Fresh →
    d.arena.Awaits d.head (d.frames.findSome? Frame.place?) p →
    ∃ b, placeAll program.commands d = (.ok (), { d with arena := b }) ∧
      d.arena.Grown b p program.layout ∧ b.Fresh

/-- A program with the command behind it that ends a block or a branch. -/
theorem Drafted.ended {body : Program} (drafted : Drafted body) (fresh : d.arena.Fresh)
    (awaits : d.arena.Awaits d.head (d.frames.findSome? Frame.place?) p)
    (admits : Admits d.frames c.kind) {frames : List Frame}
    (after : ∀ h, framesAfter c.kind h d.frames = frames) :
    ∃ b, placeAll (body.commands ++ [c]) d = (.ok (), { d with arena := b, frames }) ∧
      d.arena.Grown b p (body.layout ++ .step c .done .done .done) ∧ b.Fresh := by
  obtain ⟨b, ran, grown, freshNow⟩ := drafted d p fresh awaits
  obtain ⟨final, placed, more, freshThen⟩ := @exists_place { d with arena := b } c _ freshNow
    (awaits.grow grown) admits
  refine ⟨final, ?_, grown.append more, freshThen⟩
  rw [placeAll_append ran, placeAll, Step.bind_ok placed]
  simp only [after]
  rfl

theorem Drafted.plain {c : Command} {next : Program} (isPlain : c.kind.isPlain)
    (drafted : Drafted next) : Drafted (.plain c isPlain next) := by
  intro d p fresh awaits
  obtain ⟨b, placed, grown, freshNow⟩ := exists_place fresh awaits (admits_of_isPlain isPlain)
  rw [framesAfter_of_isPlain isPlain] at placed
  obtain ⟨final, ran, more, freshThen⟩ := drafted { d with arena := b } _ freshNow
    (awaits.grow grown)
  refine ⟨final, ?_, grown.append more, freshThen⟩
  rw [Program.commands, placeAll, Step.bind_ok placed]
  exact ran

theorem Drafted.script {opener closer : Command} {body next : Program}
    (opens : opener.kind = .beginScript) (closes : closer.kind = .endScript)
    (inside : Drafted body) (behind : Drafted next) :
    Drafted (.script opener opens body closer closes next) := by
  intro d p fresh awaits
  obtain ⟨opened, placed, grown, freshOpened⟩ := exists_place (c := opener) fresh awaits
    (admits_of_opens (by rw [opens]; rfl))
  have awaitsOpened := awaits.grow grown
  obtain ⟨closed, filled, more, freshClosed⟩ := @Drafted.ended
    { d with
      arena := opened
      frames := framesAfter opener.kind (.ofIndex d.arena.slots.size) d.frames }
    closer _ _ inside freshOpened (by rw [opens]; exact awaitsOpened)
    (by rw [opens, closes]; intro _; rfl) d.frames (by intro h; rw [opens, closes]; rfl)
  have whole := grown.append more
  obtain ⟨final, ran, rest, freshFinal⟩ := behind { d with arena := closed } _ freshClosed
    (awaits.grow whole)
  refine ⟨final, ?_, ?_, freshFinal⟩
  · rw [Program.commands, placeAll, Step.bind_ok placed, List.append_cons, placeAll_append filled]
    exact ran
  · have joined := whole.append rest
    simpa only [Program.layout, Layout.step_append, Layout.done_append, Layout.append_assoc]
      using joined

theorem Drafted.block {opener closer : Command} {body next : Program}
    (ends : (opener.kind, closer.kind) ∈ CommandKind.branchEnds)
    (inside : Drafted body) (behind : Drafted next) :
    Drafted (.block opener body closer ends next) := by
  intro d p fresh awaits
  have owns := CommandKind.ownsBranches_of_branchEnds ends
  obtain ⟨opened, placed, grown, freshOpened⟩ := exists_place (c := opener) fresh awaits
    (admits_of_opens (by rw [CommandKind.opensBlock, CommandKind.terminator?_of_branchEnds ends]; rfl))
  rw [framesAfter_of_ownsBranches owns] at placed
  obtain ⟨closed, filled, more, freshClosed⟩ := @Drafted.ended
    { d with
      arena := opened
      frames := .branch (.ofIndex d.arena.slots.size) opener.kind 0 :: d.frames }
    closer _ _ inside freshOpened (.first grown) (admits_of_branchEnds ends _ _) d.frames
    (framesAfter_of_branchEnds ends)
  have whole := grown.inFirst owns more
  obtain ⟨final, ran, rest, freshFinal⟩ := behind { d with arena := closed } _ freshClosed
    (awaits.grow whole)
  refine ⟨final, ?_, whole.append rest, freshFinal⟩
  rw [Program.commands, placeAll, Step.bind_ok placed, List.append_cons, placeAll_append filled]
  exact ran

theorem Drafted.choice {opener alternative closer : Command} {first second next : Program}
    (opens : opener.kind = .ifThen) (turns : alternative.kind = .otherwise)
    (closes : closer.kind = .endIf) (inFirst : Drafted first) (inSecond : Drafted second)
    (behind : Drafted next) :
    Drafted (.choice opener opens first alternative turns second closer closes next) := by
  intro d p fresh awaits
  have owns : opener.kind.ownsBranches := by rw [opens]; rfl
  obtain ⟨opened, placed, grown, freshOpened⟩ := exists_place (c := opener) fresh awaits
    (admits_of_opens (by rw [opens]; rfl))
  rw [framesAfter_of_ownsBranches owns] at placed
  obtain ⟨turned, filledFirst, moreFirst, freshTurned⟩ := @Drafted.ended
    { d with
      arena := opened
      frames := .branch (.ofIndex d.arena.slots.size) opener.kind 0 :: d.frames }
    alternative _ _ inFirst freshOpened (.first grown)
    (by rw [opens, turns]; intro _; rfl)
    (.branch (.ofIndex d.arena.slots.size) opener.kind 1 :: d.frames)
    (by intro h; rw [turns]; rfl)
  have half := grown.inFirst owns moreFirst
  obtain ⟨closed, filledSecond, moreSecond, freshClosed⟩ := @Drafted.ended
    { d with
      arena := turned
      frames := .branch (.ofIndex d.arena.slots.size) opener.kind 1 :: d.frames }
    closer _ _ inSecond freshTurned (.second half)
    (by rw [opens, closes]; intro _; rfl) d.frames (by intro h; rw [closes]; rfl)
  have whole := half.inSecond owns moreSecond
  obtain ⟨final, ran, rest, freshFinal⟩ := behind { d with arena := closed } _ freshClosed
    (awaits.grow whole)
  refine ⟨final, ?_, whole.append rest, freshFinal⟩
  rw [Program.commands, placeAll, Step.bind_ok placed, List.append_cons,
    placeAll_append filledFirst, List.append_cons, placeAll_append filledSecond]
  exact ran

/-- Adding the commands of a program always succeeds. -/
theorem drafted (program : Program) : Drafted program := by
  induction program with
  | done => exact fun d p fresh _ => ⟨d.arena, rfl, .refl _ _, fresh⟩
  | plain c isPlain next ih => exact ih.plain isPlain
  | script opener opens body closer closes next bodyIH nextIH =>
      exact .script opens closes bodyIH nextIH
  | block opener body closer ends next bodyIH nextIH => exact .block ends bodyIH nextIH
  | choice opener opens first alternative turns second closer closes next firstIH secondIH nextIH =>
      exact .choice opens turns closes firstIH secondIH nextIH

/-! ## What is drafted is a program -/

/-- The commands that are missing while some blocks are open: the rest of each block with its end,
innermost first, and then a program on the main line. -/
inductive Closes : List Frame → List Command → Prop where
  | done (program : Program) : Closes [] program.commands
  | close (body : Program) {frame : Frame} {c : Command} {frames : List Frame}
      {rest : List Command} :
      frame.closer = c.kind → Closes frames rest →
      Closes (frame :: frames) (body.commands ++ c :: rest)
  | turn (body : Program) {opener : Handle} {c : Command} {frames : List Frame}
      {rest : List Command} :
      c.kind = .otherwise → Closes (.branch opener .ifThen 1 :: frames) rest →
      Closes (.branch opener .ifThen 0 :: frames) (body.commands ++ c :: rest)

namespace Closes

variable {frames : List Frame} {commands : List Command}

/-- More can stand in front, in the innermost block. -/
theorem prepend (closes : Closes frames commands) (front : Program) :
    Closes frames (front.commands ++ commands) := by
  cases closes with
  | done program =>
      rw [← Program.commands_append]
      exact .done _
  | close body closer rest =>
      rw [← List.append_assoc, ← Program.commands_append]
      exact .close _ closer rest
  | turn body turns rest =>
      rw [← List.append_assoc, ← Program.commands_append]
      exact .turn _ turns rest

theorem plain (closes : Closes frames commands) (isPlain : c.kind.isPlain) :
    Closes frames (c :: commands) :=
  closes.prepend (.plain c isPlain .done)

/-- A block that is closed stands in the block around it. -/
theorem script (opens : c.kind = .beginScript) {h : Handle}
    (closes : Closes (.script h :: frames) commands) : Closes frames (c :: commands) := by
  cases closes with
  | close body closer rest =>
      have whole := rest.prepend (.script c opens body _ closer.symm .done)
      simpa [Program.commands] using whole

theorem branch (owns : c.kind.ownsBranches) {h : Handle}
    (closes : Closes (.branch h c.kind 0 :: frames) commands) : Closes frames (c :: commands) := by
  generalize kind : c.kind = opener at closes
  cases closes with
  | close body closer rest =>
      rename_i ending behind
      have ends : (c.kind, ending.kind) ∈ CommandKind.branchEnds := by
        rw [← closer, ← kind]
        exact CommandKind.mem_branchEnds owns
      have whole := rest.prepend (.block c body ending ends .done)
      simpa [Program.commands] using whole
  | turn first turns rest =>
      rename_i alternative behind
      cases rest with
      | close second closer rest =>
          rename_i ending behind
          have whole := rest.prepend
            (.choice c kind first alternative turns second ending closer.symm .done)
          simpa [Program.commands] using whole

/-- With no block open, what is missing is a program. -/
theorem exists_program (closes : Closes [] commands) :
    ∃ program : Program, program.commands = commands := by
  cases closes with
  | done program => exact ⟨program, rfl⟩

end Closes

/-- The blocks that are open have been opened by commands, of which something holds. -/
def Opened (p : Handle → Prop) (frames : List Frame) : Prop :=
  ∀ frame ∈ frames, ∃ h, frame.opener? = some h ∧ p h

theorem Opened.after {p : Handle → Prop} {frames : List Frame} {h : Handle} (opened : Opened p frames)
    (kind : CommandKind) (now : p h) : Opened p (framesAfter kind h frames) := by
  unfold framesAfter
  split
  · exact List.forall_mem_cons.mpr ⟨⟨h, rfl, now⟩, opened⟩
  · split
    · cases frames with
      | nil => exact opened
      | cons frame frames =>
          obtain ⟨⟨opener, opens, old⟩, others⟩ := List.forall_mem_cons.mp opened
          refine List.forall_mem_cons.mpr ⟨⟨opener, ?_, old⟩, others⟩
          cases frame <;> exact opens
    · split
      · exact List.forall_mem_cons.mpr ⟨⟨h, rfl, now⟩, opened⟩
      · split
        · exact fun frame member => opened frame (List.mem_of_mem_tail member)
        · exact opened

/-- Commands that leave no block open close all that were open before. -/
theorem closes_of_placeAll {commands : List Command} (opened : Opened (fun _ => True) d.frames)
    (placed : placeAll commands d = (.ok (), final)) (closed : final.frames = []) :
    Closes d.frames commands := by
  induction commands generalizing d with
  | nil =>
      cases placed
      rw [closed]
      exact .done .done
  | cons c rest ih =>
      obtain ⟨⟨⟩, middle, first, others⟩ := Step.bind_eq_ok placed
      obtain ⟨admits, h, b, _, rfl⟩ := place_eq_ok_iff.mp first
      have closes := ih (opened.after _ trivial) others
      dsimp only at closes
      rcases c.kind.cases_of_kind with isPlain | script | owns | turns | ends
      · rw [framesAfter_of_isPlain isPlain] at closes
        exact closes.plain isPlain
      · rw [script] at closes
        exact closes.script script
      · rw [framesAfter_of_ownsBranches owns] at closes
        exact closes.branch owns
      · have admitted := admits (.inl turns)
        rw [turns] at closes admitted
        cases open' : d.frames with
        | nil => simp [open'] at admitted
        | cons frame frames =>
            rw [open'] at closes opened admitted
            cases frame with
            | script => cases admitted
            | failed =>
                obtain ⟨_, none, _⟩ := opened _ List.mem_cons_self
                cases none
            | branch opener kind current =>
                simp only [List.head?_cons, Option.any_some, Frame.admits, Bool.and_eq_true,
                  decide_eq_true_eq, beq_iff_eq] at admitted
                obtain ⟨rfl, rfl⟩ := admitted
                exact .turn .done turns closes
      · have admitted := admits (.inr ends)
        cases open' : d.frames with
        | nil => simp [open'] at admitted
        | cons frame frames =>
            rw [open'] at closes admitted
            have closer : frame.closer = c.kind := by
              cases kind : c.kind <;> simp_all [CommandKind.closesBlock, Frame.admits]
            have after : framesAfter c.kind h (frame :: frames) = frames := by
              cases kind : c.kind <;>
                simp_all [CommandKind.closesBlock, framesAfter, CommandKind.ownsBranches]
            rw [after] at closes
            exact .close .done closer closes

/-- Commands that a draft takes, with no block open before and after, make up a program. -/
theorem exists_program_of_placeAll {commands : List Command} (nothing : d.frames = [])
    (placed : placeAll commands d = (.ok (), final)) (closed : final.frames = []) :
    ∃ program : Program, program.commands = commands := by
  have closes := closes_of_placeAll (by rw [nothing]; exact List.forall_mem_nil _) placed closed
  rw [nothing] at closes
  exact closes.exists_program

end Draft

end MissionScript
