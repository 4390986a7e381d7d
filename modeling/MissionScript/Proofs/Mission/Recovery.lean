import MissionScript.Proofs.Mission.Statements
import MissionScript.Proofs.Sequence.Insertion

/-!
# Recovering from an opener that fails

A statement that opens a block opens it also when its arguments do not make a command: what follows is
checked against the same open blocks, so that one mistake is reported once. A draft with such an opener
is compared with the draft in which the opener is a command. The two link their commands in different
places, but no check looks at those; the open blocks differ in one entry, which has a command in one of
them only.
-/

namespace MissionScript

/-! ## What a draft shows of its blocks -/

/-- A block that is open, without the handle of its command. -/
structure OpenBlock where
  kind : CommandKind
  /-- The branch that is open. -/
  current : Nat
  /-- How errors name the command that opens the block, if there is one, and where it stands. -/
  opening : Option (Subject × Span)

namespace OpenBlock

/-- The kind of command that closes the block. -/
def closer (block : OpenBlock) : CommandKind := block.kind.terminator?.getD .noOp

def admits (block : OpenBlock) (kind : CommandKind) : Bool :=
  match kind with
  | .otherwise => block.kind = .ifThen && block.current == 0
  | _ => block.closer = kind

end OpenBlock

/-- How errors name the command that opens a block, and where it stands. -/
def Command.opening (c : Command) : Subject × Span := (c.subject, c.span.getD ⟨0, 0⟩)

namespace Frame

def block (a : Arena) : Frame → OpenBlock
  | branch h kind current => ⟨kind, current, (a.command? h).map (·.opening)⟩
  | script h => ⟨.beginScript, 0, (a.command? h).map (·.opening)⟩
  | failed kind current => ⟨kind, current, none⟩

theorem closer_block (a : Arena) (frame : Frame) : (frame.block a).closer = frame.closer := by
  cases frame <;> rfl

theorem admits_block (a : Arena) (frame : Frame) (kind : CommandKind) :
    (frame.block a).admits kind = frame.admits kind := by
  have closes := frame.closer_block a
  cases kind with
  | otherwise => cases frame <;> rfl
  | _ => cases frame <;> rfl

/-- The command that opens the block is there, and owns branches if the block is one of them. -/
def Anchored (a : Arena) : Frame → Prop
  | branch h _ _ => ∃ c, a.command? h = some c ∧ c.kind.ownsBranches
  | script h => ∃ c, a.command? h = some c
  | failed .. => True

variable {a b : Arena} {frame : Frame}

theorem Anchored.mono (anchored : frame.Anchored a)
    (kept : ∀ h c, a.command? h = some c → b.command? h = some c) : frame.Anchored b := by
  cases frame with
  | branch h kind current =>
      obtain ⟨c, held, owns⟩ := anchored
      exact ⟨c, kept h c held, owns⟩
  | script h =>
      obtain ⟨c, held⟩ := anchored
      exact ⟨c, kept h c held⟩
  | failed => trivial

theorem Anchored.block_eq (anchored : frame.Anchored a)
    (kept : ∀ h c, a.command? h = some c → b.command? h = some c) : frame.block b = frame.block a := by
  cases frame with
  | branch h kind current =>
      obtain ⟨c, held, -⟩ := anchored
      rw [block, block, held, kept h c held]
  | script h =>
      obtain ⟨c, held⟩ := anchored
      rw [block, block, held, kept h c held]
  | failed => rfl

theorem Anchored.takeElse (anchored : frame.Anchored a) : frame.takeElse.Anchored a := by
  cases frame <;> exact anchored

/-- Going on with `Else` opens the second branch of a block that admits it. -/
theorem block_takeElse (admits : frame.admits .otherwise) :
    frame.takeElse.block a = { frame.block a with current := 1 } := by
  cases frame with
  | script => cases admits
  | _ => rfl

end Frame

namespace Draft

variable {d e : Draft} {c : Command}

/-- The open blocks, innermost first. -/
def blocks (d : Draft) : List OpenBlock := d.frames.map (·.block d.arena)

/-- The error for a block that is never closed. -/
def unclosedError (source : Nat) (opening : Subject × Span) : Diagnostic :=
  .locate (.unmatchedBlock opening.1) (some opening.2) source

/-- The blocks that are still open are reported in the order in which they were opened, except those
without a command. -/
theorem unclosed_eq (d : Draft) (source : Nat) :
    d.unclosed source = (d.blocks.filterMap (·.opening)).reverse.map (unclosedError source) := by
  unfold unclosed blocks
  rw [List.filterMap_map, ← List.filterMap_reverse, List.map_filterMap]
  congr
  funext frame
  cases frame with
  | failed => rfl
  | branch h kind current =>
      cases held : d.arena.command? h <;>
        simp [Frame.opener?, Frame.block, held, Command.opening, unclosedError]
  | script h =>
      cases held : d.arena.command? h <;>
        simp [Frame.opener?, Frame.block, held, Command.opening, unclosedError]

/-- Whether a command may stand where a draft is depends on the innermost block. -/
theorem checkEnd_eq (c : Command) (d : Draft) :
    checkEnd c d =
      (if (c.kind = .otherwise || c.kind.closesBlock) && !d.blocks.head?.any (·.admits c.kind) then
        .error (.unexpectedTerminator c.subject (d.blocks.head?.map (·.closer))) else .ok (), d) := by
  have admits : d.blocks.head?.any (·.admits c.kind) = d.frames.head?.any (·.admits c.kind) := by
    unfold blocks
    cases d.frames with
    | nil => rfl
    | cons frame frames => exact frame.admits_block d.arena c.kind
  have closer : d.blocks.head?.map (·.closer) = d.frames.head?.map (·.closer) := by
    unfold blocks
    cases d.frames with
    | nil => rfl
    | cons frame frames => exact congrArg some (frame.closer_block d.arena)
  rw [admits, closer]
  unfold checkEnd
  cases ends : (decide (c.kind = .otherwise) || c.kind.closesBlock) with
  | false => rfl
  | true =>
      simp only [if_true, Step.get_bind, Bool.true_and]
      cases d.frames.head?.any (·.admits c.kind) <;> rfl

/-! ## Drafts in which every command finds its place -/

/-- A draft whose arena is well formed and whose blocks are there. -/
structure Steady (d : Draft) : Prop where
  wellFormed : d.arena.WellFormed
  head : d.arena.contains d.head
  frames : ∀ frame ∈ d.frames, frame.Anchored d.arena

theorem steady_start (objects : Store) : (start objects).Steady where
  wellFormed := Arena.wellFormed_empty.insert _
  head := by
    have held := (Arena.empty.command?_insert (.ofKind .noOp)).1
    exact (Arena.contains_eq).trans (by rw [start, Arena.newSequence, held]; rfl)
  frames := List.forall_mem_nil _

/-- Commands go into a branch of a command that is there and owns branches. -/
theorem Steady.owner (steady : d.Steady) {owner : Handle} {branch : Nat}
    (place : d.frames.findSome? Frame.place? = some (owner, branch)) :
    ∃ held, d.arena.command? owner = some held ∧ held.kind.ownsBranches := by
  obtain ⟨frame, member, here⟩ := List.exists_of_findSome?_eq_some place
  have anchored := steady.frames frame member
  cases frame with
  | branch opener kind current =>
      cases here
      exact anchored
  | script opener => cases here
  | failed kind current => cases here

/-- A command is always linked, and no other one is changed. -/
theorem Steady.exists_link (steady : d.Steady) (c : Command) :
    ∃ h b, link c d = (.ok h, { d with arena := b }) ∧ b.WellFormed ∧ b.command? h = some c ∧
      ∀ other held, d.arena.command? other = some held → b.command? other = some held := by
  obtain ⟨new, kept⟩ := d.arena.command?_insert c
  have detached := steady.wellFormed.detached_insert c
  have wf := steady.wellFormed.insert c
  suffices ∃ b, linkIn d.head (d.frames.findSome? Frame.place?) c d.arena =
      (.ok (d.arena.insert c).1, b) ∧ b.WellFormed ∧ b.command? = (d.arena.insert c).2.command? by
    obtain ⟨b, ran, linked, same⟩ := this
    rw [← same] at new kept
    refine ⟨_, b, ?_, linked, new, kept⟩
    rw [link_eq]
    simp only [edit, ran]
  have inserted : insertion c d.arena = (.ok (d.arena.insert c).1, (d.arena.insert c).2) := rfl
  unfold linkIn
  rw [Step.bind_ok inserted]
  cases place : d.frames.findSome? Frame.place? with
  | none =>
      obtain ⟨held, found⟩ := Option.isSome_iff_exists.mp (Arena.contains_eq ▸ steady.head)
      have live : (d.arena.insert c).2.contains d.head := by
        rw [Arena.contains_eq, kept _ _ found]
        rfl
      obtain ⟨b, ran, linked, same⟩ :=
        wf.exists_append detached live (d.arena.not_reaches_insert c steady.head)
      exact ⟨b, Step.bind_ok ran, linked, same⟩
  | some spot =>
      obtain ⟨owner, branch⟩ := spot
      obtain ⟨held, found, owns⟩ := steady.owner place
      have live : d.arena.contains owner := by
        rw [Arena.contains_eq, found]
        rfl
      obtain ⟨b, ran, linked, same⟩ := wf.exists_appendToBranch detached branch (kept _ _ found) owns
        (d.arena.not_reaches_insert c live)
      exact ⟨b, Step.bind_ok ran, linked, same⟩

end Draft

/-! ## Blocks that differ in one opener -/

/-- Open blocks, innermost first, and the same blocks with a command for one that has none. Outside of
this one are the blocks `outside`. When it is closed, the blocks are the same. -/
inductive Muted (opening : Subject × Span) (outside : List OpenBlock) :
    (still : Bool) → List OpenBlock → List OpenBlock → Prop where
  | own (kind : CommandKind) (current : Nat) :
      Muted opening outside true (⟨kind, current, none⟩ :: outside)
        (⟨kind, current, some opening⟩ :: outside)
  | inner (block : OpenBlock) {blocks others : List OpenBlock} :
      Muted opening outside true blocks others →
      Muted opening outside true (block :: blocks) (block :: others)
  | closed (blocks : List OpenBlock) : Muted opening outside false blocks blocks

namespace Muted

variable {opening : Subject × Span} {outside blocks others : List OpenBlock} {still : Bool}

theorem push (muted : Muted opening outside still blocks others) (block : OpenBlock) :
    Muted opening outside still (block :: blocks) (block :: others) := by
  cases muted with
  | own kind current => exact .inner block (.own kind current)
  | inner inside muted => exact .inner block (.inner inside muted)
  | closed => exact .closed _

/-- No check tells the innermost blocks apart. -/
theorem admits (muted : Muted opening outside still blocks others) (kind : CommandKind) :
    blocks.head?.any (·.admits kind) = others.head?.any (·.admits kind) := by
  cases muted <;> rfl

theorem closer (muted : Muted opening outside still blocks others) :
    blocks.head?.map (·.closer) = others.head?.map (·.closer) := by
  cases muted <;> rfl

/-- The block is inside of the others as long as it is open. -/
theorem deeper (muted : Muted opening outside true blocks others) :
    outside.length < others.length := by
  generalize still : true = open' at muted
  induction muted with
  | own => exact Nat.lt_succ_self _
  | inner _ _ ih => exact Nat.lt_succ_of_lt (ih still)
  | closed => cases still

theorem still_eq (muted : Muted opening outside still blocks others) :
    (still && decide (outside.length < others.length)) = still := by
  cases still with
  | false => rfl
  | true => exact decide_eq_true muted.deeper

/-- The innermost block is closed, be it the one in which they differ or another one. -/
theorem tail (muted : Muted opening outside still blocks others) :
    Muted opening outside (still && decide (outside.length < others.tail.length)) blocks.tail
      others.tail := by
  cases muted with
  | own kind current =>
      rw [List.tail_cons, List.tail_cons, Bool.true_and, decide_eq_false (Nat.lt_irrefl _)]
      exact .closed _
  | inner block inside =>
      rw [List.tail_cons, List.tail_cons, inside.still_eq]
      exact inside
  | closed blocks => exact .closed _

/-- The innermost block goes on with its second branch. -/
theorem takeElse {block other : OpenBlock}
    (muted : Muted opening outside still (block :: blocks) (other :: others)) :
    Muted opening outside still ({ block with current := 1 } :: blocks)
      ({ other with current := 1 } :: others) := by
  cases muted with
  | own kind current => exact .own kind 1
  | inner block muted => exact .inner _ muted
  | closed => exact .closed _

/-- What is reported of the blocks differs in the one that is open without a command. -/
theorem reported (muted : Muted opening outside still blocks others) :
    ∃ inside, blocks.filterMap (·.opening) =
        inside ++ (if still then outside else []).filterMap (·.opening) ∧
      others.filterMap (·.opening) = inside ++ (if still then [opening] else []) ++
        (if still then outside else []).filterMap (·.opening) := by
  induction muted with
  | own kind current => exact ⟨[], by simp, by simp⟩
  | inner block _ ih =>
      obtain ⟨inside, first, second⟩ := ih
      refine ⟨block.opening.toList ++ inside, ?_, ?_⟩
      · cases opened : block.opening <;> simp_all
      · cases opened : block.opening <;> simp_all
  | closed blocks => exact ⟨blocks.filterMap (·.opening), by simp, by simp⟩

end Muted

namespace Draft

/-! ## Drafts side by side -/

/-- Two drafts whose blocks differ in one opener. -/
structure Beside (opening : Subject × Span) (outside : List OpenBlock) (still : Bool) (d e : Draft) :
    Prop where
  steady : d.Steady
  steadyToo : e.Steady
  objects : d.objects = e.objects
  inMission : d.inMission = e.inMission
  begun : d.begun = e.begun
  blocks : Muted opening outside still d.blocks e.blocks

/-- A step that ends in the same way in both drafts and leaves the blocks alone. -/
def Alike (opening : Subject × Span) (outside : List OpenBlock) {α : Type} (step : Drafting α) : Prop :=
  ∀ still d e, Beside opening outside still d e →
    (step d).1 = (step e).1 ∧ Beside opening outside still (step d).2 (step e).2

variable {d e : Draft} {c : Command} {opening : Subject × Span} {outside : List OpenBlock}
  {still : Bool} {α β : Type}

namespace Alike

theorem value (value : α) : Alike opening outside (pure value) := fun _ _ _ beside => ⟨rfl, beside⟩

theorem throw (error : SequenceError) : Alike opening outside (throw error : Drafting α) :=
  fun _ _ _ beside => ⟨rfl, beside⟩

/-- Both drafts fail with the same error, or go on with the same value. -/
theorem ends {step : Drafting α} (alike : Alike opening outside step)
    (beside : Beside opening outside still d e) :
    ∃ next other, Beside opening outside still next other ∧
      ((∃ error, step d = (.error error, next) ∧ step e = (.error error, other)) ∨
        ∃ value, step d = (.ok value, next) ∧ step e = (.ok value, other)) := by
  obtain ⟨same, after⟩ := alike still d e beside
  refine ⟨_, _, after, ?_⟩
  cases outcome : (step e).1 with
  | error error => exact .inl ⟨error, Prod.ext (same.trans outcome) rfl, Prod.ext outcome rfl⟩
  | ok value => exact .inr ⟨value, Prod.ext (same.trans outcome) rfl, Prod.ext outcome rfl⟩

theorem bind {step : Drafting α} {next : α → Drafting β} (first : Alike opening outside step)
    (rest : ∀ value, Alike opening outside (next value)) : Alike opening outside (step >>= next) := by
  intro still d e beside
  obtain ⟨middle, other, after, ⟨error, ran, ranToo⟩ | ⟨value, ran, ranToo⟩⟩ := first.ends beside
  · rw [Step.bind_error ran, Step.bind_error ranToo]
    exact ⟨rfl, after⟩
  · rw [Step.bind_ok ran, Step.bind_ok ranToo]
    exact rest value still middle other after

/-- A step may look at anything but the arena and the blocks. -/
theorem look {next : Draft → Drafting β}
    (depends : ∀ d e : Draft, d.objects = e.objects → d.inMission = e.inMission → d.begun = e.begun →
      next d = next e)
    (each : ∀ d, Alike opening outside (next d)) : Alike opening outside (get >>= next) := by
  intro still d e beside
  rw [Step.get_bind, Step.get_bind, ← depends d e beside.objects beside.inMission beside.begun]
  exact each d still d e beside

theorem setObjects (objects : Store) :
    Alike opening outside (modify ({ · with objects }) : Drafting Unit) := by
  intro still d e beside
  obtain ⟨⟨wf, head, frames⟩, ⟨wfToo, headToo, framesToo⟩, -, inMission, begun, blocks⟩ := beside
  exact ⟨rfl, ⟨wf, head, frames⟩, ⟨wfToo, headToo, framesToo⟩, rfl, inMission, begun, blocks⟩

theorem setBegun (begun : Bool) :
    Alike opening outside (modify ({ · with begun }) : Drafting Unit) := by
  intro still d e beside
  obtain ⟨⟨wf, head, frames⟩, ⟨wfToo, headToo, framesToo⟩, objects, inMission, -, blocks⟩ := beside
  exact ⟨rfl, ⟨wf, head, frames⟩, ⟨wfToo, headToo, framesToo⟩, objects, inMission, rfl, blocks⟩

theorem setInMission (inMission : Bool) :
    Alike opening outside (modify ({ · with inMission }) : Drafting Unit) := by
  intro still d e beside
  obtain ⟨⟨wf, head, frames⟩, ⟨wfToo, headToo, framesToo⟩, objects, -, begun, blocks⟩ := beside
  exact ⟨rfl, ⟨wf, head, frames⟩, ⟨wfToo, headToo, framesToo⟩, objects, rfl, begun, blocks⟩

theorem defineTokens (instruction objectType : Text) (tokens : List Text) :
    Alike opening outside (defineTokens instruction objectType tokens) := by
  induction tokens with
  | nil => exact value _
  | cons token rest ih =>
      refine bind (look (fun d e objects _ _ => by rw [objects]) fun d => ?_) fun _ => ih
      cases d.objects.define instruction objectType token with
      | error error => exact throw error
      | ok objects => exact setObjects objects

theorem define (instruction objectType names : Text) :
    Alike opening outside (define instruction objectType names) := by
  unfold Draft.define
  split
  · exact throw _
  · exact defineTokens instruction objectType _

theorem configure (instruction target written : Text) :
    Alike opening outside (configure instruction target written) := by
  refine look (fun d e objects _ _ => by rw [objects]) fun d => ?_
  cases d.objects.configure target written with
  | error cause => exact throw _
  | ok objects => exact setObjects objects

theorem begin (c : Command) : Alike opening outside (begin c) := by
  unfold Draft.begin
  split
  · refine look (fun d e _ _ begun => by rw [begun]) fun d => ?_
    split
    · exact bind (throw _) fun _ => bind (setBegun true) fun _ => setInMission true
    · exact bind (setBegun true) fun _ => setInMission true
  · exact setInMission true

theorem checkEnd (c : Command) : Alike opening outside (checkEnd c) := by
  intro still d e beside
  rw [checkEnd_eq, checkEnd_eq, beside.blocks.admits, beside.blocks.closer]
  exact ⟨rfl, beside⟩

end Alike

/-- Frames that describe blocks which differ in one opener may take the place of the frames. -/
theorem Beside.withFrames {frames others : List Frame} {after : Bool}
    (beside : Beside opening outside still d e)
    (anchored : ∀ frame ∈ frames, frame.Anchored d.arena)
    (anchoredToo : ∀ frame ∈ others, frame.Anchored e.arena)
    (blocks : Muted opening outside after (frames.map (·.block d.arena))
      (others.map (·.block e.arena))) :
    Beside opening outside after { d with frames } { e with frames := others } where
  steady := ⟨beside.steady.wellFormed, beside.steady.head, anchored⟩
  steadyToo := ⟨beside.steadyToo.wellFormed, beside.steadyToo.head, anchoredToo⟩
  objects := beside.objects
  inMission := beside.inMission
  begun := beside.begun
  blocks := blocks

/-- Frames stay what they are when a command is linked. -/
theorem Steady.withArena (steady : d.Steady) {b : Arena} (wellFormed : b.WellFormed)
    (kept : ∀ h held, d.arena.command? h = some held → b.command? h = some held) :
    Steady { d with arena := b } ∧ blocks { d with arena := b } = d.blocks := by
  refine ⟨⟨wellFormed, ?_, fun frame member => (steady.frames frame member).mono kept⟩, ?_⟩
  · obtain ⟨held, found⟩ := Option.isSome_iff_exists.mp (Arena.contains_eq ▸ steady.head)
    rw [Arena.contains_eq, kept _ _ found]
    rfl
  · exact List.map_congr_left fun frame member => (steady.frames frame member).block_eq kept

theorem framesAfter_of_closesBlock {frames : List Frame} {kind : CommandKind}
    (closes : kind.closesBlock) (h : Handle) : framesAfter kind h frames = frames.tail := by
  cases kind <;> simp_all [CommandKind.closesBlock, framesAfter, CommandKind.ownsBranches]

theorem forall_anchored_framesAfter {a : Arena} {frames : List Frame} {h : Handle}
    (anchored : ∀ frame ∈ frames, frame.Anchored a) (held : a.command? h = some c) :
    ∀ frame ∈ framesAfter c.kind h frames, frame.Anchored a := by
  rcases c.kind.cases_of_kind with isPlain | script | owns | turns | ends
  · rw [framesAfter_of_isPlain isPlain]
    exact anchored
  · rw [script]
    exact List.forall_mem_cons.mpr ⟨⟨c, held⟩, anchored⟩
  · rw [framesAfter_of_ownsBranches owns]
    exact List.forall_mem_cons.mpr ⟨⟨c, held, owns⟩, anchored⟩
  · rw [turns]
    cases frames with
    | nil => exact anchored
    | cons frame frames =>
        obtain ⟨own, others⟩ := List.forall_mem_cons.mp anchored
        exact List.forall_mem_cons.mpr ⟨own.takeElse, others⟩
  · rw [framesAfter_of_closesBlock ends]
    exact fun frame member => anchored frame (List.mem_of_mem_tail member)

section

variable {a b : Arena} {frames others : List Frame} {h i : Handle}
  (muted : Muted opening outside still (frames.map (·.block a)) (others.map (·.block b)))

include muted

theorem muted_still_eq : (still && decide (outside.length < others.length)) = still := by
  have same := muted.still_eq
  rw [List.length_map] at same
  exact same

/-- Opening a block in both drafts. -/
theorem muted_push {frame other : Frame} (same : frame.block a = other.block b) :
    Muted opening outside (still && decide (outside.length < (other :: others).length))
      ((frame :: frames).map (·.block a)) ((other :: others).map (·.block b)) := by
  have pushed : Muted opening outside still ((frame :: frames).map (·.block a))
      ((other :: others).map (·.block b)) := by
    rw [List.map_cons, List.map_cons, same]
    exact muted.push _
  rw [muted_still_eq pushed]
  exact pushed

/-- What a command does to the open blocks it does in both drafts. -/
theorem muted_framesAfter (held : a.command? h = some c) (heldToo : b.command? i = some c)
    (admits : Admits frames c.kind) (admitsToo : Admits others c.kind) :
    Muted opening outside
      (still && decide (outside.length < (framesAfter c.kind i others).length))
      ((framesAfter c.kind h frames).map (·.block a))
      ((framesAfter c.kind i others).map (·.block b)) := by
  rcases c.kind.cases_of_kind with isPlain | script | owns | turns | ends
  · rw [framesAfter_of_isPlain isPlain, framesAfter_of_isPlain isPlain, muted_still_eq muted]
    exact muted
  · rw [script]
    refine muted_push muted ?_
    rw [Frame.block, Frame.block, held, heldToo]
  · rw [framesAfter_of_ownsBranches owns, framesAfter_of_ownsBranches owns]
    refine muted_push muted ?_
    rw [Frame.block, Frame.block, held, heldToo]
  · have admitted := admits (.inl turns)
    have admittedToo := admitsToo (.inl turns)
    rw [turns] at admitted admittedToo ⊢
    cases frames with
    | nil => cases admitted
    | cons frame frames =>
        cases others with
        | nil => cases admittedToo
        | cons other others =>
            have turned : Muted opening outside still ((frame.takeElse :: frames).map (·.block a))
                ((other.takeElse :: others).map (·.block b)) := by
              rw [List.map_cons, List.map_cons, Frame.block_takeElse admitted,
                Frame.block_takeElse admittedToo]
              exact muted.takeElse
            change Muted opening outside
              (still && decide (outside.length < (other.takeElse :: others).length)) _ _
            rw [muted_still_eq turned]
            exact turned
  · rw [framesAfter_of_closesBlock ends, framesAfter_of_closesBlock ends]
    have closed := muted.tail
    rw [← List.map_tail, ← List.map_tail, List.length_map] at closed
    exact closed

end

/-- A command that fits is linked and accounted for. -/
theorem Steady.exists_place (steady : d.Steady) (admits : Admits d.frames c.kind) :
    ∃ h b, place c d = (.ok (), { d with arena := b, frames := framesAfter c.kind h d.frames }) ∧
      Steady { d with arena := b } ∧ blocks { d with arena := b } = d.blocks ∧ b.command? h = some c := by
  obtain ⟨h, b, ran, wf, new, kept⟩ := steady.exists_link c
  obtain ⟨linked, same⟩ := steady.withArena wf kept
  refine ⟨h, b, ?_, linked, same, new⟩
  unfold place
  rw [Step.bind_ok (checkEnd_ok admits), Step.bind_ok ran]
  rfl

/-- Both drafts link a command and account for it. -/
theorem Beside.place (beside : Beside opening outside still d e) (c : Command)
    (admits : Admits d.frames c.kind) (admitsToo : Admits e.frames c.kind) :
    ∃ next other, Draft.place c d = (.ok (), next) ∧ Draft.place c e = (.ok (), other) ∧
      Beside opening outside (still && decide (outside.length < other.frames.length)) next other := by
  obtain ⟨h, a, placed, steady, blocks, new⟩ := beside.steady.exists_place admits
  obtain ⟨i, b, placedToo, steadyToo, blocksToo, newToo⟩ := beside.steadyToo.exists_place admitsToo
  have linked : Beside opening outside still { d with arena := a } { e with arena := b } :=
    ⟨steady, steadyToo, beside.objects, beside.inMission, beside.begun,
      by rw [blocks, blocksToo]; exact beside.blocks⟩
  refine ⟨_, _, placed, placedToo, linked.withFrames ?_ ?_ ?_⟩
  · exact forall_anchored_framesAfter steady.frames new
  · exact forall_anchored_framesAfter steadyToo.frames newToo
  · exact muted_framesAfter linked.blocks new newToo admits admitsToo

/-! ## Adding statements side by side -/

/-- A step that ends in the same way in both drafts. Afterwards the block in which they differ is open
if it was and more blocks are open than outside of it. -/
def Tracks (opening : Subject × Span) (outside : List OpenBlock) {α : Type} (step : Drafting α) :
    Prop :=
  ∀ still d e, Beside opening outside still d e →
    (step d).1 = (step e).1 ∧
      Beside opening outside (still && decide (outside.length < (step e).2.frames.length))
        (step d).2 (step e).2

theorem Beside.still_eq (beside : Beside opening outside still d e) :
    (still && decide (outside.length < e.frames.length)) = still :=
  muted_still_eq beside.blocks

namespace Alike

variable {step : Drafting α} {next : α → Drafting β}

theorem tracks (alike : Alike opening outside step) : Tracks opening outside step := by
  intro still d e beside
  obtain ⟨same, after⟩ := alike still d e beside
  rw [after.still_eq]
  exact ⟨same, after⟩

theorem andThen (first : Alike opening outside step)
    (rest : ∀ value, Tracks opening outside (next value)) : Tracks opening outside (step >>= next) := by
  intro still d e beside
  obtain ⟨middle, other, after, ⟨error, ran, ranToo⟩ | ⟨value, ran, ranToo⟩⟩ := first.ends beside
  · rw [Step.bind_error ran, Step.bind_error ranToo, after.still_eq]
    exact ⟨rfl, after⟩
  · rw [Step.bind_ok ran, Step.bind_ok ranToo]
    exact rest value still middle other after

end Alike

theorem failedFrame?_cases (s : Statement) :
    failedFrame? s = none ∨ ∃ keyword, s.keyword? = some keyword ∧
      failedFrame? s = some (.failed (.ofKeyword keyword) 0) := by
  unfold failedFrame?
  cases s.keyword? with
  | none => exact .inl rfl
  | some keyword =>
      rw [Option.bind_some]
      cases opens : (CommandKind.ofKeyword keyword).opensBlock with
      | false => exact .inl (by simp [opens])
      | true => exact .inr ⟨keyword, rfl, by simp [opens]⟩

namespace Tracks

/-- A step may look at anything but the arena and the blocks. -/
theorem look {next : Draft → Drafting β}
    (depends : ∀ d e : Draft, d.objects = e.objects → d.inMission = e.inMission → d.begun = e.begun →
      next d = next e)
    (each : ∀ d, Tracks opening outside (next d)) : Tracks opening outside (get >>= next) := by
  intro still d e beside
  rw [Step.get_bind, Step.get_bind, ← depends d e beside.objects beside.inMission beside.begun]
  exact each d still d e beside

theorem place (c : Command) : Tracks opening outside (place c) := by
  intro still d e beside
  obtain ⟨next, other, after, ⟨error, checked, checkedToo⟩ | ⟨_, checked, checkedToo⟩⟩ :=
    (Alike.checkEnd c).ends beside
  · unfold Draft.place
    rw [Step.bind_error checked, Step.bind_error checkedToo, after.still_eq]
    exact ⟨rfl, after⟩
  · obtain ⟨next, other, placed, placedToo, linked⟩ := beside.place c
      (admits_of_checkEnd checked).1 (admits_of_checkEnd checkedToo).1
    rw [placed, placedToo]
    exact ⟨rfl, linked⟩

/-- A statement that is no command in either draft. If it opens a block, both open it without one. -/
theorem skip (s : Statement) : Tracks opening outside (skip s) := by
  intro still d e beside
  have started : Beside opening outside still { d with inMission := true }
      { e with inMission := true } := (Alike.setInMission true still d e beside).2
  have skipped (d : Draft) : Draft.skip s d =
      (.ok (), { d with inMission := true, frames := (failedFrame? s).toList ++ d.frames }) := rfl
  rw [skipped, skipped]
  refine ⟨rfl, ?_⟩
  rcases failedFrame?_cases s with none | ⟨keyword, -, failed⟩
  · rw [none]
    change Beside opening outside (still && decide (outside.length < e.frames.length)) _ _
    rw [beside.still_eq]
    exact started
  · rw [failed]
    refine started.withFrames ?_ ?_ (muted_push started.blocks rfl)
    · exact List.forall_mem_cons.mpr ⟨trivial, started.steady.frames⟩
    · exact List.forall_mem_cons.mpr ⟨trivial, started.steadyToo.frames⟩

theorem addCommand (s : Statement) : Tracks opening outside (addCommand s) := by
  unfold Draft.addCommand
  cases Command.ofStatement s with
  | error error =>
      intro still d e beside
      obtain ⟨-, skipped⟩ := skip s still d e beside
      exact ⟨rfl, skipped⟩
  | ok c => exact (Alike.begin c).andThen fun _ => place { c with span := some s.span }

theorem add (s : Statement) : Tracks opening outside (add s) := by
  unfold Draft.add
  cases s.parts with
  | comment => exact (Alike.value ()).tracks
  | definition objectType names => exact (Alike.define s.instruction objectType names).tracks
  | function => exact (Alike.throw _).tracks
  | assignment target written =>
      refine look (fun d e _ inMission _ => by rw [inMission]) fun d => ?_
      split
      · exact addCommand s
      · exact (Alike.configure s.instruction target written).tracks
  | command => exact addCommand s
  | call => exact addCommand s

end Tracks

/-- While statements are added, more than some number of blocks are open. -/
def staysDeeper (depth : Nat) : List Statement → Draft → Bool
  | [], _ => true
  | s :: rest, d =>
    decide (depth < (add s d).2.frames.length) && staysDeeper depth rest (add s d).2

/-- The error of a statement, if it fails. -/
def failure (source : Nat) (s : Statement) : Except SequenceError Unit → List Diagnostic
  | .ok () => []
  | .error e => [.locate e (some s.span) source]

theorem addAll_cons (source : Nat) (s : Statement) (rest : List Statement) (d : Draft) :
    addAll source (s :: rest) d =
      (failure source s (add s d).1 ++ (addAll source rest (add s d).2).1,
        (addAll source rest (add s d).2).2) := by
  rw [addAll]
  cases add s d with
  | mk outcome next => cases outcome <;> rfl

theorem addAll_append (source : Nat) (before after : List Statement) (d : Draft) :
    addAll source (before ++ after) d =
      ((addAll source before d).1 ++ (addAll source after (addAll source before d).2).1,
        (addAll source after (addAll source before d).2).2) := by
  induction before generalizing d with
  | nil => rfl
  | cons s rest ih =>
      rw [List.cons_append, addAll_cons, addAll_cons, ih]
      dsimp only
      rw [List.append_assoc]

/-- All statements end in the same way in both drafts. -/
theorem Beside.addAll (beside : Beside opening outside still d e) (source : Nat)
    (statements : List Statement) :
    (addAll source statements d).1 = (addAll source statements e).1 ∧
      Beside opening outside (still && staysDeeper outside.length statements e)
        (addAll source statements d).2 (addAll source statements e).2 := by
  induction statements generalizing still d e with
  | nil =>
      rw [staysDeeper, Bool.and_true]
      exact ⟨rfl, beside⟩
  | cons s rest ih =>
      obtain ⟨same, after⟩ := Tracks.add s still d e beside
      obtain ⟨errors, final⟩ := ih after
      rw [staysDeeper, ← Bool.and_assoc, addAll_cons, addAll_cons, same, errors]
      exact ⟨rfl, final⟩

/-! ## Openers that fail -/

/-- The keyword of a statement says which kind of command it makes. -/
theorem kind_of_keyword {s : Statement} {keyword : Text} (starts : s.keyword? = some keyword)
    (built : Command.ofStatement s = .ok c) : c.kind = .ofKeyword keyword := by
  unfold Statement.keyword? at starts
  unfold Command.ofStatement at built
  dsimp only at built
  split at starts
  · rename_i written arguments parts
    cases starts
    rw [parts] at built
    obtain ⟨body, -, made⟩ := Outcome.bind_eq_ok_iff.mp built
    cases made
    rfl
  · cases starts

theorem add_of_keyword {s : Statement} {keyword : Text} (starts : s.keyword? = some keyword) :
    add s = addCommand s := by
  unfold Statement.keyword? at starts
  unfold add
  split at starts
  · rename_i parts
    rw [parts]
  · cases starts

/-- An opener that fails opens its block all the same. -/
theorem add_failed {s : Statement} {keyword : Text} {error : SequenceError}
    (starts : s.keyword? = some keyword) (opens : (CommandKind.ofKeyword keyword).opensBlock)
    (failed : Command.ofStatement s = .error error) (d : Draft) :
    add s d = (.error error, { d with
      inMission := true, frames := .failed (.ofKeyword keyword) 0 :: d.frames }) := by
  have frame : failedFrame? s = some (.failed (.ofKeyword keyword) 0) := by
    simp [failedFrame?, starts, opens]
  rw [add_of_keyword starts]
  unfold addCommand
  rw [failed]
  change (Except.error error,
    { d with inMission := true, frames := (failedFrame? s).toList ++ d.frames }) = _
  rw [frame]
  rfl

/-- Every opener opens one block. -/
theorem blocks_framesAfter_of_opens {a : Arena} {frames : List Frame} {h : Handle}
    (held : a.command? h = some c) (opens : c.kind.opensBlock) :
    (framesAfter c.kind h frames).map (·.block a) =
      ⟨c.kind, 0, some c.opening⟩ :: frames.map (·.block a) := by
  have cases : c.kind = .beginScript ∨ c.kind.ownsBranches := by
    generalize c.kind = kind at opens
    cases kind <;> simp_all [CommandKind.opensBlock, CommandKind.terminator?, CommandKind.ownsBranches]
  rcases cases with script | owns
  · rw [script]
    change (Frame.script h).block a :: _ = _
    rw [Frame.block, held]
    rfl
  · rw [framesAfter_of_ownsBranches owns, List.map_cons, Frame.block, held]
    rfl

/-- The draft with the opener that fails and the draft with the one that does not. -/
theorem Steady.beside_opener (steady : d.Steady) {s : Statement} {keyword : Text}
    (starts : s.keyword? = some keyword) (opens : (CommandKind.ofKeyword keyword).opensBlock)
    (built : Command.ofStatement s = .ok c) :
    (add s d).1 = .ok () ∧
      Beside (c.subject, s.span) d.blocks true
        { d with inMission := true, frames := .failed (.ofKeyword keyword) 0 :: d.frames }
        (add s d).2 := by
  rw [← kind_of_keyword starts built] at opens ⊢
  have first : c.kind ≠ .beginMissionSequence := by
    intro same
    rw [same] at opens
    cases opens
  have begins : begin c d = (.ok (), d.started c) :=
    begin_eq_ok_iff.mpr ⟨fun same => absurd same first, rfl⟩
  have begun : Steady (d.started c) := ⟨steady.wellFormed, steady.head, steady.frames⟩
  obtain ⟨h, b, placed, linked, same, new⟩ :=
    begun.exists_place (c := { c with span := some s.span }) (admits_of_opens opens)
  have added : add s d =
      (.ok (), { d.started c with arena := b, frames := framesAfter c.kind h d.frames }) := by
    rw [add_of_keyword starts]
    unfold addCommand
    rw [built]
    exact (Step.bind_ok begins).trans placed
  rw [added]
  refine ⟨rfl, ⟨steady.wellFormed, steady.head, List.forall_mem_cons.mpr ⟨trivial, steady.frames⟩⟩,
    ⟨linked.wellFormed, linked.head,
      forall_anchored_framesAfter (c := { c with span := some s.span }) linked.frames new⟩,
    rfl, rfl, ?_, ?_⟩
  · simp [started, first]
  · have kept : d.frames.map (·.block b) = d.blocks := same
    have opened : (framesAfter c.kind h d.frames).map (·.block b) =
        ⟨c.kind, 0, some (c.subject, s.span)⟩ :: d.frames.map (·.block b) :=
      blocks_framesAfter_of_opens new opens
    change Muted _ _ _ (⟨c.kind, 0, none⟩ :: d.blocks) ((framesAfter c.kind h d.frames).map (·.block b))
    rw [opened, kept]
    exact .own c.kind 0

/-- Adding statements keeps a draft steady. -/
theorem Steady.addAll (steady : d.Steady) (source : Nat) (statements : List Statement) :
    (addAll source statements d).2.Steady := by
  have itself : Beside (⟨[], []⟩, ⟨0, 0⟩) [] false d d := ⟨steady, steady, rfl, rfl, rfl, .closed _⟩
  exact (itself.addAll source statements).2.steady

/-- The errors of a script: those of its statements in their order, then those of the blocks that are
never closed. -/
def diagnostics (objects : Store) (source : Nat) (statements : List Statement) : List Diagnostic :=
  (addAll source statements (start objects)).1 ++
    (addAll source statements (start objects)).2.unclosed source

/-- A mission is built if there are no errors, and otherwise these are returned. -/
theorem ofStatements_eq_diagnostics (source : Nat) (statements : List Statement) :
    Mission.ofStatements source statements =
      match diagnostics .empty source statements with
      | [] => .ok ((addAll source statements (start .empty)).2.finish source)
      | errors => .error errors := rfl

/-- The errors of the blocks that are open in both drafts, and of the one in which they differ. -/
theorem Beside.unclosed (beside : Beside opening outside still d e) (source : Nat) :
    ∃ outer inner, d.unclosed source = outer ++ inner ∧
      e.unclosed source =
        outer ++ (if still then [unclosedError source opening] else []) ++ inner := by
  obtain ⟨inside, first, second⟩ := beside.blocks.reported
  let report (openings : List (Subject × Span)) := openings.reverse.map (unclosedError source)
  refine ⟨report ((if still then outside else []).filterMap (·.opening)), report inside, ?_, ?_⟩
  · rw [unclosed_eq, first, List.reverse_append, List.map_append]
  · rw [unclosed_eq, second, List.reverse_append, List.reverse_append, List.map_append,
      List.map_append, List.append_assoc]
    cases still <;> rfl

/-- An opener that fails is one error and causes no other. With an opener of the same keyword that does
not fail in its place, the errors of all other statements and blocks are the same ones in the same
order. Only the block itself is reported then, if it stays open to the end. -/
theorem diagnostics_of_failed_opener {broken valid : Statement} {keyword : Text}
    {error : SequenceError} (starts : broken.keyword? = some keyword)
    (startsToo : valid.keyword? = some keyword) (opens : (CommandKind.ofKeyword keyword).opensBlock)
    (failed : Command.ofStatement broken = .error error) (built : Command.ofStatement valid = .ok c)
    (objects : Store) (source : Nat) (before after : List Statement) :
    let here := (addAll source before (start objects)).2
    let next := (add valid here).2
    let front := (addAll source before (start objects)).1
    let behind := (addAll source after next).1
    ∃ outer inner,
      diagnostics objects source (before ++ broken :: after) =
        front ++ .locate error (some broken.span) source :: (behind ++ (outer ++ inner)) ∧
      diagnostics objects source (before ++ valid :: after) =
        front ++ (behind ++ (outer ++
          (if staysDeeper here.frames.length after next then
            [unclosedError source (c.subject, valid.span)] else []) ++ inner)) := by
  intro here next front behind
  have steady : here.Steady := (steady_start objects).addAll source before
  have skipped := add_failed starts opens failed here
  obtain ⟨added, beside⟩ := steady.beside_opener startsToo opens built
  obtain ⟨same, final⟩ := beside.addAll source after
  obtain ⟨outer, inner, first, second⟩ := final.unclosed source
  have depth : here.blocks.length = here.frames.length := List.length_map ..
  rw [Bool.true_and, depth] at second
  have around (s : Statement) : diagnostics objects source (before ++ s :: after) =
      front ++ (failure source s (add s here).1 ++ ((addAll source after (add s here).2).1 ++
        (addAll source after (add s here).2).2.unclosed source)) := by
    unfold diagnostics
    rw [addAll_append, addAll_cons, List.append_assoc, List.append_assoc]
  refine ⟨outer, inner, ?_, ?_⟩
  · rw [around, skipped, same, first]
    rfl
  · rw [around, added, second]
    rfl

theorem diagnostics_of_failed_opener_target :
    let broken : Statement :=
      { reading := { instruction := "Target".toList, shape := .command }
        parts := .command "Target".toList none }
    let valid : Statement :=
      { reading := { instruction := "Target A".toList, shape := .command }
        parts := .command "Target".toList (some "A".toList), span := ⟨0, 8⟩ }
    let inside : Statement :=
      { reading := { instruction := "BeginScript".toList, shape := .command }
        parts := .command "BeginScript".toList none, span := ⟨9, 20⟩ }
    ∃ error c outer inner, Command.ofStatement broken = .error error ∧
      Command.ofStatement valid = .ok c ∧
      diagnostics .empty 0 [broken, inside] =
        .locate error (some broken.span) 0 :: (outer ++ inner) ∧
      diagnostics .empty 0 [valid, inside] =
        outer ++ [unclosedError 0 (c.subject, valid.span)] ++ inner := by
  intro broken valid inside
  have fails : (Command.ofStatement broken).isOk = false := by decide +kernel
  have builds : (Command.ofStatement valid).isOk = true := by decide +kernel
  have deeper : staysDeeper 0 [inside] (add valid (start .empty)).2 = true := by decide +kernel
  have silent : (addAll 0 [inside] (add valid (start .empty)).2).1.isEmpty = true := by decide +kernel
  obtain ⟨c, built⟩ := Outcome.exists_of_isOk builds
  cases failed : Command.ofStatement broken with
  | ok c =>
      rw [failed] at fails
      cases fails
  | error error =>
      obtain ⟨outer, inner, first, second⟩ :=
        diagnostics_of_failed_opener (show broken.keyword? = some "Target".toList from rfl) rfl
          (by decide) failed built .empty 0 [] [inside]
      have outermost : addAll 0 [] (start .empty) = ([], start .empty) := rfl
      have depth : (start .empty).frames.length = 0 := rfl
      have quiet := List.isEmpty_iff.mp silent
      simp only [outermost, depth, quiet, deeper, if_true, List.nil_append] at first second
      exact ⟨error, c, outer, inner, rfl, built, first, second⟩

end Draft

end MissionScript
