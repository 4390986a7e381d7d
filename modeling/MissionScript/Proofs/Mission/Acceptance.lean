import MissionScript.Proofs.Mission.Statements

/-!
# Accepted scripts

A script whose statements do not fail on their own is accepted exactly if its commands are well nested.
An accepted script makes a program, and the arena of its mission draws the layout of this program.
-/

namespace MissionScript

/-! ## Edits that neither add nor delete commands -/

namespace Edit

variable {α β : Type} {a b : Arena}

/-- What an edit does to links leaves the commands in their slots. -/
def Keeps (e : Edit α) : Prop :=
  ∀ (a b : Arena) (value : α), e a = (.ok value, b) → a.Fresh →
    b.Fresh ∧ b.slots.size = a.slots.size

theorem Keeps.bind {e : Edit α} {more : α → Edit β} (first : e.Keeps)
    (second : ∀ value, (more value).Keeps) : Keeps (e >>= more) := by
  intro a c value ran fresh
  obtain ⟨middle, b, firstRan, secondRan⟩ := Step.bind_eq_ok ran
  obtain ⟨freshNow, size⟩ := first a b middle firstRan fresh
  obtain ⟨freshThen, sizeThen⟩ := second middle b c value secondRan freshNow
  exact ⟨freshThen, sizeThen.trans size⟩

theorem Keeps.read {f : Arena → Edit β} (each : ∀ a, (f a).Keeps) : Keeps (get >>= f) :=
  fun a b value ran fresh => each a a b value ran fresh

theorem keeps_pure (value : α) : Keeps (pure value) := by
  intro a b result ran fresh
  cases ran
  exact ⟨fresh, rfl⟩

theorem keeps_modifyNode (h : Handle) (f : Node → Node) : (modifyNode h f).Keeps := by
  intro a b value ran fresh
  unfold modifyNode at ran
  rw [Step.get_bind] at ran
  cases changed : a.modify? h f with
  | none =>
      rw [changed] at ran
      cases ran
  | some c =>
      rw [changed] at ran
      cases ran
      exact ⟨fresh.modify? changed, Arena.size_of_modify? changed⟩

theorem keeps_setNext (h : Handle) (next : Option Handle) : (setNext h next).Keeps := by
  refine (keeps_modifyNode h _).bind fun _ => ?_
  cases next with
  | none => exact keeps_pure _
  | some next => exact keeps_modifyNode next _

theorem keeps_setBranch (owner : Handle) (branch : Nat) (head : Option Handle) :
    (setBranch owner branch head).Keeps := by
  refine (keeps_modifyNode owner _).bind fun _ => ?_
  cases head with
  | none => exact keeps_pure _
  | some head => exact keeps_modifyNode head _

theorem keeps_append (head h : Handle) : (append head h).Keeps :=
  .read fun a => keeps_setNext (a.last head) (some h)

theorem keeps_appendToBranch (owner : Handle) (branch : Nat) (h : Handle) :
    (appendToBranch owner branch h).Keeps := by
  refine .read fun a => ?_
  cases a.child? owner branch with
  | none => exact keeps_setBranch owner branch (some h)
  | some head => exact keeps_append head h

end Edit

namespace Draft

variable {d next final : Draft} {c : Command}

/-- A command that is linked is the last one in the arena. -/
theorem linkIn_adds {a b : Arena} {head h : Handle} {place : Option (Handle × Nat)}
    (linked : linkIn head place c a = (.ok h, b)) (fresh : a.Fresh) :
    h = .ofIndex a.slots.size ∧ b.Fresh ∧ b.slots.size = a.slots.size + 1 := by
  have inserted : insertion c a = (.ok (.ofIndex a.slots.size), a.push (.ofCommand c)) := by
    simp only [insertion, fresh.insert]
  unfold linkIn at linked
  rw [Step.bind_ok inserted] at linked
  cases place with
  | none =>
      obtain ⟨⟨⟩, middle, appended, returned⟩ := Step.bind_eq_ok linked
      cases returned
      obtain ⟨freshNow, size⟩ := Edit.keeps_append _ _ _ _ _ appended fresh.push
      exact ⟨rfl, freshNow, by rw [size, Arena.size_push]⟩
  | some place =>
      obtain ⟨⟨⟩, middle, appended, returned⟩ := Step.bind_eq_ok linked
      cases returned
      obtain ⟨freshNow, size⟩ := Edit.keeps_appendToBranch _ _ _ _ _ _ appended fresh.push
      exact ⟨rfl, freshNow, by rw [size, Arena.size_push]⟩

/-! ## Open blocks -/

/-- Nothing has been deleted, and every open block has its command. -/
structure Anchored (d : Draft) : Prop where
  fresh : d.arena.Fresh
  openers : Opened (fun h => d.arena.contains h) d.frames

theorem Anchored.place (anchored : Anchored d) (placed : place c d = (.ok (), next)) :
    Anchored next := by
  obtain ⟨_, h, b, linked, rfl⟩ := place_eq_ok_iff.mp placed
  obtain ⟨rfl, fresh, size⟩ := linkIn_adds linked anchored.fresh
  have lives : ∀ opener : Handle, d.arena.contains opener → b.contains opener := by
    intro opener live
    obtain ⟨index, inside, rfl⟩ := anchored.fresh.contains_iff.mp live
    exact fresh.contains_iff.mpr ⟨index, by omega, rfl⟩
  constructor
  · exact fresh
  · refine Opened.after (fun frame member => ?_) c.kind (fresh.contains_iff.mpr ⟨_, by omega, rfl⟩)
    obtain ⟨opener, opens, live⟩ := anchored.openers frame member
    exact ⟨opener, opens, lives opener live⟩

theorem Anchored.places {commands : List Command} {b : Arena} {frames : List Frame}
    (anchored : Anchored d) (places : Places d commands b frames) :
    Anchored { d with arena := b, frames } := by
  induction commands generalizing d with
  | nil =>
      obtain ⟨rfl, rfl⟩ := places_nil.mp places
      exact anchored
  | cons c rest ih =>
      obtain ⟨next, placed, others⟩ := places_cons.mp places
      obtain ⟨fresh, openers⟩ := ih (anchored.place placed) others
      exact ⟨fresh, openers⟩

/-- A block that is open is reported. -/
theorem unclosed_eq_nil_iff (anchored : Anchored d) (source : Nat) :
    d.unclosed source = [] ↔ d.frames = [] := by
  constructor
  · intro nothing
    cases blocks : d.frames with
    | nil => rfl
    | cons frame frames =>
        obtain ⟨h, opens, live⟩ := anchored.openers frame (by rw [blocks]; exact List.mem_cons_self)
        obtain ⟨node, found⟩ := Option.isSome_iff_exists.mp live
        have absent := List.filterMap_eq_nil_iff.mp nothing frame
          (by rw [blocks, List.mem_reverse]; exact List.mem_cons_self)
        simp [opens, Arena.command?, found] at absent
  · intro none
    simp [unclosed, none]

/-! ## The first draft -/

theorem start_eq (objects : Store) :
    start objects = { arena := Arena.empty.push (.ofCommand (.ofKind .noOp)), head := .ofIndex 0, objects } := by
  unfold start Arena.newSequence
  rw [Arena.fresh_empty.insert]
  rfl

theorem anchored_start (objects : Store) : Anchored (start objects) := by
  rw [start_eq]
  exact ⟨Arena.fresh_empty.push, List.forall_mem_nil _⟩

/-- Commands go behind the head. -/
theorem awaits_start (objects : Store) :
    (start objects).arena.Awaits (.ofIndex 0) none (.after (.ofIndex 0)) := by
  rw [start_eq]
  have head : (Arena.empty.push (.ofCommand (.ofKind .noOp))).node? (.ofIndex 0) =
      some (.ofCommand (.ofKind .noOp)) := by
    rw [Arena.node?_push]
    exact if_pos rfl
  refine .main (.last ?_) ?_
  · rw [Arena.next?, head]
    rfl
  · rw [Arena.contains, head]
    rfl

/-! ## Accepted scripts -/

end Draft

variable {statements : List Statement} {source : Nat} {m : Mission}

/-- A mission draws a program behind its head. -/
structure Mission.Draws (m : Mission) (program : Program) : Prop where
  head : m.head = .ofIndex 0
  fresh : m.arena.Fresh
  grown : (Draft.start .empty).arena.Grown m.arena (.after (.ofIndex 0)) program.layout

theorem sound_iff : Sound statements ↔ ∃ store, Draft.SoundFrom (.start .empty) statements store := by
  have builds : (∀ s ∈ missionStatements statements, ∃ c, Command.ofStatement s = .ok c) ↔
      ∀ s ∈ missionStatements statements, s.command?.isSome := by
    refine forall₂_congr fun s _ => ?_
    unfold Statement.command?
    cases Command.ofStatement s <;> simp
  have commands : missionCommands statements = Draft.describe (missionStatements statements) := rfl
  rw [Draft.start_eq]
  constructor
  · rintro ⟨described, ⟨store, configures⟩, noFunction, beginsOnce⟩
    refine ⟨store, ?_, ?_, noFunction, ?_⟩
    · rw [Draft.steps_false]
      exact builds.mp described
    · rw [Draft.settings_false]
      exact configures
    · rw [Draft.steps_false]
      exact beginsOnce
  · rintro ⟨store, described, configures, noFunction, beginsOnce⟩
    rw [Draft.steps_false] at described beginsOnce
    rw [Draft.settings_false] at configures
    exact ⟨builds.mpr described, ⟨store, configures⟩, noFunction, beginsOnce⟩

namespace Mission

/-- A script is accepted if its statements do not fail on their own and its commands can be placed
with no block left open. -/
theorem ofStatements_eq_ok_iff :
    ofStatements source statements = .ok m ↔
      ∃ store b, Draft.SoundFrom (.start .empty) statements store ∧
        Draft.Places (.start .empty) (missionCommands statements) b [] ∧
        m = { arena := b, head := .ofIndex 0, objects := store, source } := by
  have steps : Draft.describe (Draft.steps (Draft.start .empty).inMission statements) =
      missionCommands statements := by
    rw [Draft.start_eq, Draft.steps_false]
    rfl
  have head : (Draft.start .empty).head = .ofIndex 0 := by
    rw [Draft.start_eq]
  unfold ofStatements
  constructor
  · intro accepted
    cases added : Draft.addAll source statements (.start .empty) with
    | mk errors final =>
        rw [added] at accepted
        dsimp only at accepted
        split at accepted
        · rename_i nothing
          obtain ⟨rfl, closed⟩ := List.append_eq_nil_iff.mp nothing
          cases accepted
          have headKept := Draft.head_of_addAll added
          obtain ⟨sound, places⟩ :=
            Draft.addAll_eq_nil_iff.mp ⟨final, added, rfl, headKept, rfl, rfl⟩
          rw [steps] at places
          have anchored := (Draft.anchored_start .empty).places places
          have blocks : final.frames = [] := (Draft.unclosed_eq_nil_iff anchored source).mp closed
          rw [blocks] at places
          refine ⟨final.objects, final.arena, sound, places, ?_⟩
          rw [Draft.finish, headKept, head]
        · cases accepted
  · rintro ⟨store, b, sound, places, rfl⟩
    rw [← steps] at places
    obtain ⟨final, added, rfl, headKept, blocks, rfl⟩ := Draft.addAll_eq_nil_iff.mpr ⟨sound, places⟩
    rw [added]
    simp [Draft.unclosed, blocks, Draft.finish, headKept, head]

/-- The commands of every program can be placed. -/
theorem exists_places (program : Program) :
    ∃ b, Draft.Places (.start .empty) program.commands b [] ∧
      (Draft.start .empty).arena.Grown b (.after (.ofIndex 0)) program.layout ∧ b.Fresh := by
  have nothing : (Draft.start .empty).frames = [] := by rw [Draft.start_eq]
  have head : (Draft.start .empty).head = .ofIndex 0 := by rw [Draft.start_eq]
  obtain ⟨b, placed, grown, fresh⟩ := Draft.drafted program (.start .empty) (.after (.ofIndex 0))
    (Draft.anchored_start .empty).fresh (by rw [nothing, head]; exact Draft.awaits_start .empty)
  refine ⟨b, ?_, grown, fresh⟩
  rw [Draft.Places, ← nothing]
  exact placed

/-- The commands of the statements of an accepted script make a program, and the mission draws it. -/
theorem draws_of_accepted (accepted : ofStatements source statements = .ok m) :
    Sound statements ∧ m.source = source ∧
      (∃ program : Program, program.commands = missionCommands statements) ∧
      ∀ program : Program, program.commands = missionCommands statements → m.Draws program := by
  obtain ⟨store, b, sound, places, rfl⟩ := ofStatements_eq_ok_iff.mp accepted
  have nothing : (Draft.start .empty).frames = [] := by rw [Draft.start_eq]
  refine ⟨sound_iff.mpr ⟨store, sound⟩, rfl,
    Draft.exists_program_of_placeAll nothing places rfl, fun program commands => ?_⟩
  obtain ⟨c, placed, grown, fresh⟩ := exists_places program
  rw [commands] at placed
  cases placed.symm.trans places
  exact ⟨rfl, fresh, grown⟩

/-- Accepted are exactly the scripts whose statements do not fail on their own and whose commands have
well-nested kinds. -/
theorem accepted_iff :
    (∃ m, ofStatements source statements = .ok m) ↔
      Sound statements ∧ WellNested (missionKinds statements) := by
  constructor
  · rintro ⟨m, accepted⟩
    obtain ⟨sound, _, ⟨program, commands⟩, _⟩ := draws_of_accepted accepted
    refine ⟨sound, ?_⟩
    rw [missionKinds, ← commands]
    exact program.wellNested
  · rintro ⟨sound, nested⟩
    obtain ⟨store, soundFrom⟩ := sound_iff.mp sound
    obtain ⟨program, commands⟩ := Program.exists_of_wellNested nested rfl
    obtain ⟨b, places, _⟩ := exists_places program
    rw [commands] at places
    exact ⟨_, ofStatements_eq_ok_iff.mpr ⟨store, b, soundFrom, places, rfl⟩⟩

end Mission

end MissionScript
