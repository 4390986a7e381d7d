import MissionScript.Proofs.Mission.Drafting

/-!
# Statements of a mission

Which statements of a script become commands and which only configure objects, and when a statement
fails on its own. Building a mission comes down to placing the commands of its statements.
-/

namespace MissionScript

namespace Statement

def isCommand (s : Statement) : Bool :=
  match s.parts with
  | .command .. | .call .. => true
  | _ => false

def isAssignment (s : Statement) : Bool :=
  match s.parts with
  | .assignment .. => true
  | _ => false

def isDefinition (s : Statement) : Bool :=
  match s.parts with
  | .definition .. => true
  | _ => false

def isFunction (s : Statement) : Bool :=
  match s.parts with
  | .function .. => true
  | _ => false

/-- The command that a statement describes, with its place in the source. -/
def command? (s : Statement) : Option Command :=
  match Command.ofStatement s with
  | .ok c => some { c with span := some s.span }
  | .error _ => none

end Statement

/-- The statements that become commands: from the first command on, all commands and assignments. -/
def missionStatements (statements : List Statement) : List Statement :=
  (statements.dropWhile (!·.isCommand)).filter fun s => s.isCommand || s.isAssignment

theorem mem_of_mem_missionStatements {statements : List Statement} {s : Statement}
    (member : s ∈ missionStatements statements) : s ∈ statements :=
  (List.dropWhile_sublist _).subset (List.mem_filter.mp member).1

/-- The statements that change the objects while a mission is built: all definitions, and the
assignments before the first command. -/
def settingStatements (statements : List Statement) : List Statement :=
  (statements.takeWhile (!·.isCommand)).filter (fun s => s.isDefinition || s.isAssignment) ++
    (statements.dropWhile (!·.isCommand)).filter (·.isDefinition)

/-- The commands of a mission in the order of their statements. -/
def missionCommands (statements : List Statement) : List Command :=
  (missionStatements statements).filterMap (·.command?)

/-- The kinds of these commands. -/
def missionKinds (statements : List Statement) : List CommandKind :=
  (missionCommands statements).map (·.kind)

namespace Store

/-- Make the objects of a definition. -/
def defineAll (store : Store) (instruction objectType names : Text) :
    Except SequenceError Store :=
  match decompose .square true false names with
  | .error e => .error (.parse e)
  | .ok tokens =>
    tokens.foldlM (fun store token => store.define instruction objectType token) store

/-- Make or configure objects as a statement says. -/
def take (store : Store) (s : Statement) : Except SequenceError Store :=
  match s.parts with
  | .definition objectType names => store.defineAll s.instruction objectType names
  | .assignment target written =>
    (store.configure target written).mapError
      (.invalidArgument ⟨CommandKind.assignment.name, s.instruction⟩)
  | _ => .ok store

end Store

/-- No statement of a script fails on its own, whatever the blocks around it. -/
structure Sound (statements : List Statement) : Prop where
  /-- Every statement of the mission describes a command. -/
  builds : ∀ s ∈ missionStatements statements, ∃ c, Command.ofStatement s = .ok c
  /-- Every definition and every assignment before the mission succeeds. -/
  configures : ∃ store, (settingStatements statements).foldlM Store.take .empty = .ok store
  noFunction : ∀ s ∈ statements, ¬s.isFunction
  beginsOnce : (missionKinds statements).count .beginMissionSequence ≤ 1

namespace Draft

variable {d next : Draft} {s : Statement}

/-! ## Single statements -/

/-- Make the objects of some tokens. -/
def defineTokens (instruction objectType : Text) (tokens : List Text) : Drafting Unit :=
  tokens.forM fun token => do
    match (← get).objects.define instruction objectType token with
    | .error e => throw e
    | .ok objects => modify ({ · with objects })

theorem defineTokens_eq_ok_iff (instruction objectType : Text) (tokens : List Text) :
    defineTokens instruction objectType tokens d = (.ok (), next) ↔
      ∃ store, tokens.foldlM (fun store token => store.define instruction objectType token)
          d.objects = .ok store ∧ next = { d with objects := store } := by
  unfold defineTokens
  induction tokens generalizing d with
  | nil =>
      constructor
      · intro same
        cases same
        exact ⟨_, rfl, rfl⟩
      · rintro ⟨store, same, rfl⟩
        cases same
        rfl
  | cons token rest ih =>
      rw [List.foldlM_cons]
      change ((do
        match (← get).objects.define instruction objectType token with
        | .error e => throw e
        | .ok objects => modify ({ · with objects })) >>= fun _ =>
          defineTokens instruction objectType rest : Drafting Unit) d = _ ↔ _
      rw [Step.bind_eq_ok_iff]
      simp only [Step.get_bind]
      cases made : d.objects.define instruction objectType token with
      | error e =>
          constructor
          · rintro ⟨value, middle, failed, -⟩
            cases failed
          · rintro ⟨store, failed, -⟩
            cases failed
      | ok objects =>
          dsimp only
          constructor
          · rintro ⟨value, middle, first, others⟩
            cases first
            exact ih.mp others
          · intro found
            exact ⟨⟨⟩, _, rfl, ih.mpr found⟩

theorem define_eq_ok_iff (instruction objectType names : Text) :
    define instruction objectType names d = (.ok (), next) ↔
      ∃ store, d.objects.defineAll instruction objectType names = .ok store ∧
        next = { d with objects := store } := by
  unfold define Store.defineAll
  cases decompose .square true false names with
  | error e =>
      constructor
      · intro failed
        cases failed
      · rintro ⟨store, failed, -⟩
        cases failed
  | ok tokens => exact defineTokens_eq_ok_iff instruction objectType tokens

theorem configure_eq_ok_iff (instruction target written : Text) :
    configure instruction target written d = (.ok (), next) ↔
      ∃ store, d.objects.configure target written = .ok store ∧
        next = { d with objects := store } := by
  unfold configure
  rw [Step.get_bind]
  cases d.objects.configure target written with
  | error e =>
      constructor
      · intro failed
        cases failed
      · rintro ⟨store, failed, -⟩
        cases failed
  | ok objects =>
      constructor
      · intro done
        cases done
        exact ⟨_, rfl, rfl⟩
      · rintro ⟨store, done, rfl⟩
        cases done
        rfl

/-- A first `BeginMissionSequence`, or another command. -/
def Begins (d : Draft) (c : Command) : Prop := c.kind = .beginMissionSequence → d.begun = false

/-- A draft whose mission sequence has started with a command. -/
def started (d : Draft) (c : Command) : Draft :=
  { d with inMission := true, begun := d.begun || decide (c.kind = .beginMissionSequence) }

theorem begin_eq_ok_iff {c : Command} :
    begin c d = (.ok (), next) ↔ Begins d c ∧ next = d.started c := by
  unfold begin Begins started
  by_cases first : c.kind = .beginMissionSequence
  · cases begun : d.begun with
    | true =>
        simp only [first, if_true, Step.get_bind, begun]
        constructor
        · intro failed
          cases failed
        · rintro ⟨fits, -⟩
          cases fits trivial
    | false =>
        simp only [first, if_true, Step.get_bind, begun]
        constructor
        · intro done
          cases done
          exact ⟨fun _ => trivial, rfl⟩
        · rintro ⟨-, rfl⟩
          rfl
  · simp only [first, if_false]
    constructor
    · intro done
      cases done
      exact ⟨fun same => absurd same id, by simp⟩
    · rintro ⟨-, rfl⟩
      simp

theorem place_keeps {c : Command} (placed : place c d = (.ok (), next)) :
    next = { d with arena := next.arena, frames := next.frames } := by
  obtain ⟨_, h, b, _, rfl⟩ := place_eq_ok_iff.mp placed
  rfl

/-- Adding a statement that describes a command in the mission sequence. -/
theorem addCommand_eq_ok_iff :
    addCommand s d = (.ok (), next) ↔
      ∃ c, s.command? = some c ∧ Begins d c ∧ place c (d.started c) = (.ok (), next) := by
  unfold addCommand Statement.command?
  cases described : Command.ofStatement s with
  | error e =>
      constructor
      · intro failed
        cases failed
      · rintro ⟨c, failed, -⟩
        cases failed
  | ok c =>
      dsimp only
      rw [Step.bind_eq_ok_iff]
      constructor
      · rintro ⟨⟨⟩, middle, first, others⟩
        obtain ⟨begins, rfl⟩ := begin_eq_ok_iff.mp first
        exact ⟨_, rfl, begins, others⟩
      · rintro ⟨_, ⟨⟩, begins, placed⟩
        exact ⟨⟨⟩, _, begin_eq_ok_iff.mpr ⟨begins, rfl⟩, placed⟩

end Draft

namespace Statement

/-- The statement becomes a command, where `inMission` tells that the mission sequence has started. -/
def isStep (s : Statement) (inMission : Bool) : Bool :=
  s.isCommand || inMission && s.isAssignment

end Statement

namespace Draft

variable {d next : Draft} {s : Statement}

theorem add_eq_ok_iff_of_isStep (isStep : s.isStep d.inMission) :
    add s d = (.ok (), next) ↔
      ∃ c, s.command? = some c ∧ Begins d c ∧ place c (d.started c) = (.ok (), next) := by
  rw [← addCommand_eq_ok_iff]
  cases s with
  | mk instruction parts span =>
      cases parts <;>
        simp_all [Statement.isStep, Statement.isCommand, Statement.isAssignment, add]

theorem add_eq_ok_iff_of_not_isStep (noStep : ¬s.isStep d.inMission) :
    add s d = (.ok (), next) ↔
      ¬s.isFunction ∧ ∃ store, d.objects.take s = .ok store ∧ next = { d with objects := store } := by
  cases s with
  | mk instruction parts span =>
      cases parts with
      | comment =>
          simp only [add, Statement.isFunction, Store.take]
          constructor
          · intro same
            cases same
            exact ⟨Bool.false_ne_true, _, rfl, rfl⟩
          · rintro ⟨-, store, same, rfl⟩
            cases same
            rfl
      | definition objectType names =>
          simp only [add, Statement.isFunction, Store.take, define_eq_ok_iff]
          simp
      | function =>
          simp only [add, Statement.isFunction]
          constructor
          · intro failed
            cases failed
          · rintro ⟨noFunction, -⟩
            exact absurd trivial noFunction
      | assignment target written =>
          have before : d.inMission = false := by
            simpa [Statement.isStep, Statement.isCommand, Statement.isAssignment] using noStep
          simp only [add, Step.get_bind, before, Bool.false_eq_true, if_false, configure_eq_ok_iff,
            Statement.isFunction, Store.take]
          simp only [Outcome.mapError_eq_ok_iff]
          simp
      | command => exact absurd rfl noStep
      | call => exact absurd rfl noStep

/-! ## Lists of statements -/

/-- The statements that become commands. -/
def steps : Bool → List Statement → List Statement
  | _, [] => []
  | inMission, s :: rest =>
    if s.isStep inMission then s :: steps true rest else steps inMission rest

/-- The statements that change the objects. -/
def settings : Bool → List Statement → List Statement
  | _, [] => []
  | inMission, s :: rest =>
    if s.isStep inMission then settings true rest
    else if s.isDefinition || s.isAssignment then s :: settings inMission rest
    else settings inMission rest

theorem steps_true (statements : List Statement) :
    steps true statements = statements.filter fun s => s.isCommand || s.isAssignment := by
  induction statements with
  | nil => rfl
  | cons s rest ih => simp [steps, List.filter_cons, Statement.isStep, ih]

theorem steps_false (statements : List Statement) :
    steps false statements = missionStatements statements := by
  induction statements with
  | nil => rfl
  | cons s rest ih =>
      unfold missionStatements at ih ⊢
      by_cases command : s.isCommand
      · simp [steps, Statement.isStep, command, steps_true]
      · simp [steps, Statement.isStep, command, ih]

/-- No assignment is left once the mission sequence has started. -/
theorem settings_true (statements : List Statement) :
    settings true statements = statements.filter (·.isDefinition) := by
  induction statements with
  | nil => rfl
  | cons s rest ih =>
      cases s with
      | mk instruction parts span =>
          cases parts <;> simp_all [settings, Statement.isStep, Statement.isCommand,
            Statement.isAssignment, Statement.isDefinition]

theorem settings_false (statements : List Statement) :
    settings false statements = settingStatements statements := by
  induction statements with
  | nil => rfl
  | cons s rest ih =>
      unfold settingStatements at ih ⊢
      by_cases command : s.isCommand
      · have noDefinition : s.isDefinition = false := by
          cases s with
          | mk instruction parts span =>
              cases parts <;> simp_all [Statement.isCommand, Statement.isDefinition]
        simp [settings, Statement.isStep, command, settings_true, noDefinition]
      · by_cases changes : s.isDefinition || s.isAssignment
        · simp [settings, Statement.isStep, command, ih, changes]
        · simp [settings, Statement.isStep, command, ih, changes]

/-- The commands of some statements. -/
def describe (statements : List Statement) : List Command := statements.filterMap (·.command?)

/-- The statements do not fail on their own, and configure `store`. -/
structure SoundFrom (d : Draft) (statements : List Statement) (store : Store) : Prop where
  builds : ∀ s ∈ steps d.inMission statements, s.command?.isSome
  configures : (settings d.inMission statements).foldlM Store.take d.objects = .ok store
  noFunction : ∀ s ∈ statements, ¬s.isFunction
  beginsOnce :
    ((describe (steps d.inMission statements)).map (·.kind)).count .beginMissionSequence +
      d.begun.toNat ≤ 1

/-- Placing commands makes this arena and leaves these blocks open. -/
def Places (d : Draft) (commands : List Command) (b : Arena) (frames : List Frame) : Prop :=
  placeAll commands d = (.ok (), { d with arena := b, frames })

theorem places_nil {b : Arena} {frames : List Frame} :
    Places d [] b frames ↔ b = d.arena ∧ frames = d.frames := by
  constructor
  · intro placed
    have same : d = { d with arena := b, frames } := congrArg Prod.snd placed
    exact ⟨congrArg Draft.arena same.symm, congrArg Draft.frames same.symm⟩
  · rintro ⟨rfl, rfl⟩
    rfl

theorem places_cons {c : Command} {commands : List Command} {b : Arena} {frames : List Frame} :
    Places d (c :: commands) b frames ↔
      ∃ next, place c d = (.ok (), next) ∧ Places next commands b frames := by
  unfold Places
  rw [placeAll, Step.bind_eq_ok_iff]
  constructor
  · rintro ⟨⟨⟩, next, placed, others⟩
    refine ⟨next, placed, others.trans ?_⟩
    rw [place_keeps placed]
  · rintro ⟨next, placed, others⟩
    refine ⟨⟨⟩, next, placed, others.trans ?_⟩
    rw [place_keeps placed]

/-- Placing commands hangs on the arena and the open blocks only. -/
theorem Places.congr {e : Draft} {commands : List Command} {b : Arena} {frames : List Frame}
    (places : Places d commands b frames) (arena : e.arena = d.arena) (head : e.head = d.head)
    (blocks : e.frames = d.frames) : Places e commands b frames := by
  induction commands generalizing d e with
  | nil =>
      rw [places_nil] at places ⊢
      rw [arena, blocks]
      exact places
  | cons c rest ih =>
      rw [places_cons] at places ⊢
      obtain ⟨next, placed, others⟩ := places
      obtain ⟨admits, h, a, linked, rfl⟩ := place_eq_ok_iff.mp placed
      refine ⟨{ e with arena := a, frames := framesAfter c.kind h e.frames }, ?_, ?_⟩
      · rw [place_eq_ok_iff, arena, head, blocks]
        exact ⟨admits, h, a, linked, rfl⟩
      · exact ih others rfl head (by rw [blocks])

theorem addAll_cons_eq_nil_iff {source : Nat} {rest : List Statement} {final : Draft} :
    addAll source (s :: rest) d = ([], final) ↔
      ∃ next, add s d = (.ok (), next) ∧ addAll source rest next = ([], final) := by
  rw [addAll]
  cases added : add s d with
  | mk outcome next =>
      cases outcome with
      | ok =>
          constructor
          · intro errorless
            exact ⟨next, rfl, errorless⟩
          · rintro ⟨_, same, errorless⟩
            cases same
            exact errorless
      | error e =>
          constructor
          · intro failed
            cases failed
          · rintro ⟨_, failed, -⟩
            cases failed

namespace SoundFrom

variable {statements rest : List Statement} {store : Store}

theorem nil : SoundFrom d [] store ↔ store = d.objects := by
  constructor
  · intro sound
    have configures := sound.configures
    cases configures
    rfl
  · rintro rfl
    refine ⟨List.forall_mem_nil _, rfl, List.forall_mem_nil _, ?_⟩
    simp only [steps, describe, List.filterMap_nil, List.map_nil, List.count_nil, Nat.zero_add]
    exact Bool.toNat_le _

theorem congr {e : Draft} (sound : SoundFrom d statements store)
    (inMission : e.inMission = d.inMission) (begun : e.begun = d.begun)
    (objects : e.objects = d.objects) : SoundFrom e statements store where
  builds := by rw [inMission]; exact sound.builds
  configures := by rw [inMission, objects]; exact sound.configures
  noFunction := sound.noFunction
  beginsOnce := by rw [inMission, begun]; exact sound.beginsOnce

/-- A command that fits in front of others that do not fail on their own. -/
theorem cons_of_isStep (isStep : s.isStep d.inMission) :
    SoundFrom d (s :: rest) store ↔
      ∃ c, s.command? = some c ∧ Begins d c ∧ SoundFrom (d.started c) rest store := by
  have noFunction : ¬s.isFunction := by
    cases s with
    | mk instruction parts span =>
        cases parts <;> simp_all [Statement.isStep, Statement.isCommand, Statement.isAssignment,
          Statement.isFunction]
  constructor
  · rintro ⟨builds, configures, functions, begins⟩
    simp only [steps, settings, isStep, if_true] at builds configures begins
    obtain ⟨first, others⟩ := List.forall_mem_cons.mp builds
    obtain ⟨c, described⟩ := Option.isSome_iff_exists.mp first
    simp only [describe, List.filterMap_cons, described, List.map_cons, List.count_cons] at begins
    refine ⟨c, described, ?_, others, configures, (List.forall_mem_cons.mp functions).2, ?_⟩
    · intro kind
      cases begun : d.begun with
      | false => rfl
      | true => simp [kind, begun] at begins
    · by_cases kind : c.kind = .beginMissionSequence
      · cases begun : d.begun <;> simp_all [started, describe]
      · simpa [started, describe, kind] using begins
  · rintro ⟨c, described, first, builds, configures, functions, begins⟩
    refine ⟨?_, ?_, List.forall_mem_cons.mpr ⟨noFunction, functions⟩, ?_⟩
    · simp only [steps, isStep, if_true]
      exact List.forall_mem_cons.mpr ⟨by rw [described]; rfl, builds⟩
    · simp only [settings, isStep, if_true]
      exact configures
    · simp only [steps, isStep, if_true, describe, List.filterMap_cons, described, List.map_cons,
        List.count_cons]
      by_cases kind : c.kind = .beginMissionSequence
      · have begun := first kind
        simp_all [started, describe]
      · simpa [started, describe, kind] using begins

/-- A statement that does not become a command. -/
theorem cons_of_not_isStep (noStep : ¬s.isStep d.inMission) :
    SoundFrom d (s :: rest) store ↔
      ¬s.isFunction ∧ ∃ objects, d.objects.take s = .ok objects ∧
        SoundFrom { d with objects } rest store := by
  have settingsTake : (settings d.inMission (s :: rest)).foldlM Store.take d.objects =
      (d.objects.take s >>= (settings d.inMission rest).foldlM Store.take) := by
    cases s with
    | mk instruction parts span =>
        cases parts <;> simp_all [settings, Statement.isStep, Statement.isCommand,
          Statement.isAssignment, Statement.isDefinition, Store.take] <;> rfl
  have same : steps d.inMission (s :: rest) = steps d.inMission rest := if_neg noStep
  constructor
  · rintro ⟨builds, configures, functions, begins⟩
    obtain ⟨noFunction, functions⟩ := List.forall_mem_cons.mp functions
    rw [same] at builds begins
    rw [settingsTake] at configures
    refine ⟨noFunction, ?_⟩
    cases taken : d.objects.take s with
    | error e =>
        rw [taken] at configures
        cases configures
    | ok objects =>
        rw [taken] at configures
        exact ⟨objects, rfl, builds, configures, functions, begins⟩
  · rintro ⟨noFunction, objects, taken, builds, configures, functions, begins⟩
    refine ⟨?_, ?_, List.forall_mem_cons.mpr ⟨noFunction, functions⟩, ?_⟩
    · rw [same]
      exact builds
    · rw [settingsTake, taken]
      exact configures
    · rw [same]
      exact begins

end SoundFrom

/-- Statements are added without an error exactly if none of them fails on its own and the commands
can be placed. -/
theorem addAll_eq_nil_iff {source : Nat} {statements : List Statement} {b : Arena}
    {frames : List Frame} {store : Store} :
    (∃ final, addAll source statements d = ([], final) ∧ final.arena = b ∧ final.head = d.head ∧
        final.frames = frames ∧ final.objects = store) ↔
      SoundFrom d statements store ∧
        Places d (describe (steps d.inMission statements)) b frames := by
  induction statements generalizing d with
  | nil =>
      rw [SoundFrom.nil, steps, describe, List.filterMap_nil, places_nil]
      constructor
      · rintro ⟨final, same, rfl, -, rfl, rfl⟩
        cases same
        exact ⟨rfl, rfl, rfl⟩
      · rintro ⟨rfl, rfl, rfl⟩
        exact ⟨d, rfl, rfl, rfl, rfl, rfl⟩
  | cons s rest ih =>
      simp only [addAll_cons_eq_nil_iff]
      by_cases isStep : s.isStep d.inMission
      · simp only [SoundFrom.cons_of_isStep isStep, add_eq_ok_iff_of_isStep isStep, steps, isStep,
          if_true]
        constructor
        · rintro ⟨final, ⟨next, ⟨c, described, begins, placed⟩, others⟩, arena, head, blocks, objects⟩
          obtain ⟨admits, h, a, linked, rfl⟩ := place_eq_ok_iff.mp placed
          obtain ⟨sound, places⟩ := ih.mp ⟨final, others, arena, head, blocks, objects⟩
          refine ⟨⟨c, described, begins, sound.congr rfl rfl rfl⟩, ?_⟩
          rw [describe, List.filterMap_cons, described]
          exact Places.congr (d := d.started c) (places_cons.mpr ⟨_, placed, places⟩) rfl rfl rfl
        · rintro ⟨⟨c, described, begins, sound⟩, places⟩
          rw [describe, List.filterMap_cons, described] at places
          obtain ⟨next, placed, behind⟩ := places_cons.mp
            (Places.congr (e := d.started c) places rfl rfl rfl)
          have kept := place_keeps placed
          have inMission : next.inMission = true := congrArg Draft.inMission kept
          obtain ⟨final, others, arena, head, blocks, objects⟩ := ih.mpr
            ⟨sound.congr inMission (by rw [kept]) (by rw [kept]),
              by rw [inMission]; exact behind⟩
          exact ⟨final, ⟨next, ⟨c, described, begins, placed⟩, others⟩, arena,
            head.trans (by rw [kept]; rfl), blocks, objects⟩
      · simp only [SoundFrom.cons_of_not_isStep isStep, add_eq_ok_iff_of_not_isStep isStep, steps,
          isStep, Bool.false_eq_true, if_false]
        constructor
        · rintro ⟨final, ⟨_, ⟨noFunction, taken, take, rfl⟩, others⟩, arena, head, blocks, objects⟩
          obtain ⟨sound, places⟩ := ih.mp ⟨final, others, arena, head, blocks, objects⟩
          exact ⟨⟨noFunction, taken, take, sound⟩, places.congr rfl rfl rfl⟩
        · rintro ⟨⟨noFunction, taken, take, sound⟩, places⟩
          obtain ⟨final, others, arena, head, blocks, objects⟩ :=
            ih.mpr ⟨sound, places.congr rfl rfl rfl⟩
          exact ⟨final, ⟨_, ⟨noFunction, taken, take, rfl⟩, others⟩, arena, head, blocks, objects⟩

theorem head_of_addAll {source : Nat} {statements : List Statement} {final : Draft}
    (added : addAll source statements d = ([], final)) : final.head = d.head := by
  induction statements generalizing d with
  | nil =>
      cases added
      rfl
  | cons s rest ih =>
      obtain ⟨next, first, others⟩ := addAll_cons_eq_nil_iff.mp added
      rw [ih others]
      by_cases isStep : s.isStep d.inMission
      · obtain ⟨c, _, _, placed⟩ := (add_eq_ok_iff_of_isStep isStep).mp first
        rw [place_keeps placed]
        rfl
      · obtain ⟨_, _, _, rfl⟩ := (add_eq_ok_iff_of_not_isStep isStep).mp first
        rfl

end Draft

end MissionScript
