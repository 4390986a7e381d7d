import Mathlib.Logic.Relation
import MissionScript.Proofs.Run.Invariant
import MissionScript.Proofs.Run.Repeat

/-!
# Moments of a run

A moment is a program that is about to run at its position in some world. A run of a program comes to other moments:
to the rest of a program behind a part that has run, and to the branches of its blocks, for a loop as often as it
makes passes. At each of them the commands are still served, and no command inside a solver loop ahead has a result.
-/

namespace MissionScript

open Step

/-! ## Coming to a moment -/

namespace Direct

/-- With so many passes left, a loop that is at the state `start` in the world `w` comes to begin a pass. -/
inductive PassBegins {σ : Type} (again : σ → Direct Bool) (pass : σ → Direct (Option σ)) :
    (remaining : Nat) → (start : σ) → (w : World) → σ → World → Prop where
  | first {remaining : Nat} {state : σ} {w begun : World} (goes : again state w = (.ok true, begun)) :
      PassBegins again pass (remaining + 1) state w state begun
  | later {remaining : Nat} {state next last : σ} {w begun after now : World}
      (goes : again state w = (.ok true, begun)) (made : pass state begun = (.ok (some next), after))
      (begins : PassBegins again pass remaining next after last now) :
      PassBegins again pass (remaining + 1) state w last now

/-- A command with one branch that runs in the world `w` comes to begin its body. -/
inductive BodyBegins (t : Terms) (c : Command) (body : Direct Unit) (w : World) : World → Prop where
  | branch {begun : World} (kind : c.kind = .ifThen) (goes : test t c w = (.ok true, begun)) :
      BodyBegins t c body w begun
  | whileLoop {begun : World} (kind : c.kind = .whileLoop)
      (begins : PassBegins (fun _ => test t c) (whilePass body) t.passLimit () w () begun) :
      BodyBegins t c body w begun
  | forLoop {range : LoopRange} {bounds : LoopBounds} {value : Float} {begun : World} {objects : Store}
      (kind : c.kind = .forLoop) (own : c.body = .range range) (computed : range.bounds w.objects = .ok bounds)
      (begins : PassBegins (fun value => return bounds.admits value) (forPass t c range bounds.step body)
        t.passLimit bounds.start w value begun)
      (assigned : range.index.assign begun.objects value = .ok objects) :
      BodyBegins t c body w { begun with objects }
  | solverLoop {l : SolverLoop} {started begun : World} (kind : c.kind = .optimize ∨ c.kind = .target)
      (own : c.body = .solverLoop l) (starts : startSolver t c l.solver w = (.ok (), started))
      (begins : PassBegins (fun _ => return true) (solverPass l body) t.passLimit () started () begun) :
      BodyBegins t c body w begun

end Direct

/-- Run a branch at this position and count the command that ends it. -/
def Program.branch (t : Terms) (position : Nat) (body : Program) : Direct Unit := do
  body.run t position
  Direct.count

/-- A program that is about to run. -/
structure Moment where
  position : Nat
  program : Program
  world : World

/-- Running the program of the one moment comes to the other one next. -/
inductive Moment.Leads (t : Terms) : Moment → Moment → Prop where
  | after {position : Nat} {first rest : Program} {w next : World}
      (ran : first.run t position w = (.ok (), next)) :
      Leads t ⟨position, first.append rest, w⟩ ⟨position + first.size, rest, next⟩
  | script {position : Nat} {opener closer : Command} {body next : Program} {w : World}
      {opens : opener.kind = .beginScript} {closes : closer.kind = .endScript} :
      Leads t ⟨position, .script opener opens body closer closes next, w⟩
        ⟨position + 1, body, (Direct.count w).2⟩
  | block {position : Nat} {opener closer : Command} {body next : Program} {w begun : World}
      {ends : (opener.kind, closer.kind) ∈ CommandKind.branchEnds}
      (begins : Direct.BodyBegins t opener (body.branch t (position + 1)) (Direct.count w).2 begun) :
      Leads t ⟨position, .block opener body closer ends next, w⟩ ⟨position + 1, body, begun⟩
  | first {position : Nat} {opener alternative closer : Command} {first second next : Program} {w begun : World}
      {opens : opener.kind = .ifThen} {turns : alternative.kind = .otherwise} {closes : closer.kind = .endIf}
      (goes : Direct.test t opener (Direct.count w).2 = (.ok true, begun)) :
      Leads t ⟨position, .choice opener opens first alternative turns second closer closes next, w⟩
        ⟨position + 1, first, begun⟩
  | second {position : Nat} {opener alternative closer : Command} {first second next : Program} {w begun : World}
      {opens : opener.kind = .ifThen} {turns : alternative.kind = .otherwise} {closes : closer.kind = .endIf}
      (goes : Direct.test t opener (Direct.count w).2 = (.ok false, begun)) :
      Leads t ⟨position, .choice opener opens first alternative turns second closer closes next, w⟩
        ⟨position + 1 + (first.size + 1), second, begun⟩

namespace Program

variable {t : Terms} {first rest : Program} {position : Nat}

theorem size_append : (first.append rest).size = first.size + rest.size := by
  rw [size, commands_append, List.length_append]
  rfl

/-- A program in two parts runs the first one and then the other. -/
theorem run_append : (first.append rest).run t position = (do
    first.run t position
    rest.run t (position + first.size)) := by
  induction first generalizing position with
  | done => rfl
  | plain c isPlain next ih =>
      rw [append, run, run, ih, size_plain, bind_assoc, Nat.add_comm next.size, ← Nat.add_assoc]
  | script opener opens body closer closes next _ ih =>
      rw [append, run, run, ih, size_script]
      simp only [bind_assoc]
      rw [show position + 1 + (body.size + 1) + next.size = position + (body.size + next.size + 2) by omega]
  | block opener body closer ends next _ ih =>
      rw [append, run, run, ih, size_block, bind_assoc,
        show position + 1 + (body.size + 1) + next.size = position + (body.size + next.size + 2) by omega]
  | choice opener opens first alternative turns second closer closes next _ _ ih =>
      rw [append, run, run, ih, size_choice, bind_assoc,
        show position + 1 + (first.size + 1) + (second.size + 1) + next.size =
          position + (first.size + second.size + next.size + 3) by omega]

end Program

/-! ## Solver loops that are not running -/

/-- No command inside a solver loop of the program has a result. -/
def Program.Idle (results : Nat → ResultState) : (position : Nat) → Program → Prop
  | _, done => True
  | position, plain _ _ next => next.Idle results (position + 1)
  | position, script _ _ body _ _ next =>
    body.Idle results (position + 1) ∧ next.Idle results (position + 1 + (body.size + 1))
  | position, block opener body _ _ next =>
    (opener.kind = .optimize ∨ opener.kind = .target → ∀ place, position ≤ place →
      place < position + (1 + (body.size + 1)) → results place = .unregistered) ∧
      body.Idle results (position + 1) ∧ next.Idle results (position + 1 + (body.size + 1))
  | position, choice _ _ first _ _ second _ _ next =>
    first.Idle results (position + 1) ∧ second.Idle results (position + 1 + (first.size + 1)) ∧
      next.Idle results (position + 1 + (first.size + 1) + (second.size + 1))

namespace Program

variable {t : Terms} {position : Nat} {results later : Nat → ResultState}

theorem idle_append {first rest : Program} : (first.append rest).Idle results position ↔
    first.Idle results position ∧ rest.Idle results (position + first.size) := by
  induction first generalizing position with
  | done => simp [append, Idle, size, commands]
  | plain c isPlain next ih =>
      rw [append, Idle, Idle, ih, size_plain, Nat.add_comm next.size, Nat.add_assoc]
  | script opener opens body closer closes next _ ih =>
      rw [append, Idle, Idle, ih, size_script, and_assoc,
        show position + 1 + (body.size + 1) + next.size = position + (body.size + next.size + 2) by omega]
  | block opener body closer ends next _ ih =>
      rw [append, Idle, Idle, ih, size_block, and_assoc, and_assoc,
        show position + 1 + (body.size + 1) + next.size = position + (body.size + next.size + 2) by omega]
  | choice opener opens first alternative turns second closer closes next _ _ ih =>
      rw [append, Idle, Idle, ih, size_choice, and_assoc, and_assoc,
        show position + 1 + (first.size + 1) + (second.size + 1) + next.size =
          position + (first.size + second.size + next.size + 3) by omega]

/-- Results of the program may be forgotten. -/
theorem Idle.of_kept {program : Program} (idle : program.Idle results position)
    (kept : ∀ place, position ≤ place → place < position + program.size →
      later place = results place ∨ later place = .unregistered) : program.Idle later position := by
  induction program generalizing position with
  | done => trivial
  | plain c isPlain next ih =>
      rw [size_plain] at kept
      exact ih idle fun place below above => kept place (by omega) (by omega)
  | script opener opens body closer closes next bodyIH nextIH =>
      rw [size_script] at kept
      exact ⟨bodyIH idle.1 fun place below above => kept place (by omega) (by omega),
        nextIH idle.2 fun place below above => kept place (by omega) (by omega)⟩
  | block opener body closer ends next bodyIH nextIH =>
      rw [size_block] at kept
      obtain ⟨own, inside, behind⟩ := idle
      refine ⟨fun loops place below above => ?_,
        bodyIH inside fun place below above => kept place (by omega) (by omega),
        nextIH behind fun place below above => kept place (by omega) (by omega)⟩
      rcases kept place below (by omega) with same | none
      · exact same.trans (own loops place below above)
      · exact none
  | choice opener opens first alternative turns second closer closes next firstIH secondIH nextIH =>
      rw [size_choice] at kept
      obtain ⟨inFirst, inSecond, behind⟩ := idle
      exact ⟨firstIH inFirst fun place below above => kept place (by omega) (by omega),
        secondIH inSecond fun place below above => kept place (by omega) (by omega),
        nextIH behind fun place below above => kept place (by omega) (by omega)⟩

/-- What is idle stays so while commands at other positions run. -/
theorem beside (program : Program) {low high : Nat} (apart : position + program.size ≤ low ∨ high ≤ position) :
    Invariant t (fun place _ => low ≤ place ∧ place < high) fun _ w => program.Idle w.results position where
  counts now := now
  writes now _ := now
  reports := by
    intro _ w place c here _ now
    exact now.of_kept fun other _ _ => .inl (Direct.results_report (by omega))
  starts _ _ _ _ now := now
  advances _ _ _ now := now
  leaves := by
    intro _ w start size c l _ _ places now
    refine now.of_kept fun other _ _ => .inl (if_neg fun inside => ?_)
    obtain ⟨_, _⟩ := places other inside.1 inside.2
    omega

theorem admits_range (program : Program) {low high : Nat} (below : low ≤ position)
    (above : position + program.size ≤ high) :
    Admits (fun place _ => low ≤ place ∧ place < high) position program.commands := by
  refine Admits.iff_getElem?.mpr fun index c found => ?_
  have inside : index < program.size := (List.getElem?_eq_some_iff.mp found).1
  omega

theorem keeps_beside (other program : Program) {place : Nat}
    (apart : place + other.size ≤ position ∨ position + program.size ≤ place) :
    Keeps (fun w => other.Idle w.results place) (program.run t position) :=
  (other.beside apart).run program position (program.admits_range (Nat.le_refl _) (Nat.le_refl _)) []

/-- What is idle in a block stays so, whatever the block does around its body. -/
theorem inside (program : Program) (position : Nat) :
    Invariant t (fun _ c => c.kind.isPlain = false) fun _ w => program.Idle w.results position where
  counts now := now
  writes now _ := now
  reports here isPlain := absurd isPlain (by rw [here]; exact Bool.false_ne_true)
  starts _ _ _ _ now := now
  advances _ _ _ now := now
  leaves := by
    intro _ w low size c l _ _ _ now
    refine now.of_kept fun place _ _ => ?_
    by_cases within : low ≤ place ∧ place < low + size
    · exact .inr (if_pos within)
    · exact .inl (if_neg within)

end Program

namespace Direct

variable {t : Terms} {position size : Nat} {c : Command} {body : Direct Unit}

/-- A solver loop that has come to its end leaves no result behind. -/
theorem keeps_unregistered (loops : c.kind = .optimize ∨ c.kind = .target) :
    Keeps (fun w => ∀ place, position ≤ place → place < position + size → w.results place = .unregistered)
      (block t position size c body) := by
  have looped : Keeps (fun w => ∀ place, position ≤ place → place < position + size →
      w.results place = .unregistered) (solverLoop t position size c body) := by
    cases own : c.body with
    | solverLoop l =>
        rw [solverLoop_eq own]
        intro w now
        rcases Confined.startSolver_cases (t := t) c l.solver w with failed | ⟨_, _, -, started⟩
        · rw [Step.bind_error failed]
          exact now
        · rw [Step.bind_ok started]
          exact fun place below above => if_pos ⟨below, above⟩
    | _ =>
        unfold solverLoop
        rw [own]
        exact keeps_pure _
  refine Keeps.bind (.change fun _ now => now) fun _ => ?_
  rcases loops with kind | kind
  · rw [kind]
    exact looped
  · rw [kind]
    exact looped

end Direct

namespace Program

variable {t : Terms} {position : Nat}

theorem keeps_idle_append (first rest : Program)
    (inFirst : Keeps (fun w => first.Idle w.results position) (first.run t position))
    (inRest : Keeps (fun w => rest.Idle w.results (position + first.size)) (rest.run t (position + first.size))) :
    Keeps (fun w => (first.append rest).Idle w.results position) ((first.append rest).run t position) := by
  simp only [idle_append, run_append]
  exact (inFirst.and (rest.keeps_beside first (.inr (Nat.le_refl _)))).bind fun _ =>
    (first.keeps_beside rest (.inl (Nat.le_refl _))).and inRest

/-- The solver loops of a program are idle before it runs and afterwards. -/
theorem keeps_idle (program : Program) (position : Nat) :
    Keeps (fun w => program.Idle w.results position) (program.run t position) := by
  induction program generalizing position with
  | done => exact keeps_pure _
  | plain c isPlain next ih =>
      exact keeps_idle_append (.plain c isPlain .done) next (fun _ _ => trivial) (ih _)
  | script opener opens body closer closes next bodyIH nextIH =>
      refine keeps_idle_append (.script opener opens body closer closes .done) next ?_ (nextIH _)
      refine Keeps.and ?_ fun _ _ => trivial
      exact Keeps.bind (.change fun _ now => now) fun _ => (bodyIH _).bind fun _ => keeps_pure _
  | block opener body closer ends next bodyIH nextIH =>
      refine keeps_idle_append (.block opener body closer ends .done) next ?_ (nextIH _)
      -- the places of the block itself, and the loops inside it
      refine Keeps.bind (Keeps.and ?_ (Keeps.and ?_ fun _ _ => trivial)) fun _ => keeps_pure _
      · exact fun w now loops => Direct.keeps_unregistered loops w (now loops)
      · have isBlock : opener.kind.isPlain = false := CommandKind.isPlain_of_branchEnds ends
        have inv := body.inside (t := t) (position + 1)
        exact inv.block [] isBlock (fun _ => inv.ended [] (bodyIH _))
          fun _ _ _ => ⟨opener, isBlock⟩
  | choice opener opens first alternative turns second closer closes next firstIH secondIH nextIH =>
      refine keeps_idle_append (.choice opener opens first alternative turns second closer closes .done) next
        ?_ (nextIH _)
      refine Keeps.bind ?_ fun _ => keeps_pure _
      refine Keeps.and ?_ (Keeps.and ?_ fun _ _ => trivial)
      · have inv := first.inside (t := t) (position + 1)
        exact inv.choice [] (inv.ended [] (firstIH _))
          (inv.ended [] (first.keeps_beside second (.inl (by omega))))
      · have inv := second.inside (t := t) (position + 1 + (first.size + 1))
        exact inv.choice [] (inv.ended [] (second.keeps_beside first (.inr (by omega))))
          (inv.ended [] (secondIH _))

end Program

/-! ## What holds at every moment -/

namespace Direct

variable {t : Terms} {holds : World → Prop} {σ : Type} {again : σ → Direct Bool} {pass : σ → Direct (Option σ)}

theorem eq_of_test {c : Command} {w next : World} {x : Except Diagnostic Bool} (ran : test t c w = (x, next)) :
    next = w := by
  have still : Keeps (fun other => other = w) (test t c) := keeps_test
  have kept := still w rfl
  rwa [ran] at kept

theorem PassBegins.keeps {remaining : Nat} {start last : σ} {w begun : World}
    (begins : PassBegins again pass remaining start w last begun)
    (tests : ∀ state, Keeps holds (again state)) (steps : ∀ state, Keeps holds (pass state)) (now : holds w) :
    holds begun := by
  induction begins with
  | @first _ state w _ goes =>
      have kept := tests state w now
      rwa [goes] at kept
  | @later _ state _ _ w begun _ _ goes made _ ih =>
      have kept := tests state w now
      rw [goes] at kept
      have kept := steps state begun kept
      rw [made] at kept
      exact ih kept

end Direct

namespace Program.Invariant

variable {t : Terms} {admitted : Nat → Command → Prop} {holds : List Text → World → Prop}
  {c : Command} {body : Direct Unit} {w begun : World}

theorem bodyBegins (inv : Invariant t admitted holds) (position : Nat) (active : List Text) (here : admitted position c)
    (inside : ∀ active, Keeps (holds active) body) (begins : Direct.BodyBegins t c body w begun)
    (now : holds active w) : ∃ active, holds active begun := by
  cases begins with
  | branch kind goes =>
      obtain rfl := Direct.eq_of_test goes
      exact ⟨_, now⟩
  | whileLoop kind begins =>
      exact ⟨_, begins.keeps (fun _ => Direct.keeps_test) (Direct.keeps_whilePass (inside active)) now⟩
  | @forLoop range bounds value begun objects kind own computed begins assigned =>
      have kept : holds active begun := begins.keeps (fun _ => keeps_pure _)
        (Direct.keeps_forPass (inside active) fun _ _ => inv.writes) now
      exact ⟨_, inv.writes kept (Operand.sameTypes_assign assigned)⟩
  | solverLoop kind own starts begins =>
      rcases inv.startSolver active here own now with ⟨e, failed⟩ | ⟨_, started, running⟩
      · rw [failed] at starts
        cases starts
      · rw [started] at starts
        cases starts
        exact ⟨_, begins.keeps (fun _ => keeps_pure _) (inv.solverPass active here own (inside _)) running⟩

end Program.Invariant

namespace World

/-- Solvers are held under their names. -/
def Named (w : World) : Prop := ∀ name solver, w.solvers.get? name = some solver → solver.name = name

theorem Named.insert {w : World} (named : w.Named) {name : Text} {solver next : DryRun}
    (held : w.solvers.get? name = some solver) (same : next.name = solver.name) :
    Named { w with solvers := w.solvers.insert name next } :=
  Table.forall_insert named (same.trans (named name solver held))

/-- Whatever a program does, its commands are served and solvers are held under their names. -/
theorem serving {t : Terms} (commands : List Command) :
    Program.Invariant t (fun _ _ => True) fun _ w => w.Serves commands ∧ w.Named where
  counts now := now
  writes now same := ⟨now.1.keep ⟨same.keeps, fun _ held => held⟩, now.2⟩
  reports := by
    intro _ w position c _ _ now
    rcases Direct.report_cases t position c w with ⟨e, failed⟩ | ⟨_, _, _, next, -, held, reports, reported⟩
    · rwa [failed]
    · rw [reported]
      exact ⟨now.1.keep ⟨.refl _, (Direct.Safe.keeps_insert w _ next).solvers⟩,
        now.2.insert held (Command.name_of_report reports)⟩
  starts := by
    intro _ w position c l solver limit _ _ held now
    exact ⟨now.1.keep ⟨.refl _, (Direct.Safe.keeps_insert w _ _).solvers⟩, now.2.insert held rfl⟩
  advances := by
    intro _ w position c l solver _ _ held now
    exact ⟨now.1.keep ⟨.refl _, (Direct.Safe.keeps_insert w _ _).solvers⟩, now.2.insert held rfl⟩
  leaves _ _ _ now := now

end World

/-- The commands that are about to run are among these and are served, solvers are held under their names, and the
solver loops ahead are idle. -/
structure Moment.Fit (commands : List Command) (m : Moment) : Prop where
  inside : m.program.commands ⊆ commands
  serves : m.world.Serves commands
  named : m.world.Named
  idle : m.program.Idle m.world.results m.position

namespace Moment

variable {t : Terms} {commands : List Command} {m n : Moment}

theorem Fit.lead (fit : m.Fit commands) (leads : m.Leads t n) : n.Fit commands := by
  obtain ⟨inside, serves, named, idle⟩ := fit
  have inv := World.serving (t := t) commands
  cases leads with
  | @after position first rest w next ran =>
      rw [Program.commands_append] at inside
      have kept := inv.run first position (.of_forall fun _ _ => trivial) [] w ⟨serves, named⟩
      obtain ⟨-, ahead⟩ := Program.idle_append.mp idle
      have still := rest.keeps_beside (t := t) first (.inr (Nat.le_refl _)) w ahead
      rw [ran] at kept still
      exact ⟨(List.append_subset.mp inside).2, kept.1, kept.2, still⟩
  | script =>
      obtain ⟨ofBody, -⟩ := List.append_subset.mp (List.cons_subset.mp inside).2
      exact ⟨ofBody, serves, named, idle.1⟩
  | @block position opener closer body next w begun ends begins =>
      obtain ⟨ofBody, -⟩ := List.append_subset.mp (List.cons_subset.mp inside).2
      obtain ⟨_, kept⟩ := inv.bodyBegins position [] trivial
        (fun active => inv.ended active (inv.run body _ (.of_forall fun _ _ => trivial) active)) begins ⟨serves, named⟩
      have ahead := body.inside (t := t) (position + 1)
      obtain ⟨_, still⟩ := ahead.bodyBegins position []
        (CommandKind.isPlain_of_branchEnds ends) (fun _ => ahead.ended [] (body.keeps_idle _)) begins
        idle.2.1
      exact ⟨ofBody, kept.1, kept.2, still⟩
  | first goes =>
      obtain ⟨ofFirst, -⟩ := List.append_subset.mp (List.cons_subset.mp inside).2
      obtain rfl := Direct.eq_of_test goes
      exact ⟨ofFirst, serves, named, idle.1⟩
  | second goes =>
      obtain ⟨-, rest⟩ := List.append_subset.mp (List.cons_subset.mp inside).2
      obtain ⟨ofSecond, -⟩ := List.append_subset.mp (List.cons_subset.mp rest).2
      obtain rfl := Direct.eq_of_test goes
      exact ⟨ofSecond, serves, named, idle.2.1⟩

end Moment

end MissionScript
