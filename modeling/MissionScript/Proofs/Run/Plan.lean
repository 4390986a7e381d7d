import MissionScript.Proofs.Mission.Program
import MissionScript.Proofs.Sequence.ScriptBlock
import MissionScript.Run.Plan

/-!
# The plan of a program

Following the links of a drawn program finds its blocks again: script blocks by the scan for their end,
branches by the links into them.
-/

namespace MissionScript

namespace Layout

/-- The handles on the chain of a layout, without what is in branches. -/
def chain (base : Nat) : Layout → List Handle
  | done => []
  | step _ first second next =>
    .ofIndex base :: next.chain (base + 1 + first.size + second.size)

theorem chain_append (base : Nat) (l more : Layout) :
    (l ++ more).chain base = l.chain base ++ more.chain (base + l.size) := by
  induction l generalizing base with
  | done => rfl
  | step command first second next _ _ ih =>
      rw [step_append, chain, chain, ih, size_step, List.cons_append]
      congr 3
      omega

end Layout

namespace Program

/-- The plan of a program from index `base` on, with the plan of what is behind it. -/
def planAt (rest : Plan) : (base : Nat) → Program → Plan
  | _, done => rest
  | base, plain _ _ next => .step (.ofIndex base) .done .done (next.planAt rest (base + 1))
  | base, script _ _ body _ _ next =>
    .script (.ofIndex base) (body.planAt .done (base + 1))
      (next.planAt rest (base + 1 + (body.layout.size + 1)))
  | base, block _ body _ _ next =>
    let close := base + 1 + body.layout.size
    .step (.ofIndex base) (body.planAt (.step (.ofIndex close) .done .done .done) (base + 1)) .done
      (next.planAt rest (close + 1))
  | base, choice _ _ first _ _ second _ _ next =>
    let turn := base + 1 + first.layout.size
    let close := turn + 1 + second.layout.size
    .step (.ofIndex base) (first.planAt (.step (.ofIndex turn) .done .done .done) (base + 1))
      (second.planAt (.step (.ofIndex close) .done .done .done) (turn + 1))
      (next.planAt rest (close + 1))

end Program

namespace Arena

variable {a : Arena} {l more : Layout} {base limit : Nat} {previous stop : Option Handle}

theorem command?_of_drawn {command : Command} {first second next : Layout}
    (drawn : a.Drawn stop base previous (.step command first second next)) :
    a.command? (.ofIndex base) = some command := by
  rw [command?, drawn.node?_ofIndex]
  rfl

theorem kind?_of_drawn {command : Command} {first second next : Layout}
    (drawn : a.Drawn stop base previous (.step command first second next)) :
    a.kind? (.ofIndex base) = some command.kind := by
  rw [kind?, command?_of_drawn drawn]
  rfl

theorem Drawn.follow_eq (drawn : a.Drawn none base previous l) (enough : l.size ≤ limit) :
    follow a.next? limit (l.start base none) = l.chain base := by
  induction l generalizing base previous limit with
  | done => cases limit <;> rfl
  | step command first second next _ _ ih =>
      have link := drawn.next?_ofIndex
      obtain ⟨-, -, -, -, behind⟩ := drawn
      rw [Layout.size_step] at enough
      cases limit with
      | zero => omega
      | succ limit =>
          rw [Layout.start_of_ne (by simp), follow, link, Layout.chain, ih behind (by omega)]

/-- What is behind the first command of a layout. -/
theorem Drawn.behind {command : Command} {first second next : Layout}
    (drawn : a.Drawn stop base previous (.step command first second next)) :
    a.Drawn stop (base + 1 + first.size + second.size) (some (.ofIndex base)) next :=
  drawn.2.2.2.2

/-- What is behind a command without branches. -/
theorem Drawn.after {command : Command} {next : Layout}
    (drawn : a.Drawn stop base previous (.step command .done .done next)) :
    a.Drawn stop (base + 1) (some (.ofIndex base)) next :=
  drawn.behind

/-- What is behind the first part of a layout. -/
theorem Drawn.exists_of_append (drawn : a.Drawn none base previous (l ++ more)) :
    ∃ previous, a.Drawn none (base + l.size) previous more := by
  cases l with
  | done => exact ⟨previous, drawn⟩
  | step command first second next =>
      have rest := (Drawn.append_iff (p := .after (.ofIndex base))).mp drawn.behind
      have sizes : base + (Layout.step command first second next).size =
          base + 1 + first.size + second.size + next.size := by
        rw [Layout.size_step]
        omega
      rw [sizes]
      exact ⟨_, rest.2⟩

/-! ## Script blocks -/

/-- The scan for the end of a script block goes through whole programs. -/
theorem closingScript_program (program : Program)
    (drawn : a.Drawn none base previous (program.layout ++ more)) {depth : Nat} (open' : 1 ≤ depth)
    (rest : List Handle) :
    closingScript a.kind? depth (program.layout.chain base ++ rest) =
      closingScript a.kind? depth rest := by
  induction program generalizing base previous more depth rest with
  | done => rfl
  | plain c isPlain next ih =>
      have kind := kind?_of_drawn drawn
      obtain ⟨noBegin, noEnd⟩ := CommandKind.ne_script_of_isPlain isPlain
      exact (closingScript_other kind noBegin noEnd).trans (ih drawn.behind open' rest)
  | script opener opens body closer closes next bodyIH nextIH =>
      have kind := kind?_of_drawn drawn
      rw [opens] at kind
      have inside : a.Drawn none (base + 1) (some (.ofIndex base))
          ((body.layout ++ .step closer .done .done next.layout) ++ more) := drawn.behind
      rw [Layout.append_assoc, Layout.step_append] at inside
      obtain ⟨_, ending⟩ := inside.exists_of_append
      have endKind := kind?_of_drawn ending
      rw [closes] at endKind
      have chain : (Program.script opener opens body closer closes next).layout.chain base ++ rest =
          .ofIndex base :: (body.layout.chain (base + 1) ++ .ofIndex (base + 1 + body.layout.size) ::
            (next.layout.chain (base + 1 + body.layout.size + 1) ++ rest)) := by
        rw [Program.layout, Layout.chain, Layout.chain_append, Layout.chain]
        simp
      rw [chain, closingScript_begin kind, bodyIH inside (by omega), closingScript_end endKind,
        if_neg (by omega), Nat.add_sub_cancel]
      exact nextIH ending.behind open' rest
  | block opener body closer ends next bodyIH nextIH =>
      have kind := kind?_of_drawn drawn
      obtain ⟨noBegin, noEnd⟩ := CommandKind.ne_script_of_ownsBranches
        (CommandKind.ownsBranches_of_branchEnds ends)
      exact (closingScript_other kind noBegin noEnd).trans (nextIH drawn.behind open' rest)
  | choice opener opens first alternative turns second closer closes next firstIH secondIH nextIH =>
      have kind := kind?_of_drawn drawn
      rw [opens] at kind
      exact (closingScript_other kind (by simp) (by simp)).trans (nextIH drawn.behind open' rest)

/-- A script block ends where its program says. -/
theorem matchingEnd_script {opener closer : Command} {body : Program}
    (drawn : a.Drawn none base previous
      (.step opener .done .done (body.layout ++ .step closer .done .done more)))
    (opens : opener.kind = .beginScript) (closes : closer.kind = .endScript)
    (enough : (Layout.step opener .done .done
      (body.layout ++ .step closer .done .done more)).size ≤ a.linkLimit) :
    a.matchingEnd (.ofIndex base) = some (.ofIndex (base + 1 + body.layout.size)) := by
  have kind := kind?_of_drawn drawn
  have behind : a.Drawn none (base + 1) (some (.ofIndex base))
      (body.layout ++ .step closer .done .done more) := drawn.behind
  obtain ⟨_, ending⟩ := behind.exists_of_append
  have endKind := kind?_of_drawn ending
  rw [opens] at kind
  rw [closes] at endKind
  have chain : a.chain (some (.ofIndex base)) = .ofIndex base :: (body.layout.chain (base + 1) ++
      .ofIndex (base + 1 + body.layout.size) ::
        more.chain (base + 1 + body.layout.size + 1)) := by
    have followed := drawn.follow_eq enough
    rw [Layout.start_of_ne (by simp), Layout.chain, Layout.chain_append] at followed
    exact followed
  rw [matchingEnd, command?_of_drawn drawn]
  simp only [opens, if_true, chain]
  rw [closingScript_begin kind, closingScript_program body behind (Nat.le_refl _),
    closingScript_end endKind, if_pos (by omega)]

/-! ## Plans -/

theorem planFrom_none : a.planFrom limit stop none = .done := by
  cases limit <;> rfl

theorem planFrom_stop : a.planFrom limit stop stop = .done := by
  cases limit with
  | zero => cases stop <;> rfl
  | succ limit =>
      cases stop with
      | none => rfl
      | some h => simp [planFrom]

/-- What is planned from the first command of a layout on, if `needed` links may be followed. -/
def Plans (a : Arena) (stop : Option Handle) (base : Nat) (l : Layout) (needed : Nat)
    (plan : Plan) : Prop :=
  ∀ limit, needed ≤ limit → a.planFrom limit stop (l.start base none) = plan

theorem plans_done : a.Plans stop base .done 0 .done := fun _ _ => planFrom_none

/-- A command that is no script block, with what is planned in its branches and behind it. -/
theorem Plans.step {command : Command} {first second next : Layout}
    (drawn : a.Drawn none base previous (.step command first second next))
    (noScript : command.kind ≠ .beginScript) (away : stop ≠ some (.ofIndex base))
    {inFirst inSecond behind : Plan} {needed : Nat}
    (plansFirst : a.Plans none (base + 1) first needed inFirst)
    (plansSecond : a.Plans none (base + 1 + first.size) second needed inSecond)
    (plansNext : a.Plans stop (base + 1 + first.size + second.size) next needed behind) :
    a.Plans stop base (.step command first second next) (needed + 1)
      (.step (.ofIndex base) inFirst inSecond behind) := by
  intro limit enough
  have node := drawn.node?_ofIndex
  cases limit with
  | zero => cases enough
  | succ limit =>
      have enough' := Nat.le_of_succ_le_succ enough
      simp only [Layout.start_of_ne (l := .step command first second next) (by simp), planFrom,
        Ne.symm away, if_false, node, Layout.node, noScript, drawn.child?_ofIndex,
        Layout.branch]
      rw [plansFirst limit enough', plansSecond limit enough', plansNext limit enough']

/-- A script block, with what is planned up to its end and behind it. -/
theorem Plans.script {opener closer : Command} {body : Program}
    (drawn : a.Drawn none base previous
      (.step opener .done .done (body.layout ++ .step closer .done .done more)))
    (opens : opener.kind = .beginScript) (closes : closer.kind = .endScript)
    (inside : base + (Layout.step opener .done .done
      (body.layout ++ .step closer .done .done more)).size ≤ a.slots.size)
    (away : stop ≠ some (.ofIndex base)) {inBody behind : Plan} {needed : Nat}
    (plansBody : a.Plans (some (.ofIndex (base + 1 + body.layout.size))) (base + 1)
      (body.layout ++ .step closer .done .done more) needed inBody)
    (plansNext : a.Plans stop (base + 1 + body.layout.size + 1) more needed behind) :
    a.Plans stop base (.step opener .done .done (body.layout ++ .step closer .done .done more))
      (needed + 1) (.script (.ofIndex base) inBody behind) := by
  intro limit enough
  have node := drawn.node?_ofIndex
  have wide : a.slots.size ≤ a.linkLimit :=
    Nat.le_trans (Nat.le_succ _) (Nat.le_mul_of_pos_left _ (Nat.succ_pos _))
  have close := matchingEnd_script drawn opens closes (by omega)
  have after : a.next? (.ofIndex (base + 1 + body.layout.size)) =
      more.start (base + 1 + body.layout.size + 1) none := by
    obtain ⟨_, ending⟩ := drawn.behind.exists_of_append
    exact ending.next?_ofIndex
  cases limit with
  | zero => cases enough
  | succ limit =>
      have enough' := Nat.le_of_succ_le_succ enough
      rw [Layout.start_of_ne (by simp)]
      simp only [planFrom, Ne.symm away, if_false, node, Layout.node, opens, if_true, close, after]
      rw [plansNext limit enough']
      exact congrArg (Plan.script _ · behind) (plansBody limit enough')

theorem Plans.mono {needed n : Nat} {plan : Plan} (plans : a.Plans stop base l needed plan)
    (le : needed ≤ n) : a.Plans stop base l n plan :=
  fun limit enough => plans limit (Nat.le_trans le enough)

/-- The command that ends a branch is planned alone. -/
theorem Plans.ending {command : Command}
    (drawn : a.Drawn none base previous (.step command .done .done .done))
    (noScript : command.kind ≠ .beginScript) :
    a.Plans none base (.step command .done .done .done) 1 (.step (.ofIndex base) .done .done .done) :=
  .step drawn noScript (by simp) plans_done plans_done plans_done

/-- A program can be planned wherever it is drawn: as it is written, up to what is planned behind. -/
def Planned (a : Arena) (program : Program) : Prop :=
  ∀ {more : Layout} {base : Nat} {previous stop : Option Handle} {rest : Plan} {needed : Nat},
    a.Drawn none base previous (program.layout ++ more) →
    base + (program.layout ++ more).size ≤ a.slots.size →
    (∀ index, base ≤ index → index < base + program.layout.size → stop ≠ some (.ofIndex index)) →
    a.Plans stop (base + program.layout.size) more needed rest →
    a.Plans stop base (program.layout ++ more) (program.layout.size + needed)
      (program.planAt rest base)

namespace Planned

variable {c opener closer : Command} {body next : Program}

theorem plain (isPlain : c.kind.isPlain) (planned : a.Planned next) :
    a.Planned (.plain c isPlain next) := by
  intro more base previous stop rest needed drawn inside away behind
  have noScript := (CommandKind.ne_script_of_isPlain isPlain).1
  have after : base + (next.layout.size + 1) = base + 1 + next.layout.size := by omega
  rw [Layout.size_append, Program.size_layout_plain] at inside
  rw [Program.size_layout_plain, after] at behind away
  have onward := planned drawn.after (by rw [Layout.size_append]; omega)
    (fun index low high => away index (by omega) high) behind
  refine (Plans.step drawn noScript (away base (by omega) (by omega))
    (plans_done.mono (Nat.zero_le _)) (plans_done.mono (Nat.zero_le _)) onward).mono ?_
  rw [Program.size_layout_plain]
  omega

theorem script (opens : opener.kind = .beginScript) (closes : closer.kind = .endScript)
    (plannedBody : a.Planned body) (plannedNext : a.Planned next) :
    a.Planned (.script opener opens body closer closes next) := by
  intro more base previous stop rest needed drawn inside away behind
  have after : base + (body.layout.size + (next.layout.size + 2)) =
      base + 1 + body.layout.size + 1 + next.layout.size := by omega
  rw [Layout.size_append, Program.size_layout_script] at inside
  rw [Program.size_layout_script, after] at behind away
  rw [Program.layout_script_append] at drawn ⊢
  obtain ⟨_, ending⟩ := drawn.after.exists_of_append
  have stopped : a.Plans (some (.ofIndex (base + 1 + body.layout.size)))
      (base + 1 + body.layout.size) (.step closer .done .done (next.layout ++ more)) 0 .done :=
    fun limit _ => planFrom_stop
  have inBody := plannedBody drawn.after
    (by simp only [Layout.size_append, Layout.size_step, Layout.size_done]; omega)
    (fun index _ high => by
      rw [ne_eq, Option.some.injEq, Handle.ofIndex_inj]
      omega) stopped
  have onward := plannedNext ending.after (by rw [Layout.size_append]; omega)
    (fun index low high => away index (by omega) high) behind
  refine (Plans.script drawn opens closes
    (by simp only [Layout.size_append, Layout.size_step, Layout.size_done]; omega)
    (away base (by omega) (by omega))
    (inBody.mono (n := body.layout.size + next.layout.size + needed) (by omega))
    (onward.mono (by omega))).mono ?_
  rw [Program.size_layout_script]
  omega

/-- A branch with the command that ends it. -/
theorem ended (planned : a.Planned body)
    (drawn : a.Drawn none base previous (body.layout ++ .step closer .done .done .done))
    (inside : base + (body.layout.size + 1) ≤ a.slots.size)
    (noScript : closer.kind ≠ .beginScript) :
    a.Plans none base (body.layout ++ .step closer .done .done .done) (body.layout.size + 1)
      (body.planAt (.step (.ofIndex (base + body.layout.size)) .done .done .done) base) := by
  obtain ⟨_, ending⟩ := drawn.exists_of_append
  exact planned drawn (by rw [Layout.size_append]; exact inside) (fun _ _ _ => by simp)
    (.ending ending noScript)

theorem block (ends : (opener.kind, closer.kind) ∈ CommandKind.branchEnds)
    (plannedBody : a.Planned body) (plannedNext : a.Planned next) :
    a.Planned (.block opener body closer ends next) := by
  intro more base previous stop rest needed drawn inside away behind
  have noScript :=
    (CommandKind.ne_script_of_ownsBranches (CommandKind.ownsBranches_of_branchEnds ends)).1
  have noScriptEnd :=
    CommandKind.ne_beginScript_of_endsBranch (CommandKind.endsBranch_of_branchEnds ends)
  have after : base + (body.layout.size + (next.layout.size + 2)) =
      base + 1 + body.layout.size + 1 + next.layout.size := by omega
  rw [Layout.size_append, Program.size_layout_block] at inside
  rw [Program.size_layout_block, after] at behind away
  have inBody := plannedBody.ended drawn.2.2.1 (by omega) noScriptEnd
  have behindDrawn := drawn.behind
  rw [Layout.size_ended] at behindDrawn
  have onward := plannedNext behindDrawn (by rw [Layout.size_append, Layout.size_done]; omega)
    (fun index low high => away index (by omega) (by rw [Layout.size_done] at high; omega)) behind
  refine (Plans.step drawn noScript (away base (by omega) (by omega))
    (inBody.mono (n := body.layout.size + next.layout.size + 1 + needed) (by omega))
    (plans_done.mono (Nat.zero_le _)) ?_).mono (by rw [Program.size_layout_block]; omega)
  rw [Layout.size_ended]
  exact onward.mono (by omega)

theorem choice {first second : Program} {alternative : Command} (opens : opener.kind = .ifThen)
    (turns : alternative.kind = .otherwise) (closes : closer.kind = .endIf)
    (plannedFirst : a.Planned first) (plannedSecond : a.Planned second)
    (plannedNext : a.Planned next) :
    a.Planned (.choice opener opens first alternative turns second closer closes next) := by
  intro more base previous stop rest needed drawn inside away behind
  have after : base + (first.layout.size + (second.layout.size + (next.layout.size + 3))) =
      base + 1 + first.layout.size + 1 + second.layout.size + 1 + next.layout.size := by omega
  rw [Layout.size_append, Program.size_layout_choice] at inside
  rw [Program.size_layout_choice, after] at behind away
  have inFirst := plannedFirst.ended drawn.2.2.1 (by omega) (by rw [turns]; simp)
  have drawnSecond := drawn.2.2.2.1
  have drawnBehind := drawn.behind
  rw [Layout.size_ended] at drawnSecond
  rw [Layout.size_ended, Layout.size_ended] at drawnBehind
  have inSecond := plannedSecond.ended drawnSecond (by omega) (by rw [closes]; simp)
  have onward := plannedNext drawnBehind (by rw [Layout.size_append]; omega)
    (fun index low high => away index (by omega) (by omega)) behind
  refine (Plans.step drawn (by rw [opens]; simp) (away base (by omega) (by omega))
    (inFirst.mono
      (n := first.layout.size + second.layout.size + next.layout.size + 2 + needed) (by omega))
    ?_ ?_).mono (by rw [Program.size_layout_choice]; omega)
  · rw [Layout.size_ended]
    exact inSecond.mono (by omega)
  · rw [Layout.size_ended, Layout.size_ended]
    exact onward.mono (by omega)

end Planned

/-- Every program can be planned. -/
theorem planned (program : Program) : a.Planned program := by
  induction program with
  | done => exact fun _ _ _ behind => behind.mono (by simp [Program.layout])
  | plain c isPlain next ih => exact ih.plain isPlain
  | script opener opens body closer closes next bodyIH nextIH =>
      exact Planned.script opens closes bodyIH nextIH
  | block opener body closer ends next bodyIH nextIH => exact Planned.block ends bodyIH nextIH
  | choice opener opens first alternative turns second closer closes next firstIH secondIH nextIH =>
      exact Planned.choice opens turns closes firstIH secondIH nextIH

/-! ## Plans and commands -/

section

variable {b : Arena} {f : Handle → Command → Command}
  (nodes : ∀ h, b.node? h = (a.node? h).map fun node => { node with command := f h node.command })
  (kinds : ∀ h c, (f h c).kind = c.kind)

include nodes kinds

theorem kind?_congr (h : Handle) : b.kind? h = a.kind? h := by
  rw [kind?, kind?, command?, command?, nodes]
  cases a.node? h with
  | none => rfl
  | some node => exact congrArg some (kinds h node.command)

/-- A plan looks at links and kinds only. -/
theorem planFrom_congr (size : b.slots.size = a.slots.size) (limit : Nat)
    (stop start : Option Handle) : b.planFrom limit stop start = a.planFrom limit stop start := by
  have closing (h : Handle) : closingScript b.kind? 0 (b.chain (some h)) =
      closingScript a.kind? 0 (a.chain (some h)) := by
    rw [chain, chain, linkLimit, linkLimit, size, funext (next?_congr nodes),
      funext (kind?_congr nodes kinds)]
  induction limit generalizing stop start with
  | zero => cases start <;> rfl
  | succ limit ih =>
      cases start with
      | none => rfl
      | some h =>
          rw [planFrom, planFrom, nodes, child?_congr nodes, child?_congr nodes]
          cases found : a.node? h with
          | none => rfl
          | some node =>
              have ends (script : node.command.kind = .beginScript) :
                  b.matchingEnd h = a.matchingEnd h := by
                rw [matchingEnd, matchingEnd, command?, command?, nodes, found]
                simp only [Option.map_some, kinds, script, if_true]
                exact closing h
              simp only [Option.map_some, kinds, ih]
              by_cases script : node.command.kind = .beginScript
              · simp only [script, if_true, ends script, next?_congr nodes]
              · simp only [script, if_false]

theorem plan_congr (size : b.slots.size = a.slots.size) (head : Handle) :
    b.plan head = a.plan head := by
  rw [plan, plan, size, next?_congr nodes, planFrom_congr nodes kinds size]

end

/-- A program behind the head of a whole arena is planned however many links may be followed, if they
are enough for its commands. -/
theorem plans_program {head : Command} (program : Program)
    (drawn : a.Drawn none 0 none (.step head .done .done program.layout))
    (full : a.slots.size = program.layout.size + 1) :
    a.Plans none 1 program.layout program.layout.size (program.planAt .done 1) := by
  have whole : a.Plans none 1 (program.layout ++ .done) (program.layout.size + 0)
      (program.planAt .done 1) :=
    planned program (by rw [Layout.append_done]; exact drawn.after)
      (by rw [Layout.append_done]; omega) (fun _ _ _ => by simp) plans_done
  rwa [Layout.append_done] at whole

/-- The plan of a whole arena that draws a program behind its head. -/
theorem plan_eq {head : Command} (program : Program)
    (drawn : a.Drawn none 0 none (.step head .done .done program.layout))
    (full : a.slots.size = program.layout.size + 1) :
    a.plan (.ofIndex 0) = program.planAt .done 1 := by
  rw [plan, drawn.next?_ofIndex]
  exact plans_program program drawn full _ (by omega)

end Arena

end MissionScript
