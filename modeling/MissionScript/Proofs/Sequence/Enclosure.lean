import MissionScript.Proofs.Run.Plan

/-!
# Ends of blocks

The links of a sequence do not say which command ends a block. It is found by a scan: along the chain
for a script block, through the branches for a command that owns some. In the arena of a program the
scan finds the end that the program has for the block.
-/

namespace MissionScript

namespace Program

/-- The blocks of a program whose first command has index `base`: what opens them and what ends them. -/
def blocks : (base : Nat) → Program → List (Handle × Handle)
  | _, done => []
  | base, plain _ _ next => next.blocks (base + 1)
  | base, script _ _ body _ _ next | base, block _ body _ _ next =>
    let close := base + 1 + body.layout.size
    (.ofIndex base, .ofIndex close) :: (body.blocks (base + 1) ++ next.blocks (close + 1))
  | base, choice _ _ first _ _ second _ _ next =>
    let turn := base + 1 + first.layout.size
    let close := turn + 1 + second.layout.size
    (.ofIndex base, .ofIndex close) ::
      (first.blocks (base + 1) ++ (second.blocks (turn + 1) ++ next.blocks (close + 1)))

end Program

namespace Layout

theorem chain_ended (l : Layout) (base : Nat) (closer : Command) :
    (l ++ .step closer .done .done .done).chain base = l.chain base ++ [.ofIndex (base + l.size)] := by
  rw [chain_append]
  rfl

end Layout

namespace Arena

variable {a : Arena} {base : Nat} {previous : Option Handle} {more first second next : Layout}
  {opener closer : Command} {h : Handle} {rest : List Handle}

/-- Branches are ended by commands of the right kinds only, and not by others that have the name. -/
def EndsByKind (a : Arena) : Prop :=
  ∀ h c, a.command? h = some c → c.isBranchEnd = c.kind.endsBranch

/-- Where the block of one command is ended by another one, as the links tell. -/
structure Encloses (a : Arena) (opener closer : Handle) : Prop where
  matching : a.matchingEnd opener = some closer
  /-- The end is of the kind that the opener asks for. -/
  kind : ∃ kind, a.kind? closer = some kind ∧ (a.kind? opener).bind (·.terminator?) = some kind
  /-- A script block ends on its own chain, -/
  script : a.kind? opener = some .beginScript → closer ∈ a.chain (some opener)
  /-- any other block with the last command of its last branch. -/
  branch : (a.kind? opener).any (·.ownsBranches) →
    ∃ node head, a.node? opener = some node ∧ node.branches.getLast? = some (some head) ∧
      a.last head = closer

/-! ## Branches -/

section

variable {c : Command}

theorem branchEnd?_skip (found : a.command? h = some c) (goesOn : c.isBranchEnd = false) :
    a.branchEnd? (h :: rest) = a.branchEnd? rest := by
  rw [branchEnd?, found]
  simp only [goesOn, Bool.false_eq_true, if_false]

theorem branchEnd?_stop (found : a.command? h = some c) (ends : c.isBranchEnd = true) :
    a.branchEnd? (h :: rest) = some (h, c.kind) := by
  rw [branchEnd?, found]
  simp only [ends, if_true]

end

/-- The scan for the end of a branch goes through whole programs. -/
theorem branchEnd?_program (ends : a.EndsByKind) (program : Program)
    (drawn : a.Drawn none base previous (program.layout ++ more)) (rest : List Handle) :
    a.branchEnd? (program.layout.chain base ++ rest) = a.branchEnd? rest := by
  have skip {base : Nat} {previous : Option Handle} {c : Command} {first second next : Layout}
      (drawn : a.Drawn none base previous (.step c first second next))
      (inner : c.kind.endsBranch = false) (rest : List Handle) :
      a.branchEnd? (.ofIndex base :: rest) = a.branchEnd? rest := by
    have found := command?_of_drawn drawn
    exact branchEnd?_skip found ((ends _ _ found).trans inner)
  induction program generalizing base previous more rest with
  | done => rfl
  | plain c isPlain next ih =>
      exact (skip drawn (CommandKind.endsBranch_of_isPlain isPlain) _).trans (ih drawn.behind rest)
  | script opener opens body closer closes next bodyIH nextIH =>
      rw [Program.layout_script_append] at drawn
      obtain ⟨_, ending⟩ := drawn.after.exists_of_append
      have chain : (Program.script opener opens body closer closes next).layout.chain base ++ rest =
          .ofIndex base :: (body.layout.chain (base + 1) ++ .ofIndex (base + 1 + body.layout.size) ::
            (next.layout.chain (base + 1 + body.layout.size + 1) ++ rest)) := by
        simp only [Program.layout, Layout.chain, Layout.chain_append, Layout.size_done, Nat.add_zero,
          List.cons_append, List.append_assoc]
      rw [chain, skip drawn (by rw [opens]; rfl), bodyIH drawn.after,
        skip ending (by rw [closes]; rfl)]
      exact nextIH ending.after rest
  | block opener body closer closes next bodyIH nextIH =>
      have owns := CommandKind.ownsBranches_of_branchEnds closes
      exact (skip drawn (CommandKind.endsBranch_of_ownsBranches owns) _).trans
        (nextIH drawn.behind rest)
  | choice opener opens first alternative turns second closer closes next firstIH secondIH nextIH =>
      exact (skip drawn (by rw [opens]; rfl) _).trans (nextIH drawn.behind rest)

/-- A branch: a program and the command that ends it. -/
structure Branch (a : Arena) (base : Nat) (l : Layout) (close : Handle) (kind : CommandKind) :
    Prop where
  start : l.start base none = some (.ofIndex base)
  found : a.branchEnd? (a.chain (some (.ofIndex base))) = some (close, kind)
  last : a.last (.ofIndex base) = close
  kind : a.kind? close = some kind

theorem Drawn.branch {body : Program} (ends : a.EndsByKind)
    (drawn : a.Drawn none base previous (body.layout ++ .step closer .done .done .done))
    (enough : body.layout.size < a.linkLimit) (closes : closer.kind.endsBranch) :
    a.Branch base (body.layout ++ .step closer .done .done .done)
      (.ofIndex (base + body.layout.size)) closer.kind := by
  obtain ⟨_, ending⟩ := drawn.exists_of_append
  have found := command?_of_drawn ending
  have start := Layout.start_ended body.layout base closer
  have chain : a.chain (some (.ofIndex base)) =
      body.layout.chain base ++ [.ofIndex (base + body.layout.size)] := by
    have inside : (body.layout ++ .step closer .done .done .done).size ≤ a.linkLimit := by
      rw [Layout.size_ended]
      exact enough
    have followed := drawn.follow_eq inside
    rw [start, Layout.chain_ended] at followed
    exact followed
  refine ⟨start, ?_, ?_, kind?_of_drawn ending⟩
  · rw [chain, branchEnd?_program ends body drawn]
    exact branchEnd?_stop found ((ends _ _ found).trans closes)
  · rw [last, chain, List.getLastD_concat]

/-! ## Blocks -/

variable {body : Program}

theorem Encloses.ofScript
    (drawn : a.Drawn none base previous
      (.step opener .done .done (body.layout ++ .step closer .done .done more)))
    (opens : opener.kind = .beginScript) (closes : closer.kind = .endScript)
    (enough : (Layout.step opener .done .done
      (body.layout ++ .step closer .done .done more)).size ≤ a.linkLimit) :
    a.Encloses (.ofIndex base) (.ofIndex (base + 1 + body.layout.size)) := by
  obtain ⟨_, ending⟩ := drawn.after.exists_of_append
  have openKind := kind?_of_drawn drawn
  have endKind := kind?_of_drawn ending
  rw [opens] at openKind
  rw [closes] at endKind
  refine ⟨matchingEnd_script drawn opens closes enough, ⟨.endScript, endKind, ?_⟩, fun _ => ?_, ?_⟩
  · rw [openKind]
    rfl
  · have chain := drawn.follow_eq enough
    rw [Layout.start_of_ne (by simp)] at chain
    rw [Arena.chain, chain, Layout.chain, Layout.chain_append, Layout.chain]
    simp
  · rw [openKind]
    intro owns
    cases owns

/-- A command with one branch. -/
theorem Encloses.ofBlock (ends : a.EndsByKind)
    (drawn : a.Drawn none base previous
      (.step opener (body.layout ++ .step closer .done .done .done) .done next))
    (closes : (opener.kind, closer.kind) ∈ CommandKind.branchEnds)
    (enough : body.layout.size < a.linkLimit) :
    a.Encloses (.ofIndex base) (.ofIndex (base + 1 + body.layout.size)) := by
  have owns := CommandKind.ownsBranches_of_branchEnds closes
  have openKind := kind?_of_drawn drawn
  have inside : a.Branch (base + 1) _ _ _ :=
    Drawn.branch ends drawn.2.2.1 enough (CommandKind.endsBranch_of_branchEnds closes)
  have noScript := (CommandKind.ne_script_of_ownsBranches owns).1
  refine ⟨?_, ⟨_, inside.kind, ?_⟩, fun script => ?_, fun _ => ?_⟩
  · rw [matchingEnd, command?_of_drawn drawn]
    simp only [noScript, if_false, owns, if_true, closingBranch, drawn.child?_ofIndex, Layout.branch,
      inside.start, inside.found]
    cases kind : closer.kind <;> simp_all [CommandKind.branchEnds]
  · rw [openKind]
    exact CommandKind.terminator?_of_branchEnds closes
  · rw [openKind] at script
    exact absurd (Option.some.inj script) noScript
  · refine ⟨_, .ofIndex (base + 1), drawn.node?_ofIndex, ?_, inside.last⟩
    rw [Layout.node, Layout.heads, if_pos owns, inside.start]
    rfl

/-- An `If` with two branches. -/
theorem Encloses.ofChoice {inFirst inSecond : Program} {alternative : Command} (ends : a.EndsByKind)
    (drawn : a.Drawn none base previous
      (.step opener (inFirst.layout ++ .step alternative .done .done .done)
        (inSecond.layout ++ .step closer .done .done .done) next))
    (opens : opener.kind = .ifThen) (turns : alternative.kind = .otherwise)
    (closes : closer.kind = .endIf) (enoughFirst : inFirst.layout.size < a.linkLimit)
    (enoughSecond : inSecond.layout.size < a.linkLimit) :
    a.Encloses (.ofIndex base)
      (.ofIndex (base + 1 + inFirst.layout.size + 1 + inSecond.layout.size)) := by
  have innerFirst := Layout.size_ended inFirst.layout alternative
  have drawnSecond := drawn.2.2.2.1
  have openKind := kind?_of_drawn drawn
  have child := drawn.child?_ofIndex
  rw [opens] at openKind
  have ofFirst : a.Branch (base + 1) _ _ _ :=
    Drawn.branch ends drawn.2.2.1 enoughFirst (by rw [turns]; rfl)
  have ofSecond : a.Branch _ _ _ _ := Drawn.branch ends drawnSecond enoughSecond (by rw [closes]; rfl)
  rw [innerFirst] at ofSecond
  have foundFirst := ofFirst.found
  have foundSecond := ofSecond.found
  have endKind := ofSecond.kind
  rw [turns] at foundFirst
  rw [closes] at foundSecond endKind
  refine ⟨?_, ⟨.endIf, endKind, ?_⟩, fun script => ?_, fun _ => ?_⟩
  · rw [matchingEnd, command?_of_drawn drawn]
    simp only [opens, reduceCtorEq, if_false, CommandKind.ownsBranches, if_true, closingBranch, child,
      Layout.branch, innerFirst, ofFirst.start, foundFirst, ofSecond.start]
    rw [foundSecond]
    rfl
  · rw [openKind]
    rfl
  · rw [openKind] at script
    cases script
  · refine ⟨_, _, drawn.node?_ofIndex, ?_, ofSecond.last⟩
    simp only [Layout.node, Layout.heads, opens, CommandKind.ownsBranches, if_true, innerFirst,
      ofSecond.start]
    rfl

section

variable {index turn : Nat} {close : Handle} {left right : List (Handle × Handle)}

/-- A block that is the first one, or one of the others. -/
theorem exists_mem_blocks_cons
    (others : index ≠ base → ∃ close, (Handle.ofIndex index, close) ∈ right) :
    ∃ other, (Handle.ofIndex index, other) ∈ (Handle.ofIndex base, close) :: right := by
  by_cases first : index = base
  · exact ⟨close, by rw [first]; exact List.mem_cons_self⟩
  · obtain ⟨other, member⟩ := others first
    exact ⟨other, List.mem_cons_of_mem _ member⟩

/-- A block on one side of a command that opens none. -/
theorem exists_mem_blocks_append (elsewhere : index ≠ turn)
    (before : index < turn → ∃ close, (Handle.ofIndex index, close) ∈ left)
    (behind : turn < index → ∃ close, (Handle.ofIndex index, close) ∈ right) :
    ∃ close, (Handle.ofIndex index, close) ∈ left ++ right := by
  rcases Nat.lt_or_gt_of_ne elsewhere with low | high
  · obtain ⟨close, member⟩ := before low
    exact ⟨close, List.mem_append_left _ member⟩
  · obtain ⟨close, member⟩ := behind high
    exact ⟨close, List.mem_append_right _ member⟩

end

/-- Every command of a program that opens a block has one. -/
theorem exists_mem_blocks (program : Program)
    (drawn : a.Drawn none base previous (program.layout ++ more)) {index : Nat}
    {kind : CommandKind} (low : base ≤ index) (high : index < base + program.layout.size)
    (found : a.kind? (.ofIndex index) = some kind) (opens : kind.opensBlock) :
    ∃ close, (Handle.ofIndex index, close) ∈ program.blocks base := by
  -- A command that does not open a block stands elsewhere.
  have away {base : Nat} {previous : Option Handle} {c : Command} {first second next : Layout}
      (drawn : a.Drawn none base previous (.step c first second next))
      (inner : c.kind.opensBlock = false) : index ≠ base := by
    rintro rfl
    rw [kind?_of_drawn drawn] at found
    cases found
    rw [inner] at opens
    cases opens
  induction program generalizing base previous more with
  | done => exact absurd high (Nat.not_lt.mpr low)
  | plain c isPlain next ih =>
      have other := away drawn (CommandKind.opensBlock_of_isPlain isPlain)
      rw [Program.size_layout_plain] at high
      exact ih drawn.after (by omega) (by omega)
  | script opener opens body closer closes next bodyIH nextIH =>
      rw [Program.layout_script_append] at drawn
      obtain ⟨_, ending⟩ := drawn.after.exists_of_append
      have other := away ending (by rw [closes]; rfl)
      rw [Program.size_layout_script] at high
      refine exists_mem_blocks_cons fun first => exists_mem_blocks_append other ?_ ?_
      · exact fun inside => bodyIH drawn.after (by omega) inside
      · exact fun behind => nextIH ending.after behind (by omega)
  | block opener body closer closes next bodyIH nextIH =>
      have drawnBehind := drawn.behind
      simp only [Layout.size_ended, Layout.size_done] at drawnBehind
      obtain ⟨_, ending⟩ := drawn.2.2.1.exists_of_append
      have other := away ending (CommandKind.opensBlock_of_endsBranch
        (CommandKind.endsBranch_of_branchEnds closes))
      rw [Program.size_layout_block] at high
      refine exists_mem_blocks_cons fun first => exists_mem_blocks_append other ?_ ?_
      · exact fun inside => bodyIH drawn.2.2.1 (by omega) inside
      · exact fun behind => nextIH drawnBehind behind (by omega)
  | choice opener opens first alternative turns second closer closes next firstIH secondIH nextIH =>
      have drawnSecond := drawn.2.2.2.1
      have drawnBehind := drawn.behind
      simp only [Layout.size_ended] at drawnSecond drawnBehind
      obtain ⟨_, turning⟩ := drawn.2.2.1.exists_of_append
      obtain ⟨_, ending⟩ := drawnSecond.exists_of_append
      have noTurn := away turning (by rw [turns]; rfl)
      have noEnd := away ending (by rw [closes]; rfl)
      rw [Program.size_layout_choice] at high
      refine exists_mem_blocks_cons fun front => exists_mem_blocks_append noTurn ?_ fun inRest =>
        exists_mem_blocks_append noEnd ?_ ?_
      · exact fun inFirst => firstIH drawn.2.2.1 (by omega) inFirst
      · exact fun inSecond => secondIH drawnSecond inRest inSecond
      · exact fun behind => nextIH drawnBehind behind (by omega)

/-- The links find the blocks of a program. -/
theorem encloses_of_mem_blocks (ends : a.EndsByKind) (program : Program)
    (drawn : a.Drawn none base previous (program.layout ++ more))
    (inside : (program.layout ++ more).size < a.linkLimit) {h close : Handle}
    (member : (h, close) ∈ program.blocks base) : a.Encloses h close := by
  induction program generalizing base previous more with
  | done => cases member
  | plain c isPlain next ih =>
      simp only [Program.layout, Layout.step_append, Layout.size_step, Layout.size_done] at inside
      exact ih drawn.after (by omega) member
  | script opener opens body closer closes next bodyIH nextIH =>
      rw [Program.layout_script_append] at drawn inside
      obtain ⟨_, ending⟩ := drawn.after.exists_of_append
      rw [Program.blocks, List.mem_cons, List.mem_append] at member
      rcases member with same | inBody | behind
      · cases same
        exact .ofScript drawn opens closes (Nat.le_of_lt inside)
      · simp only [Layout.size_step, Layout.size_done] at inside
        exact bodyIH drawn.after (by omega) inBody
      · simp only [Layout.size_step, Layout.size_done, Layout.size_append] at inside
        exact nextIH ending.after (by rw [Layout.size_append]; omega) behind
  | block opener body closer closes next bodyIH nextIH =>
      have drawnBehind := drawn.behind
      simp only [Program.layout, Layout.step_append, Layout.size_step, Layout.size_append,
        Layout.size_done] at inside drawnBehind
      rw [Program.blocks, List.mem_cons, List.mem_append] at member
      rcases member with same | inBody | behind
      · cases same
        exact .ofBlock ends drawn closes (by omega)
      · exact bodyIH drawn.2.2.1 (by rw [Layout.size_ended]; omega) inBody
      · exact nextIH drawnBehind (by rw [Layout.size_append]; omega) behind
  | choice opener opens first alternative turns second closer closes next firstIH secondIH nextIH =>
      have drawnSecond := drawn.2.2.2.1
      have drawnBehind := drawn.behind
      simp only [Program.layout, Layout.step_append, Layout.size_step, Layout.size_append,
        Layout.size_done] at inside drawnSecond drawnBehind
      rw [Program.blocks, List.mem_cons, List.mem_append, List.mem_append] at member
      rcases member with same | inFirst | inSecond | behind
      · cases same
        exact .ofChoice ends drawn opens turns closes (by omega) (by omega)
      · exact firstIH drawn.2.2.1 (by rw [Layout.size_ended]; omega) inFirst
      · exact secondIH drawnSecond (by rw [Layout.size_ended]; omega) inSecond
      · exact nextIH drawnBehind (by rw [Layout.size_append]; omega) behind

end Arena

end MissionScript
