import MissionScript.Proofs.Mission.Fidelity

/-!
# Other commands in the same places

When every command of a sequence is replaced by one of its kind, the links stay what they are: the
sequence draws the same program with other commands in it.
-/

namespace MissionScript

/-! ## Layouts -/

namespace Layout

/-- The layout with other commands. -/
def map (f : Command → Command) : Layout → Layout
  | done => done
  | step command first second next => step (f command) (first.map f) (second.map f) (next.map f)

variable {f : Command → Command}

@[simp] theorem size_map (l : Layout) : (l.map f).size = l.size := by
  induction l with
  | done => rfl
  | step command first second next firstIH secondIH nextIH =>
      rw [map, size_step, size_step, firstIH, secondIH, nextIH]

@[simp] theorem map_append (l more : Layout) : (l ++ more).map f = l.map f ++ more.map f := by
  induction l with
  | done => rfl
  | step command first second next _ _ ih => rw [step_append, map, map, ih, step_append]

@[simp] theorem start_map (base : Nat) (stop : Option Handle) (l : Layout) :
    (l.map f).start base stop = l.start base stop := by
  cases l <;> rfl

variable (kinds : ∀ c, (f c).kind = c.kind)

include kinds in
theorem node_map {stop previous : Option Handle} {base : Nat} {command : Command}
    {first second next : Layout} :
    node stop base previous (f command) (first.map f) (second.map f) (next.map f) =
      { node stop base previous command first second next with command := f command } := by
  simp only [node, heads, kinds, start_map, size_map]

end Layout

namespace Arena

variable {a b : Arena} {f : Command → Command}

theorem Drawn.map {l : Layout} {stop previous : Option Handle} {base : Nat}
    (drawn : a.Drawn stop base previous l) (kinds : ∀ c, (f c).kind = c.kind)
    (nodes : ∀ h, b.node? h = (a.node? h).map fun node => { node with command := f node.command }) :
    b.Drawn stop base previous (l.map f) := by
  induction l generalizing stop base previous with
  | done => trivial
  | step command first second next firstIH secondIH nextIH =>
      obtain ⟨node, owns, inFirst, inSecond, after⟩ := drawn
      refine ⟨?_, ?_, firstIH inFirst, ?_, ?_⟩
      · rw [nodes, node, Layout.node_map kinds]
        rfl
      · rw [kinds]
        exact owns.imp_right fun ⟨first, second⟩ => ⟨by rw [first]; rfl, by rw [second]; rfl⟩
      · rw [Layout.size_map]
        exact secondIH inSecond
      · rw [Layout.size_map, Layout.size_map]
        exact nextIH after

/-- Nothing has been deleted if every slot holds its first occupant. -/
theorem fresh_of_contains (first : ∀ index < a.slots.size, a.contains (.ofIndex index)) : a.Fresh := by
  have slot {index : Nat} (inside : index < a.slots.size) :
      ∃ node, a.slots[index] = { generation := 0, node := some node } := by
    obtain ⟨node, found⟩ := Option.isSome_iff_exists.mp (first index inside)
    exact ⟨node, (slot_of_node? found).2⟩
  constructor
  · refine List.eq_nil_iff_forall_not_mem.mpr fun index member => ?_
    obtain ⟨vacant, held, empty⟩ := (a.mem_free index).mp member
    obtain ⟨inside, rfl⟩ := Array.getElem?_eq_some_iff.mp held
    obtain ⟨node, occupied⟩ := slot inside
    rw [occupied] at empty
    cases empty
  · intro index inside
    obtain ⟨node, occupied⟩ := slot inside
    rw [occupied]

theorem Fresh.congr (fresh : a.Fresh) (size : b.slots.size = a.slots.size)
    (nodes : ∀ h, b.contains h = a.contains h) : b.Fresh := by
  refine fresh_of_contains fun index inside => ?_
  rw [nodes]
  exact fresh.contains_iff.mpr ⟨index, size ▸ inside, rfl⟩

end Arena

/-! ## Programs -/

namespace Program

/-- The program with other commands of the same kinds. -/
def map (f : Command → Command) (kinds : ∀ c, (f c).kind = c.kind) : Program → Program
  | done => done
  | plain command isPlain next => plain (f command) (by rw [kinds]; exact isPlain) (next.map f kinds)
  | script opener opens body closer closes next =>
    script (f opener) ((kinds opener).trans opens) (body.map f kinds) (f closer)
      ((kinds closer).trans closes) (next.map f kinds)
  | block opener body closer ends next =>
    block (f opener) (body.map f kinds) (f closer) (by rw [kinds, kinds]; exact ends)
      (next.map f kinds)
  | choice opener opens first alternative turns second closer closes next =>
    choice (f opener) ((kinds opener).trans opens) (first.map f kinds) (f alternative)
      ((kinds alternative).trans turns) (second.map f kinds) (f closer) ((kinds closer).trans closes)
      (next.map f kinds)

variable {f : Command → Command} {kinds : ∀ c, (f c).kind = c.kind}

@[simp] theorem commands_map (p : Program) : (p.map f kinds).commands = p.commands.map f := by
  induction p with
  | done => rfl
  | plain command isPlain next ih => simp [map, commands, ih]
  | script opener opens body closer closes next bodyIH nextIH => simp [map, commands, bodyIH, nextIH]
  | block opener body closer ends next bodyIH nextIH => simp [map, commands, bodyIH, nextIH]
  | choice opener opens first alternative turns second closer closes next firstIH secondIH nextIH =>
      simp [map, commands, firstIH, secondIH, nextIH]

theorem layout_map (kinds : ∀ c, (f c).kind = c.kind) (p : Program) :
    (p.map f kinds).layout = p.layout.map f := by
  induction p with
  | done => rfl
  | plain command isPlain next ih => simp [map, layout, Layout.map, ih]
  | script opener opens body closer closes next bodyIH nextIH =>
      simp [map, layout, Layout.map, bodyIH, nextIH]
  | block opener body closer ends next bodyIH nextIH =>
      simp [map, layout, Layout.map, bodyIH, nextIH]
  | choice opener opens first alternative turns second closer closes next firstIH secondIH nextIH =>
      simp [map, layout, Layout.map, firstIH, secondIH, nextIH]

end Program

/-! ## Missions -/

namespace Mission

variable {m n : Mission} {program : Program}

/-- A mission draws a program if all of its nodes spell it. -/
theorem draws_of_drawn (head : m.head = .ofIndex 0) (fresh : m.arena.Fresh)
    (drawn : m.arena.Drawn none 0 none (.step (.ofKind .noOp) .done .done program.layout))
    (full : m.arena.slots.size = program.layout.size + 1) : m.Draws program := by
  have first : (Draft.start .empty).arena = Arena.empty.push (.ofCommand (.ofKind .noOp)) := by
    rw [Draft.start_eq]
  have size : (Draft.start .empty).arena.slots.size = 1 := by
    rw [first]
    rfl
  have start : (Draft.start .empty).arena.Fresh := by
    rw [first]
    exact Arena.fresh_empty.push
  refine ⟨head, fresh, ?_, ?_, fun h inside => ?_⟩
  · rw [full, size, Nat.add_comm]
  · rw [size]
    exact drawn.2.2.2.2
  · rw [size] at inside ⊢
    by_cases same : h = .ofIndex 0
    · have before : (Draft.start .empty).arena.node? (.ofIndex 0) =
          some (.ofCommand (.ofKind .noOp)) := by
        rw [first, Arena.node?_push]
        exact if_pos rfl
      rw [same, drawn.node?_ofIndex]
      cases program.layout with
      | done => exact before.symm
      | step =>
          refine Eq.trans ?_ (Arena.relinked?_of_eq rfl _).symm
          change _ = Option.map _ ((Draft.start .empty).arena.node? (.ofIndex 0))
          rw [before]
          rfl
    · -- The first slot is known under no other handle.
      have absent {a : Arena} (fresh : a.Fresh) : a.node? h = none := by
        refine Option.not_isSome_iff_eq_none.mp fun live => ?_
        obtain ⟨index, -, rfl⟩ := fresh.contains_iff.mp live
        rw [Handle.index_ofIndex, Nat.lt_one_iff] at inside
        exact same (by rw [inside])
      rw [absent fresh, Arena.relinked?_of_ne same, absent start]

theorem Draws.congr (draws : m.Draws program) (head : n.head = m.head)
    (size : n.arena.slots.size = m.arena.slots.size)
    (nodes : ∀ h, n.arena.node? h = m.arena.node? h) : n.Draws program := by
  have full := draws.full
  rw [Layout.size_step, Layout.size_done] at full
  refine draws_of_drawn (head.trans draws.head) ?_ (draws.drawn.congr fun _ _ _ => nodes _) (by omega)
  exact draws.fresh.congr size fun h => by rw [Arena.contains, Arena.contains, nodes]

theorem Draws.map (draws : m.Draws program) {f : Command → Command}
    (kinds : ∀ c, (f c).kind = c.kind) (front : f (.ofKind .noOp) = .ofKind .noOp)
    (head : n.head = m.head) (size : n.arena.slots.size = m.arena.slots.size)
    (nodes : ∀ h, n.arena.node? h =
      (m.arena.node? h).map fun node => { node with command := f node.command }) :
    n.Draws (program.map f kinds) := by
  have full := draws.full
  rw [Layout.size_step, Layout.size_done] at full
  have drawn := draws.drawn.map kinds nodes
  rw [Layout.map, front, ← Program.layout_map kinds] at drawn
  refine draws_of_drawn (head.trans draws.head) ?_ drawn ?_
  · refine draws.fresh.congr size fun h => ?_
    rw [Arena.contains, Arena.contains, nodes, Option.isSome_map]
  · rw [size, full, Program.layout_map, Layout.size_map]
    omega

end Mission

end MissionScript
