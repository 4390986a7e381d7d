import Mathlib.Algebra.BigOperators.Ring.List
import Mathlib.Algebra.Ring.Nat
import MissionScript.Proofs.Sequence.Tree

/-!
# Loops around commands

How many loops a command stands in is read off the tree of its sequence. If every loop may make so many
passes, a command can run as often as a power of this limit tells; in a drawn layout the sum of these
powers over all commands follows the layout.
-/

namespace MissionScript

/-- The kinds that run their branch again and again. -/
def CommandKind.isLoop : CommandKind → Bool
  | whileLoop | forLoop | optimize | target => true
  | _ => false

namespace Arena

def isLoop (a : Arena) (h : Handle) : Bool := (a.kind? h).any (·.isLoop)

/-- Whether a command stands in a branch of another one, at any depth. -/
def encloses (a : Arena) (outer h : Handle) : Bool := outer != h && (a.subtree outer).contains h

/-- How many of these commands are loops around a command. -/
def loopsAmong (a : Arena) (outers : List Handle) (h : Handle) : Nat :=
  outers.countP fun outer => a.isLoop outer && a.encloses outer h

/-- How many loops of a sequence are around one of its commands. -/
def loopsAround (a : Arena) (head h : Handle) : Nat := a.loopsAmong (a.commandsFrom head) h

end Arena

namespace Layout

/-- How often commands can run in a layout whose loops make at most `limit` passes. -/
def work (limit : Nat) : Layout → Nat
  | done => 0
  | step command first second next =>
    1 + (if command.kind.isLoop then limit else 1) * (first.work limit + second.work limit) +
      next.work limit

@[simp] theorem work_done (limit : Nat) : done.work limit = 0 := rfl

theorem work_step (limit : Nat) (command : Command) (first second next : Layout) :
    (step command first second next).work limit =
      1 + (if command.kind.isLoop then limit else 1) * (first.work limit + second.work limit) +
        next.work limit := rfl

theorem work_append (limit : Nat) (l more : Layout) :
    (l ++ more).work limit = l.work limit + more.work limit := by
  induction l with
  | done => simp
  | step command first second next _ _ ih =>
      rw [step_append, work_step, work_step, ih]
      omega

/-- Layouts with one behind the other have no handle in common. -/
theorem disjoint_handles {l more : Layout} {base later : Nat} (behind : base + l.size ≤ later) :
    (l.handles base).Disjoint (more.handles later) := by
  intro h member other
  obtain ⟨index, -, above, rfl⟩ := mem_handles.mp member
  obtain ⟨same, below, -, equal⟩ := mem_handles.mp other
  obtain rfl := Handle.ofIndex_inj.mp equal
  omega

theorem ofIndex_notMem_handles {l : Layout} {index base : Nat} (before : index < base) :
    .ofIndex index ∉ l.handles base := by
  intro member
  obtain ⟨same, below, -, equal⟩ := mem_handles.mp member
  obtain rfl := Handle.ofIndex_inj.mp equal
  omega

end Layout

namespace Arena

variable {a : Arena} {l : Layout} {base limit : Nat} {previous : Option Handle} {h outer : Handle}

theorem loopsAmong_cons (outers : List Handle) : a.loopsAmong (outer :: outers) h =
    (if a.isLoop outer && a.encloses outer h then 1 else 0) + a.loopsAmong outers h := by
  rw [loopsAmong, List.countP_cons, Nat.add_comm]
  rfl

theorem loopsAmong_append (outers others : List Handle) :
    a.loopsAmong (outers ++ others) h = a.loopsAmong outers h + a.loopsAmong others h :=
  List.countP_append

namespace Drawn

/-- What a command of a layout encloses is in the layout. -/
theorem mem_of_subtree (drawn : a.Drawn none base previous l) (enough : l.size ≤ a.slots.size)
    (member : outer ∈ l.handles base) (inside : h ∈ a.subtree outer) : h ∈ l.handles base := by
  induction l generalizing base previous with
  | done => cases member
  | step command first second next firstIH secondIH nextIH =>
      rw [Layout.size_step] at enough
      rw [Layout.handles_step, List.mem_cons, List.mem_append, List.mem_append] at member ⊢
      have own := drawn.subtree_eq (by omega)
      obtain ⟨-, -, inFirst, inSecond, behind⟩ := drawn
      rcases member with rfl | member | member | member
      · rw [own, List.mem_cons, List.mem_append] at inside
        exact inside.imp_right (Or.imp_right .inl)
      · exact .inr (.inl (firstIH inFirst (by omega) member))
      · exact .inr (.inr (.inl (secondIH inSecond (by omega) member)))
      · exact .inr (.inr (.inr (nextIH behind (by omega) member)))

/-- No command of a layout encloses one outside of it. -/
theorem loopsAmong_of_outside (drawn : a.Drawn none base previous l)
    (enough : l.size ≤ a.slots.size) (outside : h ∉ l.handles base) :
    a.loopsAmong (l.handles base) h = 0 := by
  refine List.countP_eq_zero.mpr fun outer member loop => outside ?_
  obtain ⟨-, encloses⟩ := Bool.and_eq_true_iff.mp loop
  obtain ⟨-, inside⟩ := Bool.and_eq_true_iff.mp encloses
  exact drawn.mem_of_subtree enough member (List.contains_iff_mem.mp inside)

section

variable {command : Command} {first second next : Layout}
  (drawn : a.Drawn none base previous (.step command first second next))
  (enough : (Layout.step command first second next).size ≤ a.slots.size)

include drawn enough

/-- A command encloses what is in its branches. -/
theorem encloses_ofIndex : a.encloses (.ofIndex base) h ↔
    h ∈ first.handles (base + 1) ∨ h ∈ second.handles (base + 1 + first.size) := by
  rw [Layout.size_step] at enough
  have own : h ∈ a.subtree (.ofIndex base) ↔ h = .ofIndex base ∨
      h ∈ first.handles (base + 1) ∨ h ∈ second.handles (base + 1 + first.size) := by
    rw [drawn.subtree_eq (by omega), List.mem_cons, List.mem_append]
  have apart : h = .ofIndex base → ¬ (h ∈ first.handles (base + 1) ∨
      h ∈ second.handles (base + 1 + first.size)) := by
    rintro rfl (inside | inside)
    · exact Layout.ofIndex_notMem_handles (by omega) inside
    · exact Layout.ofIndex_notMem_handles (by omega) inside
  rw [encloses, Bool.and_eq_true, List.contains_iff_mem, own, bne_iff_ne]
  constructor
  · rintro ⟨different, same | inside⟩
    · exact absurd same.symm different
    · exact inside
  · exact fun inside => ⟨fun same => apart same.symm inside, .inr inside⟩

/-- The loops around a command are those of its own part of the layout, and the command in front if that
is a loop and the part one of its branches. -/
theorem loopsAmong_step : a.loopsAmong ((Layout.step command first second next).handles base) h =
    (if command.kind.isLoop ∧ (h ∈ first.handles (base + 1) ∨
        h ∈ second.handles (base + 1 + first.size)) then 1 else 0) +
      (a.loopsAmong (first.handles (base + 1)) h +
        (a.loopsAmong (second.handles (base + 1 + first.size)) h +
          a.loopsAmong (next.handles (base + 1 + first.size + second.size)) h)) := by
  have loop : a.isLoop (.ofIndex base) = command.kind.isLoop := by
    rw [isLoop, kind?, command?, drawn.node?_ofIndex]
    rfl
  rw [Layout.handles_step, loopsAmong_cons, loopsAmong_append, loopsAmong_append, loop]
  simp only [Bool.and_eq_true, drawn.encloses_ofIndex enough]

/-- No loop is around the command in front. -/
theorem loopsAmong_own :
    a.loopsAmong ((Layout.step command first second next).handles base) (.ofIndex base) = 0 := by
  have whole := drawn.loopsAmong_step (h := .ofIndex base) enough
  rw [Layout.size_step] at enough
  obtain ⟨-, -, inFirst, inSecond, behind⟩ := drawn
  have outFirst : .ofIndex base ∉ first.handles (base + 1) :=
    Layout.ofIndex_notMem_handles (by omega)
  have outSecond : .ofIndex base ∉ second.handles (base + 1 + first.size) :=
    Layout.ofIndex_notMem_handles (by omega)
  have outNext : .ofIndex base ∉ next.handles (base + 1 + first.size + second.size) :=
    Layout.ofIndex_notMem_handles (by omega)
  rw [whole, inFirst.loopsAmong_of_outside (by omega) outFirst,
    inSecond.loopsAmong_of_outside (by omega) outSecond,
    behind.loopsAmong_of_outside (by omega) outNext, if_neg]
  exact fun loop => loop.2.elim outFirst outSecond

theorem loopsAmong_first (inside : h ∈ first.handles (base + 1)) :
    a.loopsAmong ((Layout.step command first second next).handles base) h =
      (if command.kind.isLoop then 1 else 0) + a.loopsAmong (first.handles (base + 1)) h := by
  have whole := drawn.loopsAmong_step (h := h) enough
  rw [Layout.size_step] at enough
  obtain ⟨-, -, -, inSecond, behind⟩ := drawn
  have outSecond : h ∉ second.handles (base + 1 + first.size) :=
    Layout.disjoint_handles (Nat.le_refl _) inside
  have outNext : h ∉ next.handles (base + 1 + first.size + second.size) :=
    Layout.disjoint_handles (by omega) inside
  rw [whole, inSecond.loopsAmong_of_outside (by omega) outSecond,
    behind.loopsAmong_of_outside (by omega) outNext]
  simp only [inside, true_or, and_true, Nat.add_zero]

theorem loopsAmong_second (inside : h ∈ second.handles (base + 1 + first.size)) :
    a.loopsAmong ((Layout.step command first second next).handles base) h =
      (if command.kind.isLoop then 1 else 0) +
        a.loopsAmong (second.handles (base + 1 + first.size)) h := by
  have whole := drawn.loopsAmong_step (h := h) enough
  rw [Layout.size_step] at enough
  obtain ⟨-, -, inFirst, -, behind⟩ := drawn
  have outFirst : h ∉ first.handles (base + 1) :=
    fun other => Layout.disjoint_handles (Nat.le_refl _) other inside
  have outNext : h ∉ next.handles (base + 1 + first.size + second.size) :=
    Layout.disjoint_handles (Nat.le_refl _) inside
  rw [whole, inFirst.loopsAmong_of_outside (by omega) outFirst,
    behind.loopsAmong_of_outside (by omega) outNext]
  simp only [inside, or_true, and_true, Nat.add_zero, Nat.zero_add]

/-- The command in front is not around those behind it. -/
theorem loopsAmong_behind (inside : h ∈ next.handles (base + 1 + first.size + second.size)) :
    a.loopsAmong ((Layout.step command first second next).handles base) h =
      a.loopsAmong (next.handles (base + 1 + first.size + second.size)) h := by
  have whole := drawn.loopsAmong_step (h := h) enough
  rw [Layout.size_step] at enough
  obtain ⟨-, -, inFirst, inSecond, -⟩ := drawn
  have outFirst : h ∉ first.handles (base + 1) :=
    fun other => Layout.disjoint_handles (by omega) other inside
  have outSecond : h ∉ second.handles (base + 1 + first.size) :=
    fun other => Layout.disjoint_handles (Nat.le_refl _) other inside
  rw [whole, inFirst.loopsAmong_of_outside (by omega) outFirst,
    inSecond.loopsAmong_of_outside (by omega) outSecond]
  simp only [outFirst, outSecond, or_self, and_false, if_false, Nat.zero_add]

end

end Drawn

/-- Handles with so many more loops around them. -/
theorem sum_pow_shift (limit : Nat) {handles : List Handle} {around inside : Handle → Nat} {outer : Nat}
    (each : ∀ h ∈ handles, around h = outer + inside h) :
    (handles.map fun h => limit ^ around h).sum =
      limit ^ outer * (handles.map fun h => limit ^ inside h).sum := by
  rw [← List.sum_map_mul_left handles (fun h => limit ^ inside h)]
  refine congrArg _ (List.map_congr_left fun h member => ?_)
  rw [each h member, Nat.pow_add]

namespace Drawn

/-- The powers of the limit add up to the work of the layout. -/
theorem sum_loopsAmong (drawn : a.Drawn none base previous l) (enough : l.size ≤ a.slots.size) :
    ((l.handles base).map fun h => limit ^ a.loopsAmong (l.handles base) h).sum = l.work limit := by
  induction l generalizing base previous with
  | done => rfl
  | step command first second next firstIH secondIH nextIH =>
      have own := drawn.loopsAmong_own enough
      have ofFirst (h : Handle) := drawn.loopsAmong_first (h := h) enough
      have ofSecond (h : Handle) := drawn.loopsAmong_second (h := h) enough
      have ofNext (h : Handle) := drawn.loopsAmong_behind (h := h) enough
      obtain ⟨-, -, inFirst, inSecond, behind⟩ := drawn
      rw [Layout.size_step] at enough
      have sumFirst := sum_pow_shift limit ofFirst
      have sumSecond := sum_pow_shift limit ofSecond
      have sumNext := congrArg List.sum
        (List.map_congr_left fun h member => congrArg (limit ^ ·) (ofNext h member))
      rw [firstIH inFirst (by omega)] at sumFirst
      rw [secondIH inSecond (by omega)] at sumSecond
      rw [nextIH behind (by omega)] at sumNext
      have factor : limit ^ (if command.kind.isLoop then 1 else 0) =
          if command.kind.isLoop then limit else 1 := by
        rw [pow_ite, pow_one, pow_zero]
      conv_lhs => rw [Layout.handles_step, List.map_cons, List.map_append, List.map_append]
      rw [← Layout.handles_step, List.sum_cons, List.sum_append, List.sum_append, own, sumFirst,
        sumSecond, sumNext, factor, Layout.work_step, Nat.mul_add, Nat.pow_zero]
      omega

end Drawn

end Arena

end MissionScript
