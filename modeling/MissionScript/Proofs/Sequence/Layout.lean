import MissionScript.Proofs.Sequence.Link

/-!
# Layouts

A layout is the tree that the links of a sequence spell: a command, the chains in its two branches, and
the chain after it. Commands that are added one after the other get consecutive handles, so a layout
and the index of its first command say what every node of the sequence holds.
-/

namespace MissionScript

/-- A chain of commands with their branches. -/
inductive Layout where
  | done
  | step (command : Command) (first second next : Layout)

namespace Layout

/-- How many commands there are, branches included. -/
def size : Layout → Nat
  | done => 0
  | step _ first second next => 1 + first.size + second.size + next.size

/-- The commands in order, each before its branches. -/
def commands : Layout → List Command
  | done => []
  | step command first second next =>
    command :: (first.commands ++ (second.commands ++ next.commands))

/-- Go on with another chain at the end. -/
def append : Layout → Layout → Layout
  | done, more => more
  | step command first second next, more => step command first second (next.append more)

instance : Append Layout := ⟨append⟩

@[simp] theorem done_append (more : Layout) : done ++ more = more := rfl

@[simp] theorem step_append (command : Command) (first second next more : Layout) :
    step command first second next ++ more = step command first second (next ++ more) := rfl

@[simp] theorem size_done : done.size = 0 := rfl

@[simp] theorem size_step (command : Command) (first second next : Layout) :
    (step command first second next).size = 1 + first.size + second.size + next.size := rfl

@[simp] theorem size_append (l more : Layout) : (l ++ more).size = l.size + more.size := by
  induction l with
  | done => simp
  | step command first second next _ _ ih =>
      rw [step_append, size_step, size_step, ih]
      omega

@[simp] theorem commands_append (l more : Layout) :
    (l ++ more).commands = l.commands ++ more.commands := by
  induction l with
  | done => rfl
  | step command first second next _ _ ih => simp [commands, ih]

@[simp] theorem append_done (l : Layout) : l ++ done = l := by
  induction l with
  | done => rfl
  | step command first second next _ _ ih => rw [step_append, ih]

theorem append_assoc (l more rest : Layout) : l ++ more ++ rest = l ++ (more ++ rest) := by
  induction l with
  | done => rfl
  | step command first second next _ _ ih => simp [ih]

theorem length_commands (l : Layout) : l.commands.length = l.size := by
  induction l with
  | done => rfl
  | step command first second next firstIH secondIH nextIH =>
      simp only [commands, List.length_cons, List.length_append, firstIH, secondIH, nextIH, size_step]
      omega

/-- The first command of a layout from index `base` on, or `stop` if there is none. -/
def start (base : Nat) (stop : Option Handle) : Layout → Option Handle
  | done => stop
  | step .. => some (.ofIndex base)

/-- Where to go on after a layout that was linked at `p` from index `base` on. -/
def tail : (base : Nat) → (p : Point) → Layout → Point
  | _, p, done => p
  | base, _, step _ first second next =>
    next.tail (base + 1 + first.size + second.size) (.after (.ofIndex base))

/-- The first commands of the branches of the command at index `base`. -/
def heads (base : Nat) (command : Command) (first second : Layout) : List (Option Handle) :=
  if command.kind.ownsBranches then
    first.start (base + 1) none :: (second.start (base + 1 + first.size) none).toList.map some
  else []

/-- The node of the command at index `base`. -/
def node (stop : Option Handle) (base : Nat) (previous : Option Handle) (command : Command)
    (first second next : Layout) : Node where
  command
  previous
  next := next.start (base + 1 + first.size + second.size) stop
  branches := heads base command first second

theorem start_append (base : Nat) (stop : Option Handle) (l more : Layout) :
    (l ++ more).start base stop = l.start base (more.start (base + l.size) stop) := by
  cases l <;> rfl

/-- A branch starts somewhere, because it has an end. -/
theorem start_ended (l : Layout) (base : Nat) (closer : Command) :
    (l ++ .step closer .done .done .done).start base none = some (.ofIndex base) := by
  cases l <;> rfl

theorem size_ended (l : Layout) (closer : Command) :
    (l ++ .step closer .done .done .done).size = l.size + 1 := by
  rw [size_append]
  rfl

/-- The last command of a chain is one of its own. -/
theorem tail_of_step (l : Layout) (nonempty : l ≠ done) (base : Nat) (p : Point) :
    ∃ index, l.tail base p = .after (.ofIndex index) ∧ base ≤ index ∧ index < base + l.size := by
  induction l generalizing base p with
  | done => exact absurd rfl nonempty
  | step command first second next _ _ ih =>
      by_cases last : next = done
      · subst last
        exact ⟨base, rfl, Nat.le_refl _, by simp only [size_step]; omega⟩
      · obtain ⟨index, tail, low, high⟩ :=
          ih last (base + 1 + first.size + second.size) (.after (.ofIndex base))
        exact ⟨index, tail, by omega, by simp only [size_step]; omega⟩

end Layout

namespace Arena

variable {a b c : Arena}

/-- The node of a handle after a link has been laid from a point, or before if there is no target. -/
def relinked? (a : Arena) (p : Point) (target : Option Handle) (h : Handle) : Option Node :=
  match target with
  | none => a.node? h
  | some target => if h = p.anchor then (a.node? h).map (p.lay target) else a.node? h

@[simp] theorem relinked?_none (p : Point) (h : Handle) : a.relinked? p none h = a.node? h := rfl

theorem relinked?_of_eq {p : Point} {h : Handle} (same : h = p.anchor) (target : Handle) :
    a.relinked? p (some target) h = (a.node? h).map (p.lay target) := by
  simp [relinked?, same]

theorem relinked?_of_ne {p : Point} {h : Handle} (different : h ≠ p.anchor)
    (target : Option Handle) : a.relinked? p target h = a.node? h := by
  cases target with
  | none => rfl
  | some target => simp [relinked?, different]

/-- The nodes from index `base` on spell a layout. `previous` is in front of it and `stop` behind it;
only commands that own branches have some. -/
def Drawn (a : Arena) : (stop : Option Handle) → (base : Nat) → (previous : Option Handle) →
    Layout → Prop
  | _, _, _, .done => True
  | stop, base, previous, .step command first second next =>
    a.node? (.ofIndex base) = some (Layout.node stop base previous command first second next) ∧
    (command.kind.ownsBranches ∨ first = .done ∧ second = .done) ∧
    a.Drawn none (base + 1) none first ∧
    a.Drawn none (base + 1 + first.size) none second ∧
    a.Drawn stop (base + 1 + first.size + second.size) (some (.ofIndex base)) next

namespace Drawn

/-- Whether a layout is drawn hangs on its own nodes only. -/
theorem congr {l : Layout} {stop previous : Option Handle} {base : Nat}
    (drawn : a.Drawn stop base previous l)
    (kept : ∀ index, base ≤ index → index < base + l.size →
      b.node? (.ofIndex index) = a.node? (.ofIndex index)) :
    b.Drawn stop base previous l := by
  induction l generalizing stop base previous with
  | done => trivial
  | step command first second next firstIH secondIH nextIH =>
      obtain ⟨node, owns, inFirst, inSecond, after⟩ := drawn
      simp only [Layout.size_step] at kept
      refine ⟨?_, owns, ?_, ?_, ?_⟩
      · rw [kept base (by omega) (by omega), node]
      · exact firstIH inFirst fun index _ _ => kept index (by omega) (by omega)
      · exact secondIH inSecond fun index _ _ => kept index (by omega) (by omega)
      · exact nextIH after fun index _ _ => kept index (by omega) (by omega)

theorem append_iff {l more : Layout} {stop : Option Handle} {base : Nat} {p : Point} :
    a.Drawn stop base p.previous? (l ++ more) ↔
      a.Drawn (more.start (base + l.size) stop) base p.previous? l ∧
        a.Drawn stop (base + l.size) (l.tail base p).previous? more := by
  induction l generalizing base p with
  | done => simp [Drawn, Layout.tail]
  | step command first second next _ _ ih =>
      have sizes : base + (1 + first.size + second.size + next.size) =
          base + 1 + first.size + second.size + next.size := by omega
      have onward := @ih (base + 1 + first.size + second.size) (.after (.ofIndex base))
      simp only [Point.previous?] at onward
      simp only [Layout.step_append, Drawn, Layout.tail, Layout.size_step, sizes, onward,
        Layout.node, Layout.start_append]
      constructor
      · rintro ⟨node, owns, inFirst, inSecond, after, behind⟩
        exact ⟨⟨node, owns, inFirst, inSecond, after⟩, behind⟩
      · rintro ⟨⟨node, owns, inFirst, inSecond, after⟩, behind⟩
        exact ⟨node, owns, inFirst, inSecond, after, behind⟩

/-- Linking `target` after the last command of a chain only changes what is behind the chain. -/
theorem relink {l : Layout} {previous target : Option Handle} {base : Nat} {p : Point}
    (drawn : a.Drawn none base previous l) (nonempty : l ≠ .done)
    (kept : ∀ index, base ≤ index → index < base + l.size →
      b.node? (.ofIndex index) = a.relinked? (l.tail base p) target (.ofIndex index)) :
    b.Drawn target base previous l := by
  induction l generalizing base previous p with
  | done => exact absurd rfl nonempty
  | step command first second next _ _ ih =>
      obtain ⟨node, owns, inFirst, inSecond, after⟩ := drawn
      simp only [Layout.size_step, Layout.tail] at kept
      by_cases last : next = .done
      · subst last
        have elsewhere : ∀ index, base < index → index < base + (1 + first.size + second.size) →
            b.node? (.ofIndex index) = a.node? (.ofIndex index) := by
          intro index low high
          rw [kept index (by omega) (by simpa using high)]
          exact relinked?_of_ne (by simp [Layout.tail, Point.anchor, Nat.ne_of_gt low]) target
        refine ⟨?_, owns, ?_, ?_, trivial⟩
        · rw [kept base (Nat.le_refl _) (by omega)]
          cases target with
          | none => exact node
          | some target =>
              have end' : Handle.ofIndex base =
                  (Layout.done.tail (base + 1 + first.size + second.size)
                    (.after (.ofIndex base))).anchor := rfl
              rw [relinked?_of_eq end' target, node]
              rfl
        · exact inFirst.congr fun index _ _ => elsewhere index (by omega) (by omega)
        · exact inSecond.congr fun index _ _ => elsewhere index (by omega) (by omega)
      · obtain ⟨position, tail, low, _⟩ := next.tail_of_step last
          (base + 1 + first.size + second.size) (.after (.ofIndex base))
        have before : ∀ index, base ≤ index → index < base + 1 + first.size + second.size →
            b.node? (.ofIndex index) = a.node? (.ofIndex index) := by
          intro index _ high
          have different : index ≠ position := by omega
          rw [kept index (by omega) (by omega)]
          exact relinked?_of_ne (by simp [tail, Point.anchor, different]) target
        refine ⟨?_, owns, ?_, ?_, ?_⟩
        · rw [before base (by omega) (by omega), node]
          cases next with
          | done => exact absurd rfl last
          | step => rfl
        · exact inFirst.congr fun index _ _ => before index (by omega) (by omega)
        · exact inSecond.congr fun index _ _ => before index (by omega) (by omega)
        · exact ih after last fun index _ _ => kept index (by omega) (by omega)

end Drawn

end Arena

end MissionScript
