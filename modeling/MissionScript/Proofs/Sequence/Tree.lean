import Mathlib.Data.List.Nodup
import MissionScript.Proofs.Sequence.Layout
import MissionScript.Sequence.Tree

/-!
# The links of a drawn layout

An arena that draws a layout has the links of the layout and no others. Every command but the first is
the target of one of them, and the walk from the first command meets the commands in their order.
-/

namespace MissionScript

namespace Layout

/-- The handles of a layout from index `base` on, in order. -/
def handles (base : Nat) (l : Layout) : List Handle := (List.range' base l.size).map .ofIndex

@[simp] theorem handles_done (base : Nat) : done.handles base = [] := rfl

theorem handles_step (base : Nat) (command : Command) (first second next : Layout) :
    (step command first second next).handles base =
      .ofIndex base :: (first.handles (base + 1) ++ (second.handles (base + 1 + first.size) ++
        next.handles (base + 1 + first.size + second.size))) := by
  have sizes : 1 + first.size + second.size + next.size =
      (first.size + (second.size + next.size)) + 1 := by omega
  simp only [handles, size_step, sizes, List.range'_succ, List.map_cons, ← List.map_append,
    List.range'_append_1]

/-- The first command of a branch of the command at index `base`. -/
def branch (base : Nat) (first second : Layout) : Nat → Option Handle
  | 0 => first.start (base + 1) none
  | 1 => second.start (base + 1 + first.size) none
  | _ => none

theorem mem_handles {base : Nat} {l : Layout} {h : Handle} :
    h ∈ l.handles base ↔ ∃ index, base ≤ index ∧ index < base + l.size ∧ h = .ofIndex index := by
  simp only [handles, List.mem_map, List.mem_range'_1]
  constructor
  · rintro ⟨index, ⟨low, high⟩, rfl⟩
    exact ⟨index, low, high, rfl⟩
  · rintro ⟨index, low, high, rfl⟩
    exact ⟨index, ⟨low, high⟩, rfl⟩

theorem nodup_handles (base : Nat) (l : Layout) : (l.handles base).Nodup := by
  refine List.Pairwise.map _ ?_ List.nodup_range'
  intro left right different same
  exact different (Handle.ofIndex_inj.mp same)

/-- The links of a layout that is entered at a point, with the commands that they lead to. -/
def links (entry : Point) (base : Nat) : Layout → List (Point × Handle)
  | done => []
  | step _ first second next =>
    (entry, .ofIndex base) :: (first.links (.inside (.ofIndex base) 0) (base + 1) ++
      (second.links (.inside (.ofIndex base) 1) (base + 1 + first.size) ++
        next.links (.after (.ofIndex base)) (base + 1 + first.size + second.size)))

theorem start_of_ne {l : Layout} (nonempty : l ≠ done) (base : Nat) (stop : Option Handle) :
    l.start base stop = some (.ofIndex base) := by
  cases l with
  | done => exact absurd rfl nonempty
  | step => rfl

/-- A layout is entered at its first command. -/
theorem mem_links_iff {entry p : Point} {base : Nat} {l : Layout} {h : Handle} :
    (p, h) ∈ l.links entry base ↔
      p = entry ∧ l.start base none = some h ∨ (p, h) ∈ (l.links entry base).tail := by
  cases l with
  | done => simp [links, start]
  | step => simp [links, start, eq_comm]

/-- There is one link to each command. -/
theorem targets_links (entry : Point) (base : Nat) (l : Layout) :
    (l.links entry base).map (·.2) = l.handles base := by
  induction l generalizing entry base with
  | done => rfl
  | step command first second next firstIH secondIH nextIH =>
      rw [handles_step, links]
      simp only [List.map_cons, List.map_append, firstIH, secondIH, nextIH]

/-- The links of a layout lead from a slot to a later one. -/
theorem index_lt_of_mem_links {entry p : Point} {base : Nat} {l : Layout} {h : Handle}
    (before : entry.anchor.index < base) (member : (p, h) ∈ l.links entry base) :
    p.anchor.index < h.index := by
  induction l generalizing entry base with
  | done => cases member
  | step command first second next firstIH secondIH nextIH =>
      simp only [links, List.mem_cons, List.mem_append] at member
      rcases member with same | member | member | member
      · cases same
        exact before
      · exact firstIH (Nat.lt_succ_self base) member
      · exact secondIH (by simp only [Point.anchor, Handle.index_ofIndex]; omega) member
      · exact nextIH (by simp only [Point.anchor, Handle.index_ofIndex]; omega) member

end Layout

namespace Arena

variable {a : Arena} {l : Layout} {base : Nat} {previous : Option Handle}

/-- The command that a link leads to. -/
def target? (a : Arena) : Point → Option Handle
  | .after h => a.next? h
  | .inside owner branch => a.child? owner branch

/-- Every link leads from a slot to a later one, so that every walk along links ends. -/
def Ascends (a : Arena) : Prop :=
  ∀ p h, a.target? p = some h → p.anchor.index < h.index ∧ h.index < a.slots.size

namespace Drawn

section

variable {stop : Option Handle} {command : Command} {first second next : Layout}
  (drawn : a.Drawn stop base previous (.step command first second next))

include drawn

theorem node?_ofIndex :
    a.node? (.ofIndex base) = some (Layout.node stop base previous command first second next) :=
  drawn.1

theorem previous?_ofIndex : a.previous? (.ofIndex base) = previous := by
  rw [previous?, drawn.node?_ofIndex]
  rfl

theorem next?_ofIndex :
    a.next? (.ofIndex base) = next.start (base + 1 + first.size + second.size) stop := by
  rw [next?, drawn.node?_ofIndex]
  rfl

/-- The first commands of the branches, whether there are branches or not. -/
theorem child?_ofIndex (branch : Nat) :
    a.child? (.ofIndex base) branch = Layout.branch base first second branch := by
  rw [child?, drawn.node?_ofIndex]
  obtain ⟨_, owns | ⟨rfl, rfl⟩, _⟩ := drawn
  · simp only [Option.bind_some, Layout.node, Layout.heads, owns, if_true]
    rcases branch with _ | _ | branch
    · rfl
    · cases second <;> rfl
    · cases second <;> rfl
  · simp only [Option.bind_some, Layout.node, Layout.heads]
    rcases branch with _ | _ | branch
    · split <;> rfl
    · split <;> rfl
    · split <;> rfl

end

theorem previous?_start (drawn : a.Drawn none base previous l) {h : Handle}
    (starts : l.start base none = some h) : a.previous? h = previous := by
  cases l with
  | done => cases starts
  | step =>
      cases starts
      exact drawn.previous?_ofIndex

/-- The links inside a layout are there, and the commands know what is before them. -/
theorem of_mem_links {entry : Point} (drawn : a.Drawn none base previous l) {p : Point} {h : Handle}
    (member : (p, h) ∈ (l.links entry base).tail) :
    a.target? p = some h ∧ a.previous? h = p.previous? := by
  induction l generalizing entry base previous with
  | done => cases member
  | step command first second next firstIH secondIH nextIH =>
      have inFirst := drawn.2.2.1
      have inSecond := drawn.2.2.2.1
      have behind := drawn.2.2.2.2
      simp only [Layout.links, List.tail_cons, List.mem_append] at member
      rcases member with member | member | member
      · rcases Layout.mem_links_iff.mp member with ⟨rfl, starts⟩ | member
        · exact ⟨(drawn.child?_ofIndex 0).trans starts, inFirst.previous?_start starts⟩
        · exact firstIH inFirst member
      · rcases Layout.mem_links_iff.mp member with ⟨rfl, starts⟩ | member
        · exact ⟨(drawn.child?_ofIndex 1).trans starts, inSecond.previous?_start starts⟩
        · exact secondIH inSecond member
      · rcases Layout.mem_links_iff.mp member with ⟨rfl, starts⟩ | member
        · exact ⟨drawn.next?_ofIndex.trans starts, behind.previous?_start starts⟩
        · exact nextIH behind member

/-- There are no other links from its commands. -/
theorem mem_links {entry : Point} (drawn : a.Drawn none base previous l) {p : Point} {h : Handle}
    (inside : p.anchor ∈ l.handles base) (leads : a.target? p = some h) :
    (p, h) ∈ (l.links entry base).tail := by
  induction l generalizing entry base previous with
  | done => cases inside
  | step command first second next firstIH secondIH nextIH =>
      have inFirst := drawn.2.2.1
      have inSecond := drawn.2.2.2.1
      have behind := drawn.2.2.2.2
      have enter : ∀ (l : Layout) (base : Nat), l.start base none = some h →
          (p, h) ∈ l.links p base := fun l base starts => Layout.mem_links_iff.mpr (.inl ⟨rfl, starts⟩)
      rw [Layout.handles_step] at inside
      simp only [List.mem_cons, List.mem_append] at inside
      simp only [Layout.links, List.tail_cons, List.mem_append]
      rcases inside with own | inside | inside | inside
      · cases p with
        | after h =>
            cases own
            exact .inr (.inr (enter _ _ (drawn.next?_ofIndex.symm.trans leads)))
        | inside owner branch =>
            cases own
            have starts := (drawn.child?_ofIndex branch).symm.trans leads
            rcases branch with _ | _ | branch
            · exact .inl (enter _ _ starts)
            · exact .inr (.inl (enter _ _ starts))
            · cases starts
      · exact .inl (List.mem_of_mem_tail (firstIH inFirst inside))
      · exact .inr (.inl (List.mem_of_mem_tail (secondIH inSecond inside)))
      · exact .inr (.inr (List.mem_of_mem_tail (nextIH behind inside)))

/-- The branches that are not empty. -/
theorem heads_node {command : Command} {first second next : Layout}
    (drawn : a.Drawn none base previous (.step command first second next)) :
    (Layout.node none base previous command first second next).heads =
      (first.start (base + 1) none).toList ++ (second.start (base + 1 + first.size) none).toList := by
  simp only [Node.heads, Layout.node, Layout.heads]
  rcases drawn.2.1 with owns | ⟨rfl, rfl⟩
  · rw [if_pos owns]
    cases first <;> cases second <;> rfl
  · split <;> rfl

/-- The walk meets the commands of a layout in their order. -/
theorem handles_walkFrom (drawn : a.Drawn none base previous l) {limit : Nat}
    (enough : l.size ≤ limit) (depth : Nat) :
    ((l.start base none).toList.flatMap (a.walkFrom (fun _ => true) limit depth)).map (·.handle) =
      l.handles base := by
  induction l generalizing base previous limit depth with
  | done => rfl
  | step command first second next firstIH secondIH nextIH =>
      have node := drawn.node?_ofIndex
      have heads := drawn.heads_node
      obtain ⟨-, -, inFirst, inSecond, behind⟩ := drawn
      rw [Layout.size_step] at enough
      cases limit with
      | zero => omega
      | succ limit =>
          have after : (Layout.node none base previous command first second next).next =
              next.start (base + 1 + first.size + second.size) none := rfl
          have startOf : (Layout.step command first second next).start base none =
              some (.ofIndex base) := rfl
          simp only [startOf, Option.toList_some, List.flatMap_cons, List.flatMap_nil,
            List.append_nil, walkFrom, node, heads, after, if_true, List.flatMap_append,
            List.map_append, List.map_cons, Layout.handles_step, List.cons_append,
            List.append_assoc]
          rw [firstIH inFirst (by omega), secondIH inSecond (by omega), nextIH behind (by omega)]

/-- A command with its branches. -/
theorem subtree_eq {command : Command} {first second next : Layout}
    (drawn : a.Drawn none base previous (.step command first second next))
    (enough : first.size + second.size ≤ a.slots.size) :
    a.subtree (.ofIndex base) =
      .ofIndex base :: (first.handles (base + 1) ++ second.handles (base + 1 + first.size)) := by
  have node := drawn.node?_ofIndex
  have heads := drawn.heads_node
  obtain ⟨-, -, inFirst, inSecond, -⟩ := drawn
  rw [subtree, node]
  simp only [heads, List.flatMap_append]
  unfold commandsFrom walk
  rw [← List.map_flatMap, ← List.map_flatMap, inFirst.handles_walkFrom (by omega),
    inSecond.handles_walkFrom (by omega)]

/-- The commands are found under their handles. -/
theorem commands_handles (drawn : a.Drawn none base previous l) :
    (l.handles base).map a.command? = l.commands.map some := by
  induction l generalizing base previous with
  | done => rfl
  | step command first second next firstIH secondIH nextIH =>
      have node := drawn.node?_ofIndex
      obtain ⟨-, -, inFirst, inSecond, behind⟩ := drawn
      simp only [Layout.handles_step, List.map_cons, List.map_append, Layout.commands,
        firstIH inFirst, secondIH inSecond, nextIH behind, command?, node]
      rfl

end Drawn

/-! ## Walks and commands -/

section

variable {b : Arena} {f : Handle → Command → Command}
  (nodes : ∀ h, b.node? h = (a.node? h).map fun node => { node with command := f h node.command })

include nodes

/-- A walk looks at links only. -/
theorem handles_walkFrom_congr (limit depth : Nat) (h : Handle) :
    (b.walkFrom (fun _ => true) limit depth h).map (·.handle) =
      (a.walkFrom (fun _ => true) limit depth h).map (·.handle) := by
  induction limit generalizing depth h with
  | zero => rfl
  | succ limit ih =>
      rw [walkFrom, walkFrom, nodes]
      cases a.node? h with
      | none => rfl
      | some node =>
          simp only [Option.map_some, if_true, List.map_append, List.map_cons, List.map_flatMap, ih]
          rfl

theorem commandsFrom_congr (size : b.slots.size = a.slots.size) (h : Handle) :
    b.commandsFrom h = a.commandsFrom h := by
  rw [commandsFrom, commandsFrom, walk, walk, size]
  exact handles_walkFrom_congr nodes _ _ _

theorem subtree_congr (size : b.slots.size = a.slots.size) (h : Handle) :
    b.subtree h = a.subtree h := by
  rw [subtree, subtree, nodes, funext (commandsFrom_congr nodes size)]
  cases a.node? h <;> rfl

theorem next?_congr (h : Handle) : b.next? h = a.next? h := by
  rw [next?, next?, nodes]
  cases a.node? h <;> rfl

theorem child?_congr (h : Handle) (branch : Nat) : b.child? h branch = a.child? h branch := by
  rw [child?, child?, nodes]
  cases a.node? h <;> rfl

end

/-! ## Well-formed sequences -/

/-- The links from `head` on form a tree that holds every command once. -/
structure WellLinked (a : Arena) (head : Handle) : Prop where
  /-- The walk meets every command once and nothing else, -/
  once : ∀ h, (a.commandsFrom head).count h = if a.contains h then 1 else 0
  /-- so it is as long as the arena is full. -/
  length : (a.commandsFrom head).length = a.live
  /-- A command follows another one exactly if that one is before it. -/
  back : ∀ h other, a.contains h → a.contains other →
    (a.next? h = some other ↔ a.previous? other = some h)
  headFirst : a.previous? head = none
  /-- The first command of a branch has none before it. -/
  branchFirst : ∀ owner branch h, a.child? owner branch = some h → a.previous? h = none
  /-- Exactly one link leads to each command but the head. -/
  owner : ∀ h, a.contains h → h ≠ head →
    ∃ p, a.target? p = some h ∧ ∀ other, a.target? other = some h → other = p

namespace Drawn

variable (drawn : a.Drawn none 0 none l) (fresh : a.Fresh) (full : a.slots.size = l.size)

include fresh full in
theorem contains_iff (h : Handle) : a.contains h ↔ h ∈ l.handles 0 := by
  rw [fresh.contains_iff, Layout.mem_handles, full]
  simp

include drawn fresh full

/-- The links of a whole arena are those of its layout. -/
theorem target?_eq_some_iff (entry p : Point) (h : Handle) :
    a.target? p = some h ↔ (p, h) ∈ (l.links entry 0).tail := by
  constructor
  · intro leads
    have live : a.contains p.anchor := by
      cases p with
      | after last =>
          obtain ⟨node, found, -⟩ := Option.bind_eq_some_iff.mp leads
          rw [Point.anchor, contains, found]
          rfl
      | inside owner branch =>
          obtain ⟨node, found, -⟩ := Option.bind_eq_some_iff.mp leads
          rw [Point.anchor, contains, found]
          rfl
    exact drawn.mem_links ((contains_iff fresh full _).mp live) leads
  · intro member
    exact (drawn.of_mem_links member).1

/-- A command that is not the first one is the target of a link. -/
theorem exists_target? {h : Handle} (live : a.contains h) (inner : l.start 0 none ≠ some h) :
    ∃ p, a.target? p = some h ∧ a.previous? h = p.previous? ∧
      ∀ other, a.target? other = some h → other = p := by
  have leads := target?_eq_some_iff drawn fresh full (.after h)
  have targeted := (contains_iff fresh full h).mp live
  have distinct := l.nodup_handles 0
  rw [← Layout.targets_links (.after h)] at targeted distinct
  obtain ⟨⟨p, target⟩, member, rfl⟩ := List.mem_map.mp targeted
  rcases Layout.mem_links_iff.mp member with ⟨_, starts⟩ | inside
  · exact absurd starts inner
  · refine ⟨p, (leads p _).mpr inside, (drawn.of_mem_links inside).2, fun other leadsOther => ?_⟩
    have otherMember := List.mem_of_mem_tail ((leads other _).mp leadsOther)
    have same := List.inj_on_of_nodup_map distinct otherMember member rfl
    exact congrArg Prod.fst same

/-- The links of a whole arena lead to later slots. -/
theorem ascends : a.Ascends := by
  intro p h leads
  have member : (p, h) ∈ (l.links (.after (.ofIndex 0)) 0).tail :=
    (target?_eq_some_iff drawn fresh full _ p h).mp leads
  constructor
  · cases l with
    | done => cases member
    | step command first second next =>
        simp only [Layout.links, List.tail_cons, List.mem_append] at member
        rcases member with member | member | member
        · exact Layout.index_lt_of_mem_links (Nat.lt_succ_self 0) member
        · refine Layout.index_lt_of_mem_links ?_ member
          simp only [Point.anchor, Handle.index_ofIndex]
          omega
        · refine Layout.index_lt_of_mem_links ?_ member
          simp only [Point.anchor, Handle.index_ofIndex]
          omega
  · have inside : h ∈ l.handles 0 := by
      rw [← Layout.targets_links (.after (.ofIndex 0))]
      exact List.mem_map_of_mem (List.mem_of_mem_tail member)
    obtain ⟨index, -, above, rfl⟩ := Layout.mem_handles.mp inside
    rw [full, Handle.index_ofIndex]
    omega

omit fresh in
/-- The commands of the sequence are those of the layout. -/
theorem commandsFrom_eq (nonempty : l ≠ .done) : a.commandsFrom (.ofIndex 0) = l.handles 0 := by
  have walked := drawn.handles_walkFrom (Nat.le_of_eq full.symm) 0
  rw [Layout.start_of_ne nonempty] at walked
  simpa [commandsFrom, walk] using walked

/-- A whole arena that draws a layout is well linked. -/
theorem wellLinked (nonempty : l ≠ .done) : a.WellLinked (.ofIndex 0) := by
  have starts := Layout.start_of_ne nonempty 0 none
  have handles := commandsFrom_eq drawn full nonempty
  have leads := target?_eq_some_iff drawn fresh full (.after (.ofIndex 0))
  constructor
  · intro h
    rw [handles, (l.nodup_handles 0).count]
    simp only [contains_iff fresh full]
  · rw [handles, fresh.live, full]
    simp [Layout.handles]
  · intro h other live otherLive
    constructor
    · intro follows
      exact (drawn.of_mem_links ((leads (.after h) other).mp follows)).2
    · intro before
      have inner : l.start 0 none ≠ some other := by
        intro first
        rw [drawn.previous?_start first] at before
        cases before
      obtain ⟨p, toOther, back, -⟩ := exists_target? drawn fresh full otherLive inner
      rw [before] at back
      cases p with
      | after last =>
          cases back
          exact toOther
      | inside => cases back
  · exact drawn.previous?_start starts
  · intro owner branch h first
    exact (drawn.of_mem_links ((leads (.inside owner branch) h).mp first)).2
  · intro h live different
    have inner : l.start 0 none ≠ some h := by
      rw [starts]
      intro same
      exact different (Option.some.inj same).symm
    obtain ⟨p, toCommand, -, only⟩ := exists_target? drawn fresh full live inner
    exact ⟨p, toCommand, only⟩

end Drawn

end Arena

end MissionScript
