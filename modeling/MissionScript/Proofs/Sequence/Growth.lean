import MissionScript.Proofs.Sequence.Layout

/-!
# Growing a sequence

An arena grows at a point by a layout: the commands of the layout are added behind all others, and one
link leads to the first of them. Layouts grow command by command and branch by branch, and a draft
always knows the point where the next command goes.
-/

namespace MissionScript

namespace Arena

variable {a b c : Arena} {p : Point} {l more : Layout}

/-- `b` is `a` grown by the layout `l` at the point `p`. -/
structure Grown (a b : Arena) (p : Point) (l : Layout) : Prop where
  size : b.slots.size = a.slots.size + l.size
  drawn : b.Drawn none a.slots.size p.previous? l
  /-- Of the commands that were there before, only the one at the point has a new link. -/
  kept : ∀ h : Handle, h.index < a.slots.size →
    b.node? h = a.relinked? p (l.start a.slots.size none) h

namespace Grown

theorem refl (a : Arena) (p : Point) : Grown a a p .done where
  size := rfl
  drawn := trivial
  kept _ _ := rfl

/-- The command at the point has the new link. -/
theorem node?_anchor (grown : Grown a b p l) (nonempty : l ≠ .done) {h : Handle}
    (anchor : h = p.anchor) (inside : h.index < a.slots.size) :
    b.node? h = (a.node? h).map (p.lay (.ofIndex a.slots.size)) := by
  rw [grown.kept h inside]
  cases l with
  | done => exact absurd rfl nonempty
  | step => exact relinked?_of_eq anchor _

theorem node?_of_ne (grown : Grown a b p l) {h : Handle} (different : h ≠ p.anchor)
    (inside : h.index < a.slots.size) : b.node? h = a.node? h := by
  rw [grown.kept h inside, relinked?_of_ne different]

/-- A new command that is linked at a point. -/
theorem single (command : Command)
    (linked : Linked (a.push (.ofCommand command)) b p (.ofIndex a.slots.size)) :
    Grown a b p (.step command .done .done .done) where
  size := by simp [linked.size]
  drawn := by
    refine ⟨?_, .inr ⟨rfl, rfl⟩, trivial, trivial, trivial⟩
    rw [linked.node, if_pos rfl, node?_push, if_pos rfl]
    simp only [Option.map_some, Option.some.injEq, Node.ofCommand, Layout.node, Layout.heads,
      Layout.start]
    rfl
  kept h inside := by
    have old : h ≠ .ofIndex a.slots.size := by
      rintro rfl
      exact absurd inside (Nat.lt_irrefl _)
    rw [linked.node, if_neg old, node?_push, if_neg old]
    rfl

/-- Growing twice, the second time behind what was added first. -/
theorem append (first : Grown a b p l)
    (second : Grown b c (l.tail a.slots.size p) more) : Grown a c p (l ++ more) where
  size := by
    rw [second.size, first.size, Layout.size_append]
    omega
  drawn := by
    rw [Drawn.append_iff]
    have drawn := second.drawn
    rw [first.size] at drawn
    refine ⟨?_, drawn⟩
    by_cases nothing : l = .done
    · subst nothing
      trivial
    · refine first.drawn.relink (p := p) nothing fun index _ high => ?_
      rw [second.kept _ (by rw [first.size]; exact high), first.size]
  kept h inside := by
    have small : h.index < b.slots.size := by
      rw [first.size]
      omega
    rw [second.kept h small]
    cases l with
    | done =>
        have sizes := first.size
        have same : ∀ x : Handle, x.index < a.slots.size → b.node? x = a.node? x := first.kept
        rw [Layout.size_done, Nat.add_zero] at sizes
        rw [sizes]
        unfold relinked?
        rw [same h inside]
        rfl
    | step command inFirst inSecond next =>
        obtain ⟨index, tail, low, _⟩ := Layout.tail_of_step
          (.step command inFirst inSecond next) (by simp) a.slots.size p
        have different : h ≠ (Layout.tail a.slots.size p
            (.step command inFirst inSecond next)).anchor := by
          rw [tail]
          rintro rfl
          exact absurd inside (Nat.not_lt.mpr low)
        rw [relinked?_of_ne different, first.kept h inside]
        rfl

variable {owner : Command}

/-- The chain in the first branch of a command. -/
theorem inFirst (opened : Grown a b p (.step owner .done .done .done))
    (owns : owner.kind.ownsBranches)
    (inside : Grown b c (.inside (.ofIndex a.slots.size) 0) l) :
    Grown a c p (.step owner l .done .done) where
  size := by
    rw [inside.size, opened.size]
    simp
    omega
  drawn := by
    obtain ⟨node, -⟩ := opened.drawn
    have drawn := inside.drawn
    rw [opened.size] at drawn
    refine ⟨?_, .inl owns, drawn, trivial, trivial⟩
    have small : a.slots.size < b.slots.size := by simp [opened.size]
    cases l with
    | done => exact (inside.kept _ small).trans node
    | step =>
        rw [inside.node?_anchor (h := .ofIndex a.slots.size) (by simp) rfl small, node]
        simp [opened.size, Point.lay, Layout.node, Layout.heads, Layout.start, owns, Node.setBranch]
  kept h small := by
    have different : h ≠ .ofIndex a.slots.size := by
      rintro rfl
      exact absurd small (Nat.lt_irrefl _)
    rw [inside.kept h (by rw [opened.size]; omega), relinked?_of_ne different, opened.kept h small]
    rfl

/-- The chain in the second branch of a command. -/
theorem inSecond (opened : Grown a b p (.step owner more .done .done))
    (owns : owner.kind.ownsBranches)
    (inside : Grown b c (.inside (.ofIndex a.slots.size) 1) l) :
    Grown a c p (.step owner more l .done) where
  size := by
    rw [inside.size, opened.size]
    simp
    omega
  drawn := by
    obtain ⟨node, _, drawnFirst, -⟩ := opened.drawn
    have drawn := inside.drawn
    have sizes : b.slots.size = a.slots.size + 1 + more.size := by
      rw [opened.size]
      simp
      omega
    rw [sizes] at drawn
    refine ⟨?_, .inl owns, drawnFirst.congr fun index low high => ?_, drawn, trivial⟩
    · have small : a.slots.size < b.slots.size := by omega
      cases l with
      | done => exact (inside.kept _ small).trans node
      | step =>
          rw [inside.node?_anchor (h := .ofIndex a.slots.size) (by simp) rfl small, node]
          simp [sizes, Point.lay, Layout.node, Layout.heads, Layout.start, owns, Node.setBranch]
    · have different : Handle.ofIndex index ≠ .ofIndex a.slots.size := by
        rw [ne_eq, Handle.ofIndex_inj]
        omega
      rw [inside.kept _ (by rw [sizes]; exact high), relinked?_of_ne different]
  kept h small := by
    have different : h ≠ .ofIndex a.slots.size := by
      rintro rfl
      exact absurd small (Nat.lt_irrefl _)
    rw [inside.kept h (by rw [opened.size]; omega), relinked?_of_ne different, opened.kept h small]
    rfl

end Grown

/-! ## The point for the next command -/

/-- The chain of a drawn layout ends with its last command. -/
theorem Drawn.path {base : Nat} {previous : Option Handle} (drawn : a.Drawn none base previous l)
    (nonempty : l ≠ .done) (p : Point) :
    ∃ last, l.tail base p = .after last ∧ a.contains last ∧ a.Path (.ofIndex base) last := by
  induction l generalizing base previous p with
  | done => exact absurd rfl nonempty
  | step command first second next _ _ ih =>
      obtain ⟨node, _, _, _, after⟩ := drawn
      have link : a.next? (.ofIndex base) =
          next.start (base + 1 + first.size + second.size) none := by
        simp [next?, node, Layout.node]
      have live : a.contains (.ofIndex base) := by
        simp [contains, node]
      by_cases last : next = .done
      · subst last
        exact ⟨_, rfl, live, .last link⟩
      · obtain ⟨final, tail, finalLive, path⟩ := ih after last (.after (.ofIndex base))
        refine ⟨final, tail, finalLive, .next (link.trans ?_) ?_ path⟩
        · cases next with
          | done => exact absurd rfl last
          | step => rfl
        · simp only [Handle.index_ofIndex]
          omega

theorem index_lt_of_contains {h : Handle} (live : a.contains h) : h.index < a.slots.size := by
  obtain ⟨node, found⟩ := Option.isSome_iff_exists.mp live
  exact (slot_of_node? found).1

namespace Grown

theorem contains (grown : Grown a b p l) {h : Handle} (live : a.contains h) : b.contains h := by
  have inside := index_lt_of_contains live
  obtain ⟨node, found⟩ := Option.isSome_iff_exists.mp live
  by_cases anchor : h = p.anchor
  · by_cases nothing : l = .done
    · subst nothing
      rw [Arena.contains, grown.kept h inside]
      exact live
    · rw [Arena.contains, grown.node?_anchor nothing anchor inside, found]
      rfl
  · rw [Arena.contains, grown.node?_of_ne anchor inside]
    exact live

/-- A chain that ended at the point goes on with the chain that was added. -/
theorem path (grown : Grown a b p l) (nonempty : l ≠ .done) {first last final : Handle}
    (point : p = .after last) (live : a.contains last) (old : a.Path first last)
    (new : b.Path (.ofIndex a.slots.size) final) : b.Path first final := by
  have inside := index_lt_of_contains live
  obtain ⟨node, found⟩ := Option.isSome_iff_exists.mp live
  subst point
  refine old.extend (fun other before => ?_) (.next ?_ inside new)
  · have different : other ≠ last := by
      rintro rfl
      exact absurd before (Nat.lt_irrefl _)
    rw [next?, grown.node?_of_ne different (Nat.lt_trans before inside)]
    rfl
  · rw [next?, grown.node?_anchor (h := last) nonempty rfl inside, found]
    rfl

/-- A link to the next command leaves the branches alone. -/
theorem child?_of_after (grown : Grown a b p l) (nonempty : l ≠ .done) {last owner : Handle}
    {number : Nat} (point : p = .after last) (live : a.contains owner) :
    b.child? owner number = a.child? owner number := by
  have inside := index_lt_of_contains live
  subst point
  unfold child?
  by_cases anchor : owner = last
  · rw [grown.node?_anchor nonempty anchor inside, Option.bind_map]
    rfl
  · rw [grown.node?_of_ne anchor inside]

/-- A chain that was added in an empty branch is that branch. -/
theorem child?_inside {owner : Handle} {number : Nat} (grown : Grown a b (.inside owner number) l)
    (nonempty : l ≠ .done) (live : a.contains owner) :
    b.child? owner number = some (.ofIndex a.slots.size) := by
  obtain ⟨node, found⟩ := Option.isSome_iff_exists.mp live
  have wide : number < node.branches.length + (number + 1 - node.branches.length) := by omega
  rw [child?, grown.node?_anchor (h := owner) nonempty rfl (index_lt_of_contains live), found]
  simp [Point.lay, Node.setBranch, wide]

end Grown

/-- Commands that belong in a place, a branch or the chain of `head`, are linked at a point. -/
inductive Awaits (a : Arena) (head : Handle) : Option (Handle × Nat) → Point → Prop where
  /-- On the main line. -/
  | main {last : Handle} : a.Path head last → a.contains last → a.Awaits head none (.after last)
  /-- At the end of a branch. -/
  | branch {owner first last : Handle} {number : Nat} :
      a.child? owner number = some first → a.Path first last → a.contains owner →
      a.contains last → a.Awaits head (some (owner, number)) (.after last)
  | empty {owner : Handle} {number : Nat} :
      a.child? owner number = none → a.contains owner →
      a.Awaits head (some (owner, number)) (.inside owner number)

namespace Awaits

variable {head : Handle} {place : Option (Handle × Nat)}

/-- Where commands go hangs on the commands that are there. -/
theorem congr (awaits : a.Awaits head place p)
    (kept : ∀ h : Handle, h.index < a.slots.size → b.node? h = a.node? h) :
    b.Awaits head place p := by
  have path : ∀ first last : Handle, a.contains last → a.Path first last →
      b.Path first last := by
    intro first last live path
    have inside := index_lt_of_contains live
    refine path.extend (fun other before => ?_) (.last ?_)
    · rw [next?, kept other (Nat.lt_trans before inside)]
      rfl
    · rw [next?, kept last inside]
      exact path.next?_last
  have contains : ∀ h : Handle, a.contains h → b.contains h := by
    intro h live
    rw [Arena.contains, kept h (index_lt_of_contains live)]
    exact live
  have child : ∀ (h : Handle) (number : Nat), a.contains h →
      b.child? h number = a.child? h number := by
    intro h number live
    rw [child?, kept h (index_lt_of_contains live)]
    rfl
  cases awaits with
  | main chain live => exact .main (path _ _ live chain) (contains _ live)
  | branch head chain owner live =>
      exact .branch ((child _ _ owner).trans head) (path _ _ live chain) (contains _ owner)
        (contains _ live)
  | empty head owner => exact .empty ((child _ _ owner).trans head) (contains _ owner)

/-- After growing, the next command goes behind what was added. -/
theorem grow (awaits : a.Awaits head place p) (grown : Grown a b p l) :
    b.Awaits head place (l.tail a.slots.size p) := by
  by_cases nothing : l = .done
  · subst nothing
    exact awaits.congr grown.kept
  · obtain ⟨last, tail, lastLive, path⟩ := grown.drawn.path nothing p
    rw [tail]
    cases awaits with
    | main old live => exact .main (grown.path nothing rfl live old path) lastLive
    | branch head old owner live =>
        exact .branch ((grown.child?_of_after nothing rfl owner).trans head)
          (grown.path nothing rfl live old path) (grown.contains owner) lastLive
    | empty head owner =>
        exact .branch (grown.child?_inside nothing owner) path (grown.contains owner) lastLive

/-- A command that has been added awaits commands in its first branch, -/
theorem first {owner : Command} (grown : Grown a b p (.step owner .done .done .done)) :
    b.Awaits head (some (.ofIndex a.slots.size, 0)) (.inside (.ofIndex a.slots.size) 0) := by
  obtain ⟨node, -⟩ := grown.drawn
  refine .empty ?_ (by simp [Arena.contains, node])
  by_cases owns : owner.kind.ownsBranches
  · simp [child?, node, Layout.node, Layout.heads, Layout.start, owns]
  · simp [child?, node, Layout.node, Layout.heads, owns]

/-- and then in its second one. -/
theorem second {owner : Command} (grown : Grown a b p (.step owner l .done .done)) :
    b.Awaits head (some (.ofIndex a.slots.size, 1)) (.inside (.ofIndex a.slots.size) 1) := by
  obtain ⟨node, -⟩ := grown.drawn
  refine .empty ?_ (by simp [Arena.contains, node])
  by_cases owns : owner.kind.ownsBranches
  · simp [child?, node, Layout.node, Layout.heads, Layout.start, owns]
  · simp [child?, node, Layout.node, Layout.heads, owns]

end Awaits

/-! ## Adding the next command -/

section

variable {head : Handle} (fresh : a.Fresh) (command : Command)

include fresh

/-- A new command is linked at the end of a chain. -/
theorem exists_append {first last : Handle} (path : a.Path first last) (live : a.contains last) :
    ∃ b, Edit.append first (.ofIndex a.slots.size) (a.push (.ofCommand command)) = (.ok (), b) ∧
      Grown a b (.after last) (.step command .done .done .done) ∧ b.Fresh := by
  have inside := index_lt_of_contains live
  have kept : ∀ h : Handle, h.index < a.slots.size →
      (a.push (.ofCommand command)).node? h = a.node? h := by
    intro h small
    rw [node?_push, if_neg]
    rintro rfl
    exact absurd small (Nat.lt_irrefl _)
  have pathNow : (a.push (.ofCommand command)).Path first last := by
    refine path.extend (fun other before => ?_) (.last ?_)
    · rw [next?, kept other (Nat.lt_trans before inside)]
      rfl
    · rw [next?, kept last inside]
      exact path.next?_last
  obtain ⟨node, found⟩ := Option.isSome_iff_exists.mp live
  have different : last ≠ .ofIndex a.slots.size := by
    rintro rfl
    exact absurd inside (Nat.lt_irrefl _)
  obtain ⟨b, ran, linked⟩ := Edit.setNext_linked different ((kept last inside).trans found)
    ((node?_push _).trans (if_pos rfl))
  refine ⟨b, ?_, Grown.single command linked, linked.fresh fresh.push⟩
  unfold Edit.append
  rw [Step.get_bind, pathNow.last_eq (by rw [size_push]; omega)]
  exact ran

/-- A new command is linked at the end of a branch. -/
theorem exists_appendToBranch {owner : Handle} {number : Nat}
    (awaits : a.Awaits head (some (owner, number)) p) :
    ∃ b, Edit.appendToBranch owner number (.ofIndex a.slots.size) (a.push (.ofCommand command)) =
        (.ok (), b) ∧
      Grown a b p (.step command .done .done .done) ∧ b.Fresh := by
  have same : ∀ h : Handle, a.contains h →
      (a.push (.ofCommand command)).node? h = a.node? h ∧ h ≠ .ofIndex a.slots.size := by
    intro h live
    have old : h ≠ .ofIndex a.slots.size := by
      rintro rfl
      exact absurd (index_lt_of_contains live) (Nat.lt_irrefl _)
    exact ⟨by rw [node?_push, if_neg old], old⟩
  have child : ∀ h : Handle, a.contains h → (a.push (.ofCommand command)).child? h number =
      a.child? h number := by
    intro h live
    rw [child?, (same h live).1]
    rfl
  unfold Edit.appendToBranch
  rw [Step.get_bind]
  cases awaits with
  | branch first path owner live =>
      rw [child _ owner, first]
      exact exists_append fresh command path live
  | empty vacant owner =>
      obtain ⟨node, found⟩ := Option.isSome_iff_exists.mp owner
      obtain ⟨b, ran, linked⟩ := Edit.setBranch_linked number (same _ owner).2
        ((same _ owner).1.trans found) ((node?_push _).trans (if_pos rfl))
      rw [child _ owner, vacant]
      exact ⟨b, ran, Grown.single command linked, linked.fresh fresh.push⟩

end

end Arena

end MissionScript
