import Mathlib.Data.List.ReduceOption
import MissionScript.Proofs.Sequence.WellFormed

/-!
# Deletions

Deleting a command that no link leads to deletes the tree below it and nothing else: no two links of an
arena lead to one command, so nothing outside of the tree leads into it, and no command of it is met
twice.
-/

namespace MissionScript

namespace Arena

/-- `b` is `a` without some commands. -/
structure Without (a b : Arena) (gone : Handle → Prop) : Prop where
  none : ∀ {h}, gone h → b.node? h = none
  kept : ∀ {h}, ¬ gone h → b.node? h = a.node? h

variable {a b c : Arena} {h other : Handle} {node : Node} {p : Point} {gone : Handle → Prop}

theorem without_of_release? (released : a.release? h = some (node, b)) : a.Without b (· = h) where
  none same := by rw [node?_of_release? released, if_pos same]
  kept different := by rw [node?_of_release? released, if_neg different]

namespace Without

variable (without : a.Without b gone)

include without

theorem contains_iff : b.contains h ↔ a.contains h ∧ ¬ gone h := by
  by_cases out : gone h
  · simp [contains, without.none out, out]
  · simp [contains, without.kept out, out]

/-- The links of the commands that are left. -/
theorem linkage : b.linkage = a.linkage.drop gone := by
  refine Linkage.ext ?_ (funext fun p => ?_) (funext fun other => ?_)
  · exact funext fun h => propext without.contains_iff
  · rw [target_linkage, target?_eq]
    by_cases out : gone p.anchor
    · rw [without.none out]
      exact (if_pos out).symm
    · rw [without.kept out, ← target?_eq]
      exact (if_neg out).symm
  · rw [previous_linkage, previous?]
    by_cases out : gone other
    · rw [without.none out]
      exact (if_pos out).symm
    · rw [without.kept out]
      exact (if_neg out).symm

theorem branches (owned : a.BranchesOwned) : b.BranchesOwned := by
  intro h node found own
  by_cases out : gone h
  · rw [without.none out] at found
    cases found
  · exact owned h node ((without.kept out).symm.trans found) own

theorem congr {left : Handle → Prop} (same : ∀ h, gone h ↔ left h) : a.Without b left where
  none out := without.none ((same _).mpr out)
  kept stays := without.kept fun out => stays ((same _).mp out)

theorem trans {more : Handle → Prop} (next : b.Without c more) :
    a.Without c fun h => gone h ∨ more h where
  none := by
    intro h out
    by_cases again : more h
    · exact next.none again
    · rw [next.kept again]
      exact without.none (out.resolve_right again)
  kept stays := by
    rw [next.kept (stays ∘ .inr)]
    exact without.kept (stays ∘ .inl)

end Without

/-! ## Trees -/

/-- The first commands of the branches of a node. -/
theorem child?_eq_some_iff (found : a.node? other = some node) :
    (∃ branch, a.child? other branch = some h) ↔ h ∈ node.heads := by
  rw [Node.heads, List.reduceOption_mem_iff, List.mem_iff_getElem?]
  simp only [child?, found, Option.bind_some, Option.join_eq_some_iff]

/-- The commands to which the links of a node lead. -/
theorem mem_links_of_node? (found : a.node? h = some node) :
    other ∈ node.heads ++ node.next.toList ↔ a.linkage.Owns h other := by
  have read {p : Point} (anchor : p.anchor = h) : a.linkage.target p = p.read? node :=
    target?_of_node? (anchor ▸ found)
  rw [List.mem_append, Node.heads, List.reduceOption_mem_iff, List.mem_iff_getElem?,
    Option.mem_toList]
  constructor
  · rintro (⟨branch, head⟩ | next)
    · refine ⟨.inside h branch, rfl, (read rfl).trans ?_⟩
      rw [Point.read?, head]
      rfl
    · exact ⟨.after h, rfl, (read rfl).trans next⟩
  · rintro ⟨p, anchor, leads⟩
    rw [read anchor] at leads
    cases p with
    | after last => exact .inr leads
    | inside owner branch => exact .inl ⟨branch, Option.join_eq_some_iff.mp leads⟩

/-- No two links of a node lead to one command. -/
theorem nodup_links_of_node? (forked : a.linkage.Forked) (found : a.node? h = some node) :
    (node.heads ++ node.next.toList).Nodup := by
  have child {branch : Nat} {head : Handle} (held : node.branches[branch]? = some (some head)) :
      a.linkage.target (.inside h branch) = some head := by
    rw [target_linkage, target?_of_node? found, Point.read?, held]
    rfl
  refine List.nodup_append.mpr ⟨?_, ?_, ?_⟩
  · refine List.pairwise_filterMap.mpr (List.pairwise_iff_getElem.mpr ?_)
    rintro i j inI inJ before first heldFirst second heldSecond rfl
    have first := child (List.getElem?_eq_some_iff.mpr ⟨inI, heldFirst⟩)
    have second := child (List.getElem?_eq_some_iff.mpr ⟨inJ, heldSecond⟩)
    cases forked.single first second
    exact Nat.lt_irrefl _ before
  · cases node.next <;> simp
  · rintro first isHead second isNext rfl
    rw [Node.heads, List.reduceOption_mem_iff, List.mem_iff_getElem?] at isHead
    obtain ⟨branch, head⟩ := isHead
    have next : a.linkage.target (.after h) = some first := by
      rw [target_linkage, target?_of_node? found]
      exact Option.mem_toList.mp isNext
    cases forked.single (child head) next

/-! ## Sweeping -/

theorem sweep_of_stale (stale : a.release? h = none) (pending : List Handle) :
    a.sweep (h :: pending) = (.error (.staleHandle h), a) := by
  rw [sweep]
  split
  · rfl
  · rename_i released
    rw [stale] at released
    cases released

theorem sweep_of_release? (released : a.release? h = some (node, b)) (pending : List Handle) :
    a.sweep (h :: pending) = b.sweep (node.heads ++ node.next.toList ++ pending) := by
  rw [sweep]
  split
  · rename_i stale
    rw [released] at stale
    cases stale
  · rename_i taken
    cases released.symm.trans taken
    rfl

/-- Different commands to which no link leads. -/
structure Rooted (a : Arena) (roots : List Handle) : Prop where
  forked : a.linkage.Forked
  nodup : roots.Nodup
  live : ∀ r ∈ roots, a.contains r
  unowned : ∀ r ∈ roots, a.linkage.Unowned r

namespace Rooted

variable {pending : List Handle} (rooted : a.Rooted (h :: pending))
  (released : a.release? h = some (node, b))

include rooted released

/-- When a root is released, only its links are gone: the commands they led to are roots as well. -/
theorem release : b.Rooted (node.heads ++ node.next.toList ++ pending) := by
  have without := without_of_release? released
  have found := node?_eq_of_release? released
  have unowned := rooted.unowned h List.mem_cons_self
  obtain ⟨absent, nodup⟩ := List.nodup_cons.mp rooted.nodup
  refine ⟨?_, List.nodup_append.mpr ⟨nodup_links_of_node? rooted.forked found, nodup, ?_⟩, ?_, ?_⟩
  · rw [without.linkage]
    exact rooted.forked.drop fun leads same => absurd (same ▸ leads) (unowned _)
  · rintro r isLink _ isPending rfl
    obtain ⟨p, -, leads⟩ := (mem_links_of_node? found).mp isLink
    exact rooted.unowned r (List.mem_cons_of_mem _ isPending) p leads
  · intro r member
    rw [without.contains_iff]
    rcases List.mem_append.mp member with isLink | isPending
    · obtain ⟨p, -, leads⟩ := (mem_links_of_node? found).mp isLink
      exact ⟨(rooted.forked.live leads).2, fun same => unowned p (same ▸ leads)⟩
    · exact ⟨rooted.live r (List.mem_cons_of_mem _ isPending), fun same => absent (same ▸ isPending)⟩
  · intro r member
    rw [without.linkage]
    rcases List.mem_append.mp member with isLink | isPending
    · obtain ⟨p, anchor, leads⟩ := (mem_links_of_node? found).mp isLink
      intro q leadsToo
      obtain ⟨kept, leadsToo⟩ := Linkage.target_of_drop leadsToo
      exact kept (rooted.forked.single leadsToo leads ▸ anchor)
    · exact (rooted.unowned r (List.mem_cons_of_mem _ isPending)).drop

/-- A root and what the roots reach that are left once it is released are what the roots reached. -/
theorem reaches_release (other : Handle) :
    (other = h ∨ ∃ r ∈ node.heads ++ node.next.toList ++ pending, b.linkage.Reaches r other) ↔
      ∃ r ∈ h :: pending, a.linkage.Reaches r other := by
  have without := without_of_release? released
  have links {r : Handle} : r ∈ node.heads ++ node.next.toList ↔ a.linkage.Owns h r :=
    mem_links_of_node? (node?_eq_of_release? released)
  have unowned := rooted.unowned h List.mem_cons_self
  have different (r : Handle) (member : r ∈ node.heads ++ node.next.toList ++ pending) : r ≠ h :=
    (without.contains_iff.mp ((rooted.release released).live r member)).2
  rw [without.linkage]
  constructor
  · rintro (rfl | ⟨r, member, reaches⟩)
    · exact ⟨other, List.mem_cons_self, .refl⟩
    · rcases List.mem_append.mp member with isLink | isPending
      · exact ⟨h, List.mem_cons_self, .head (links.mp isLink) reaches.of_drop⟩
      · exact ⟨r, List.mem_cons_of_mem _ isPending, reaches.of_drop⟩
  · rintro ⟨r, member, reaches⟩
    rcases List.mem_cons.mp member with rfl | isPending
    · rcases Relation.ReflTransGen.cases_head reaches with same | ⟨next, owns, reaches⟩
      · exact .inl same.symm
      · have member := List.mem_append_left pending (links.mpr owns)
        exact .inr ⟨next, member, Linkage.Reaches.drop_root reaches unowned (different next member)⟩
    · have member := List.mem_append_right (node.heads ++ node.next.toList) isPending
      exact .inr ⟨r, member, reaches.drop_root unowned (different r member)⟩

end Rooted

/-- A sweep that starts at the roots of trees succeeds and deletes these trees. -/
theorem sweep_without (a : Arena) (pending : List Handle) (rooted : a.Rooted pending) :
    ∃ b, a.sweep pending = (.ok (), b) ∧
      a.Without b fun h => ∃ r ∈ pending, a.linkage.Reaches r h := by
  fun_induction sweep a pending with
  | case1 a =>
      refine ⟨a, rfl, ⟨?_, fun _ => rfl⟩⟩
      rintro h ⟨_, member, -⟩
      cases member
  | case2 a h pending stale =>
      obtain ⟨node, found⟩ := exists_node? (rooted.live h List.mem_cons_self)
      rw [release?_eq_none, found] at stale
      cases stale
  | case3 a h pending node b released ih =>
      obtain ⟨c, swept, rest⟩ := ih (rooted.release released)
      exact ⟨c, swept, ((without_of_release? released).trans rest).congr
        (rooted.reaches_release released)⟩

/-- Deleting a command that no link leads to, and that nothing follows, deletes what it reaches. -/
theorem delete_without (forked : a.linkage.Forked) (found : a.node? h = some node)
    (unowned : a.linkage.Unowned h) (last : a.next? h = none) :
    ∃ b, a.delete h = (.ok node.command, b) ∧ a.Without b (a.linkage.Reaches h) := by
  have next : node.next = none := by
    rw [next?, found] at last
    exact last
  have rooted : a.Rooted [h] :=
    ⟨forked, List.nodup_singleton h, List.forall_mem_singleton.mpr (contains_of_node? found),
      List.forall_mem_singleton.mpr unowned⟩
  obtain ⟨b, swept, without⟩ := a.sweep_without [h] rooted
  obtain ⟨c, released⟩ := exists_release? found
  have behind : a.sweep [h] = c.sweep node.heads := by
    rw [sweep_of_release? released, next]
    simp
  refine ⟨b, ?_, without.congr fun other => by simp⟩
  rw [behind] at swept
  rw [delete, released]
  dsimp only
  rw [swept]
  rfl

/-! ## Deleting a command -/

theorem delete_of_stale (stale : ¬ a.contains h) : a.delete h = (.error (.staleHandle h), a) := by
  unfold delete
  split
  · rfl
  · rename_i released
    rw [contains, node?_eq_of_release? released] at stale
    exact absurd rfl stale

/-- A detached root is deleted with its tree. -/
theorem WellFormed.delete_cases (wf : a.WellFormed) (detached : a.Detached h) :
    ∃ command b, a.command? h = some command ∧ a.delete h = (.ok command, b) ∧
      a.Without b (a.linkage.Reaches h) := by
  obtain ⟨node, found⟩ := exists_node? detached.live
  obtain ⟨b, deleted, without⟩ :=
    delete_without wf.sound.toForked found (detached.unowned wf) detached.next
  exact ⟨node.command, b, by rw [command?, found]; rfl, deleted, without⟩

theorem Without.wellFormed (wf : a.WellFormed) (unowned : a.linkage.Unowned h)
    (without : a.Without b (a.linkage.Reaches h)) : b.WellFormed := by
  refine wellFormed_iff.mpr ⟨?_, without.branches wf.branches⟩
  rw [without.linkage]
  exact wf.sound.drop (wf.sound.reaches_iff unowned)

/-! ## Taking commands out -/

/-- `b` is well formed and holds no commands that `a` does not, and what no link leads to in `a` is a
root in `b` as well. -/
structure Trimmed (a b : Arena) : Prop where
  wellFormed : b.WellFormed
  contains : ∀ h, b.contains h → a.contains h
  unowned : ∀ h, a.linkage.Unowned h → b.linkage.Unowned h

namespace Trimmed

theorem refl (wf : a.WellFormed) : a.Trimmed a := ⟨wf, fun _ => id, fun _ => id⟩

theorem trans (first : a.Trimmed b) (second : b.Trimmed c) : a.Trimmed c where
  wellFormed := second.wellFormed
  contains h live := first.contains h (second.contains h live)
  unowned h root := second.unowned h (first.unowned h root)

theorem of_unlink (wf : a.WellFormed) (leads : a.target? p = some h)
    (becomes : a.Becomes b (a.linkage.unlink p h)) : a.Trimmed b where
  wellFormed := wf.of_becomes becomes (wf.sound.unlink leads)
  contains other live := (becomes.contains other).symm.trans live
  unowned other root := by
    rw [becomes.linkage]
    exact root.unlink

theorem of_without (wf : a.WellFormed) (unowned : a.linkage.Unowned h)
    (without : a.Without b (a.linkage.Reaches h)) : a.Trimmed b where
  wellFormed := without.wellFormed wf unowned
  contains other live := (without.contains_iff.mp live).1
  unowned other root := by
    rw [without.linkage]
    exact root.drop

end Trimmed

/-- A command that has been taken off its chain is a detached root. -/
theorem Becomes.detached (wf : a.WellFormed) (leads : a.target? p = some h)
    (becomes : a.Becomes b (a.linkage.unlink p h)) : b.Detached h := by
  have sound := becomes.linkage ▸ wf.sound.unlink leads
  have unowned := becomes.linkage ▸ wf.sound.unowned_unlink leads
  have last := congrArg (·.target (.after h)) becomes.linkage
  exact ⟨.of_unowned sound unowned, (becomes.contains h).trans (wf.live p h leads),
    last.trans (wf.sound.target_unlink_after leads)⟩

theorem WellFormed.trimmed_delete (wf : a.WellFormed) (detached : a.Detached h) :
    a.Trimmed (a.delete h).2 := by
  obtain ⟨command, b, -, deleted, without⟩ := wf.delete_cases detached
  rw [deleted]
  exact .of_without wf (detached.unowned wf) without

end Arena

end MissionScript
