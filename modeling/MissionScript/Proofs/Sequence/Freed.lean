import MissionScript.Proofs.Sequence.Ownership
import MissionScript.Proofs.Sequence.Stretch

/-!
# What a deletion frees

A deletion follows the links of an arena that it takes apart on its way. Which commands it has still to
free can be read off the arena as it was before: they are those listed from the commands that a sweep has
before it, and what is freed and what is still listed make up the same list at every step. As this list
holds no command twice, no link that is followed leads to a command that is gone.
-/

namespace MissionScript

namespace Arena

variable {a b c : Arena} {h other : Handle} {node : Node} {pending gone more : List Handle}

/-! ## Chain by chain -/

/-- A sweep comes to later commands when it is done with the earlier ones. -/
theorem sweep_append (a : Arena) (first rest : List Handle) :
    a.sweep (first ++ rest) =
      match a.sweep first with
      | (.ok (), b) => b.sweep rest
      | (.error e, b) => (.error e, b) := by
  fun_induction sweep a first with
  | case1 a => rfl
  | case2 a h pending stale => rw [List.cons_append, sweep_of_stale stale]
  | case3 a h pending node b released ih =>
      rw [List.cons_append, sweep_of_release? released, ← List.append_assoc, ih]

/-- A command is deleted with its branches, and then the chain behind it is. Which command that starts with
is read before the deletion. -/
theorem sweep_cons (a : Arena) (h : Handle) (pending : List Handle) :
    a.sweep (h :: pending) =
      match a.delete h with
      | (.ok _, b) => b.sweep ((a.next? h).toList ++ pending)
      | (.error e, b) => (.error e, b) := by
  cases released : a.release? h with
  | none => rw [sweep_of_stale released, delete, released]
  | some taken =>
      obtain ⟨node, b⟩ := taken
      rw [sweep_of_release? released, List.append_assoc, sweep_append, delete, released, next?,
        node?_eq_of_release? released]
      dsimp only
      obtain ⟨outcome, c⟩ := b.sweep node.heads
      cases outcome <;> rfl

/-! ## Emptied slots -/

/-- `b` is `a` with the slots of some commands emptied, one after the other. -/
structure Freed (a b : Arena) (gone : List Handle) : Prop where
  held : ∀ x ∈ gone, a.contains x
  /-- Each slot is left under its next generation, -/
  emptied : ∀ x ∈ gone, b.slots[x.index]? = some { generation := x.generation + 1, node := none }
  /-- and no other slot has changed. -/
  untouched : ∀ index, index ∉ gone.map (·.index) → b.slots[index]? = a.slots[index]?
  /-- The slot that was emptied last is the next one to be filled. -/
  free : b.free = (gone.map (·.index)).reverse ++ a.free
  live : b.live + gone.length = a.live

theorem freed_of_release? (released : a.release? h = some (node, b)) : a.Freed b [h] := by
  have fewer := live_of_release? released
  unfold release? at released
  split at released
  · cases released
  · rename_i found
    cases released
    obtain ⟨inside, slot⟩ := slot_of_node? found
    refine ⟨List.forall_mem_singleton.mpr (contains_of_node? found), ?_, fun index outside => ?_, rfl, fewer⟩
    · simp [vacate, inside, slot]
    · have different : h.index ≠ index := fun same => outside (List.mem_singleton.mpr same.symm)
      simp [vacate, different]

namespace Freed

variable (freed : a.Freed b gone)

include freed

/-- An emptied slot holds nothing, under whatever handle. -/
theorem node?_of_index_mem (inside : other.index ∈ gone.map (·.index)) : b.node? other = none := by
  obtain ⟨x, member, same⟩ := List.mem_map.mp inside
  rw [node?, ← same, freed.emptied x member]
  simp

theorem without : a.Without b (· ∈ gone) where
  none inside := freed.node?_of_index_mem (List.mem_map_of_mem inside)
  kept {x} outside := by
    by_cases slot : x.index ∈ gone.map (·.index)
    · -- The slot was known under another handle.
      rw [freed.node?_of_index_mem slot, eq_comm, Option.eq_none_iff_forall_ne_some]
      intro node found
      obtain ⟨y, member, same⟩ := List.mem_map.mp slot
      obtain ⟨_, foundToo⟩ := exists_node? (freed.held y member)
      exact outside (eq_of_node? foundToo found same ▸ member)
    · rw [node?, node?, freed.untouched x.index slot]

theorem nodup : gone.Nodup := by
  have stack := b.nodup_free
  rw [freed.free] at stack
  exact (List.nodup_reverse.mp stack.of_append_left).of_map

theorem trans (next : b.Freed c more) : a.Freed c (gone ++ more) where
  held x inside := by
    rcases List.mem_append.mp inside with first | second
    · exact freed.held x first
    · exact (freed.without.contains_iff.mp (next.held x second)).1
  emptied x inside := by
    rcases List.mem_append.mp inside with first | second
    · rw [next.untouched x.index, freed.emptied x first]
      -- A slot that is empty is not emptied again.
      intro again
      obtain ⟨y, member, same⟩ := List.mem_map.mp again
      obtain ⟨node, found⟩ := exists_node? (next.held y member)
      rw [freed.node?_of_index_mem (same ▸ List.mem_map_of_mem first)] at found
      cases found
    · exact next.emptied x second
  untouched index outside := by
    rw [List.map_append, List.mem_append, not_or] at outside
    rw [next.untouched index outside.2, freed.untouched index outside.1]
  free := by
    rw [next.free, freed.free, List.map_append, List.reverse_append, List.append_assoc]
  live := by
    rw [List.length_append, ← freed.live, ← next.live]
    omega

end Freed

/-! ## Sweeping -/

section

variable (sound : a.linkage.Sound)

include sound

/-- A command is listed in front of what is listed from where its links lead. -/
theorem flatMap_commandsFrom_of_node? (found : a.node? h = some node) (pending : List Handle) :
    (h :: pending).flatMap a.commandsFrom =
      h :: (node.heads ++ node.next.toList ++ pending).flatMap a.commandsFrom := by
  rw [List.flatMap_cons, commandsFrom_of_node? sound found, List.cons_append, ← List.flatMap_append]

theorem contains_of_mem_links (found : a.node? h = some node)
    (member : other ∈ node.heads ++ node.next.toList) : a.contains other := by
  obtain ⟨p, -, leads⟩ := (mem_links_of_node? found).mp member
  exact (sound.live leads).2

/-- A command that is still to be freed is as it was. -/
theorem Freed.node?_of_pending (freed : a.Freed b gone) (live : a.contains h)
    (once : (gone ++ (h :: pending).flatMap a.commandsFrom).Nodup) : b.node? h = a.node? h := by
  obtain ⟨node, found⟩ := exists_node? live
  rw [flatMap_commandsFrom_of_node? sound found] at once
  exact freed.without.kept fun inside =>
    List.disjoint_of_nodup_append once inside List.mem_cons_self

/-- A sweep frees what is listed from the commands before it, in this order. -/
theorem sweep_freed (freed : a.Freed b gone) (live : ∀ x ∈ pending, a.contains x)
    (once : (gone ++ pending.flatMap a.commandsFrom).Nodup) :
    ∃ c, b.sweep pending = (.ok (), c) ∧ a.Freed c (gone ++ pending.flatMap a.commandsFrom) := by
  fun_induction sweep b pending generalizing gone with
  | case1 b =>
      rw [List.flatMap_nil, List.append_nil]
      exact ⟨b, rfl, freed⟩
  | case2 b h pending stale =>
      have liveFirst := live h List.mem_cons_self
      rw [release?_eq_none, freed.node?_of_pending sound liveFirst once] at stale
      rw [contains, stale] at liveFirst
      cases liveFirst
  | case3 b h pending node c released ih =>
      have same := freed.node?_of_pending sound (live h List.mem_cons_self) once
      have found : a.node? h = some node := same.symm.trans (node?_eq_of_release? released)
      -- The command goes over from what is listed to what is gone.
      have listed : gone ++ (h :: pending).flatMap a.commandsFrom =
          (gone ++ [h]) ++ (node.heads ++ node.next.toList ++ pending).flatMap a.commandsFrom := by
        rw [flatMap_commandsFrom_of_node? sound found, List.append_cons]
      rw [listed] at once ⊢
      refine ih (freed.trans (freed_of_release? released)) (fun x member => ?_) once
      rcases List.mem_append.mp member with isLink | isPending
      · exact contains_of_mem_links sound found isLink
      · exact live x (List.mem_cons_of_mem _ isPending)

/-- Deleting a command frees it and then what is listed from its branches, wherever the command stands. -/
theorem delete_freed (found : a.node? h = some node) :
    ∃ b, a.delete h = (.ok node.command, b) ∧
      a.Freed b (h :: node.heads.flatMap a.commandsFrom) := by
  obtain ⟨b, released⟩ := exists_release? found
  have once : ([h] ++ node.heads.flatMap a.commandsFrom).Nodup := by
    have whole := nodup_commandsFrom sound h
    rw [commandsFrom_of_node? sound found, List.flatMap_append, ← List.cons_append] at whole
    exact whole.of_append_left
  obtain ⟨c, swept, freed⟩ := sweep_freed sound (freed_of_release? released)
    (fun x isHead => contains_of_mem_links sound found (List.mem_append_left _ isHead)) once
  refine ⟨c, ?_, freed⟩
  rw [delete, released]
  dsimp only
  rw [swept]
  rfl

end

/-! ## Deleting a root -/

/-- `b` is `a` without the tree of a root. -/
structure Pruned (a b : Arena) (root : Handle) (tree : List Handle) : Prop extends Freed a b tree where
  /-- The tree holds the root and what is in its branches at any depth, -/
  nested : ∀ x, x ∈ tree ↔ x = root ∨ a.Nested root x
  /-- each command once. -/
  once : tree.Nodup
  /-- None of them is found any more; the other commands are as they were, with their links, -/
  nodes : ∀ x, b.node? x = if x ∈ tree then none else a.node? x
  /-- and no link leads to a command that is gone. -/
  sound : b.linkage.Sound

/-- A detached root is deleted with all that is listed from its branches, and nothing else changes. Only the
links have to be sound; of which kinds the commands are does not matter. -/
theorem delete_exact (sound : a.linkage.Sound) (detached : a.Detached h) :
    ∃ node b, a.node? h = some node ∧ a.delete h = (.ok node.command, b) ∧
      a.Pruned b h (h :: node.heads.flatMap a.commandsFrom) := by
  obtain ⟨node, found⟩ := exists_node? detached.live
  obtain ⟨b, deleted, freed⟩ := delete_freed sound found
  refine ⟨node, b, found, deleted, ?_⟩
  have tree : h :: node.heads.flatMap a.commandsFrom = a.subtree h := by rw [subtree, found]
  rw [tree] at freed ⊢
  have reached (x : Handle) : x ∈ a.subtree h ↔ a.linkage.Reaches h x :=
    mem_subtree_of_last sound detached.live detached.next
  refine ⟨freed, fun x => ?_, freed.nodup, fun x => ?_, ?_⟩
  · rw [mem_subtree_iff_nested sound, and_iff_right detached.live]
  · split
    · rename_i inside
      exact freed.without.none inside
    · rename_i outside
      exact freed.without.kept outside
  · rw [freed.without.linkage]
    refine sound.drop fun leads => ?_
    rw [reached, reached]
    exact sound.reaches_iff (detached.toIsRoot.unowned sound) leads

/-- The sample with the condition taken out of its script block. -/
def thinned : Arena := (Edit.remove (.ofIndex 0) (.ofIndex 5) sample).2

/-- The condition goes with the loop inside of it. -/
theorem delete_exact_nested : thinned.linkage.Sound ∧ thinned.Detached (.ofIndex 5) ∧
    ∃ node b, thinned.node? (.ofIndex 5) = some node ∧
      thinned.delete (.ofIndex 5) = (.ok node.command, b) ∧
      thinned.Pruned b (.ofIndex 5) ([5, 6, 7, 8, 9].map .ofIndex) := by
  have wf : thinned.WellFormed := by decide +kernel
  have detached : thinned.Detached (.ofIndex 5) := by decide +kernel
  have tree : thinned.subtree (.ofIndex 5) = [5, 6, 7, 8, 9].map Handle.ofIndex := by decide +kernel
  obtain ⟨node, b, found, deleted, pruned⟩ := delete_exact wf.sound detached
  rw [subtree, found] at tree
  dsimp only at tree
  rw [tree] at pruned
  exact ⟨wf.sound, detached, node, b, found, deleted, pruned⟩

end Arena

end MissionScript
