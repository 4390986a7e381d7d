import Mathlib.Data.Finset.Max
import Mathlib.Data.List.Pairwise
import Mathlib.Tactic.MkIffOfInductiveProp
import MissionScript.Proofs.Sequence.Descent

/-!
# Checking an arena

Whether an arena is well formed can be decided: the links of its commands are read one by one, and links
make no cycle exactly if every command is met on a walk from a command to which no link leads.
-/

namespace MissionScript

namespace Arena

variable {a : Arena} {h other root : Handle} {node : Node} {limit depth : Nat}

/-- Where the links of a command lead. -/
def links (a : Arena) (h : Handle) : List Handle :=
  (a.node? h).elim [] fun node => node.heads ++ node.next.toList

/-- What makes an arena well formed, as it is read off its commands. -/
@[mk_iff]
structure Checked (a : Arena) : Prop where
  live : ∀ h ∈ a.handles, ∀ other ∈ a.links h, a.contains other
  single : (a.handles.flatMap a.links).Nodup
  next : ∀ h ∈ a.handles, ∀ other ∈ (a.next? h).toList, a.previous? other = some h
  previous : ∀ h ∈ a.handles, ∀ other ∈ (a.previous? h).toList, a.next? other = some h
  branches : ∀ h ∈ a.handles, ∀ node ∈ (a.node? h).toList,
    node.branches ≠ [] → node.command.kind.ownsBranches
  /-- Every command is met from one that no link leads to. -/
  rooted : ∀ h ∈ a.handles, ∃ root ∈ a.handles,
    root ∉ a.handles.flatMap a.links ∧ h ∈ a.commandsFrom root

theorem mem_links : other ∈ a.links h ↔ a.linkage.Owns h other := by
  rw [links]
  cases found : a.node? h with
  | none =>
      constructor
      · intro absent
        cases absent
      · rintro ⟨p, rfl, leads⟩
        have live := contains_anchor leads
        rw [contains, found] at live
        cases live
  | some node => exact mem_links_of_node? found

theorem mem_all_links : other ∈ a.handles.flatMap a.links ↔ ∃ p, a.target? p = some other := by
  rw [List.mem_flatMap]
  constructor
  · rintro ⟨owner, -, member⟩
    obtain ⟨p, -, leads⟩ := mem_links.mp member
    exact ⟨p, leads⟩
  · rintro ⟨p, leads⟩
    exact ⟨p.anchor, mem_handles.mpr (contains_anchor leads), mem_links.mpr ⟨p, rfl, leads⟩⟩

theorem unowned_iff_not_mem : a.linkage.Unowned h ↔ h ∉ a.handles.flatMap a.links := by
  rw [mem_all_links, not_exists]
  rfl

/-- A walk meets only what links lead to. -/
theorem reaches_of_mem_walkFrom {enters : Node → Bool} {visit : Visit}
    (member : visit ∈ a.walkFrom enters limit depth h) : a.linkage.Reaches h visit.handle := by
  induction limit generalizing depth h with
  | zero => cases member
  | succ limit ih =>
      rw [walkFrom] at member
      cases found : a.node? h with
      | none =>
          rw [found] at member
          cases member
      | some node =>
          rw [found] at member
          have onward {depth : Nat} {next : Handle} (link : next ∈ node.heads ++ node.next.toList)
              (later : visit ∈ a.walkFrom enters limit depth next) : a.linkage.Reaches h visit.handle :=
            .head ((mem_links_of_node? found).mp link) (ih later)
          rcases List.mem_append.mp member with here | behind
          · rcases List.mem_cons.mp here with rfl | inside
            · exact .refl
            · split at inside
              · obtain ⟨head, isHead, inside⟩ := List.mem_flatMap.mp inside
                exact onward (List.mem_append_left _ isHead) inside
              · cases inside
          · obtain ⟨next, isNext, behind⟩ := List.mem_flatMap.mp behind
            exact onward (List.mem_append_right _ isNext) behind

open Classical in
/-- Of the commands from which one is reached, the one with the most below it is not owned. -/
theorem exists_root (sound : a.linkage.Sound) (live : a.contains h) :
    ∃ root, a.contains root ∧ a.linkage.Unowned root ∧ a.linkage.Reaches root h := by
  have own : h ∈ a.handles.toFinset.filter (a.linkage.Reaches · h) :=
    Finset.mem_filter.mpr ⟨List.mem_toFinset.mpr (mem_handles.mpr live), .refl⟩
  obtain ⟨root, member, most⟩ := Finset.exists_max_image _ (fun x => (a.below x).card) ⟨h, own⟩
  obtain ⟨inside, reaches⟩ := Finset.mem_filter.mp member
  refine ⟨root, mem_handles.mp (List.mem_toFinset.mp inside), fun p leads => ?_, reaches⟩
  have owner : p.anchor ∈ a.handles.toFinset.filter (a.linkage.Reaches · h) :=
    Finset.mem_filter.mpr ⟨List.mem_toFinset.mpr (mem_handles.mpr (contains_anchor leads)),
      .head (.of_target leads) reaches⟩
  exact absurd (card_below_lt sound (.of_target leads)) (Nat.not_lt_of_le (most _ owner))

/-- What is below a command to which no link leads is on no cycle. -/
theorem acyclic_of_reaches (forked : a.linkage.Forked) (unowned : a.linkage.Unowned root)
    (reaches : a.linkage.Reaches root h) : ¬ Relation.TransGen a.linkage.Owns h h := by
  induction reaches with
  | refl =>
      intro cycle
      obtain ⟨_, -, p, -, leads⟩ := Relation.TransGen.tail'_iff.mp cycle
      exact unowned p leads
  | @tail middle last _ owns ih =>
      intro cycle
      obtain ⟨before, reaches, owned⟩ := Relation.TransGen.tail'_iff.mp cycle
      obtain ⟨p, rfl, leads⟩ := owns
      obtain ⟨q, rfl, leadsToo⟩ := owned
      rw [forked.single leadsToo leads] at reaches
      exact ih (Relation.TransGen.head' (.of_target leads) reaches)

/-- Links of one command to the same command are one. -/
theorem eq_of_nodup_links (nodup : (a.links h).Nodup) {p q : Point} (first : p.anchor = h)
    (second : q.anchor = h) (leads : a.target? p = some other) (leadsToo : a.target? q = some other) :
    p = q := by
  obtain ⟨node, found⟩ := exists_node? (first ▸ contains_anchor leads)
  rw [links, found] at nodup
  obtain ⟨heads, -, apart⟩ := List.nodup_append.mp nodup
  have head {branch : Nat} (leads : a.target? (.inside h branch) = some other) :
      node.branches[branch]? = some (some other) := by
    rw [target?, child?, found] at leads
    exact Option.join_eq_some_iff.mp leads
  have mixed {branch : Nat} (next : a.target? (.after h) = some other)
      (leads : a.target? (.inside h branch) = some other) : False := by
    rw [target?, next?, found] at next
    exact apart other ((child?_eq_some_iff found).mp ⟨branch, leads⟩) other (Option.mem_toList.mpr next) rfl
  cases p with
  | after last =>
      obtain rfl : last = h := first
      cases q with
      | after lastToo =>
          obtain rfl : lastToo = last := second
          rfl
      | inside owner branch =>
          obtain rfl : owner = last := second
          exact (mixed leads leadsToo).elim
  | inside owner branch =>
      obtain rfl : owner = h := first
      cases q with
      | after last =>
          obtain rfl : last = owner := second
          exact (mixed leadsToo leads).elim
      | inside ownerToo branchToo =>
          obtain rfl : ownerToo = owner := second
          obtain ⟨inFirst, atFirst⟩ := List.getElem?_eq_some_iff.mp (head leads)
          obtain ⟨inSecond, atSecond⟩ := List.getElem?_eq_some_iff.mp (head leadsToo)
          have distinct := List.pairwise_iff_getElem.mp (List.pairwise_filterMap.mp heads)
          rcases Nat.lt_trichotomy branch branchToo with before | same | behind
          · exact absurd rfl (distinct _ _ inFirst inSecond before other atFirst other atSecond)
          · rw [same]
          · exact absurd rfl (distinct _ _ inSecond inFirst behind other atSecond other atFirst)

namespace Checked

variable (checked : a.Checked)

include checked

theorem forked : a.linkage.Forked where
  live {p other} leads := by
    have anchor := contains_anchor leads
    exact ⟨anchor, checked.live p.anchor (mem_handles.mpr anchor) other (mem_links.mpr ⟨p, rfl, leads⟩)⟩
  single {p q other} leads leadsToo := by
    obtain ⟨each, apart⟩ := List.nodup_flatMap.mp checked.single
    have inside {p : Point} (leads : a.target? p = some other) : p.anchor ∈ a.handles :=
      mem_handles.mpr (contains_anchor leads)
    have same : q.anchor = p.anchor := by
      by_contra different
      have symmetric : Std.Symm (Function.onFun List.Disjoint a.links) := ⟨fun _ _ => List.Disjoint.symm⟩
      have disjoint := apart.forall (inside leadsToo) (inside leads) different
      exact disjoint (mem_links.mpr ⟨q, rfl, leadsToo⟩) (mem_links.mpr ⟨p, rfl, leads⟩)
    exact eq_of_nodup_links (each p.anchor (inside leads)) rfl same leads leadsToo

theorem sound : a.linkage.Sound where
  toForked := checked.forked
  back h other := by
    constructor
    · intro leads
      have live := contains_anchor (p := .after h) leads
      exact checked.next h (mem_handles.mpr live) other (Option.mem_toList.mpr leads)
    · intro back
      have live : a.contains other := by
        obtain ⟨node, found, -⟩ := Option.bind_eq_some_iff.mp back
        exact contains_of_node? found
      exact checked.previous other (mem_handles.mpr live) h (Option.mem_toList.mpr back)
  acyclic h cycle := by
    have live : a.contains h := by
      obtain ⟨_, ⟨p, rfl, leads⟩, -⟩ := Relation.TransGen.head'_iff.mp cycle
      exact contains_anchor leads
    obtain ⟨root, -, unowned, met⟩ := checked.rooted h (mem_handles.mpr live)
    obtain ⟨visit, member, rfl⟩ := List.mem_map.mp met
    exact acyclic_of_reaches checked.forked (unowned_iff_not_mem.mpr unowned)
      (reaches_of_mem_walkFrom member) cycle

end Checked

theorem wellFormed_iff_checked : a.WellFormed ↔ a.Checked := by
  constructor
  · intro wf
    have sound := wf.sound
    refine ⟨fun h _ other member => ?_, ?_, fun h _ other next => ?_, fun h _ other back => ?_,
      fun h _ node found => ?_, fun h member => ?_⟩
    · obtain ⟨p, -, leads⟩ := mem_links.mp member
      exact (sound.live leads).2
    · refine List.nodup_flatMap.mpr ⟨fun h member => ?_, ?_⟩
      · obtain ⟨node, found⟩ := exists_node? (mem_handles.mp member)
        rw [links, found]
        exact nodup_links_of_node? sound.toForked found
      · refine nodup_handles.imp fun {first second} different other inFirst inSecond => ?_
        obtain ⟨p, rfl, leads⟩ := mem_links.mp inFirst
        obtain ⟨q, rfl, leadsToo⟩ := mem_links.mp inSecond
        exact different (congrArg Point.anchor (sound.single leads leadsToo))
    · exact (wf.back h other).mp (Option.mem_toList.mp next)
    · exact (wf.back other h).mpr (Option.mem_toList.mp back)
    · exact wf.branches h node (Option.mem_toList.mp found)
    · obtain ⟨root, live, unowned, reaches⟩ := exists_root sound (mem_handles.mp member)
      exact ⟨root, mem_handles.mpr live, unowned_iff_not_mem.mp unowned,
        (mem_commandsFrom sound).mpr ⟨live, reaches⟩⟩
  · intro checked
    refine wellFormed_iff.mpr ⟨checked.sound, fun h node found => ?_⟩
    exact checked.branches h (mem_handles.mpr (contains_of_node? found)) node (Option.mem_toList.mpr found)

instance : Decidable a.Checked := decidable_of_iff _ (checked_iff a).symm

instance : Decidable a.WellFormed := decidable_of_iff _ wellFormed_iff_checked.symm

/-! ## Roots -/

theorem isRoot_iff : a.IsRoot h ↔ a.previous? h = none ∧
    ∀ owner ∈ a.handles, h ∉ (a.node? owner).elim [] Node.heads := by
  constructor
  · rintro ⟨previous, outside⟩
    refine ⟨previous, fun owner live inside => ?_⟩
    obtain ⟨node, found⟩ := exists_node? (mem_handles.mp live)
    rw [found] at inside
    obtain ⟨branch, first⟩ := (child?_eq_some_iff found).mpr inside
    exact outside owner branch first
  · rintro ⟨previous, outside⟩
    refine ⟨previous, fun owner branch first => ?_⟩
    have live : a.contains owner := contains_anchor (p := .inside owner branch) first
    obtain ⟨node, found⟩ := exists_node? live
    have away := outside owner (mem_handles.mpr live)
    rw [found] at away
    exact away ((child?_eq_some_iff found).mp ⟨branch, first⟩)

instance : Decidable (a.IsRoot h) := decidable_of_iff _ isRoot_iff.symm

instance : Decidable (a.Detached h) :=
  decidable_of_iff (a.IsRoot h ∧ a.contains h ∧ a.next? h = none)
    ⟨fun ⟨root, live, next⟩ => ⟨root, live, next⟩,
      fun detached => ⟨detached.toIsRoot, detached.live, detached.next⟩⟩

/-! ## A sample -/

/-- Two sequences: the first one holds a script block with another one in it and a loop inside of a
condition, the second one a script block without an end and a condition behind its start. -/
def sample : Arena :=
  let kinds : List CommandKind := [.noOp, .beginScript, .assignment, .beginScript, .endScript, .ifThen,
    .whileLoop, .assignment, .endWhile, .endIf, .endScript, .noOp, .noOp, .beginScript, .ifThen, .endIf]
  let link : Edit Unit := do
    [1, 2, 3, 4, 5, 10, 11].forM fun index => Edit.append (.ofIndex 0) (.ofIndex index)
    [6, 9].forM fun index => Edit.appendToBranch (.ofIndex 5) 0 (.ofIndex index)
    [7, 8].forM fun index => Edit.appendToBranch (.ofIndex 6) 0 (.ofIndex index)
    [13, 14].forM fun index => Edit.append (.ofIndex 12) (.ofIndex index)
    Edit.appendToBranch (.ofIndex 14) 0 (.ofIndex 15)
  (link (kinds.foldl (fun a kind => (a.insert (.ofKind kind)).2) empty)).2

theorem wellFormed_sample : sample.WellFormed := by decide +kernel

end Arena

end MissionScript
