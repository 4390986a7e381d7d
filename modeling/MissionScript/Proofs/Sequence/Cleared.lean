import MissionScript.Proofs.Sequence.Removed

/-!
# What clearing leaves

Every pass of the loop that clears a sequence cuts out the command behind the root with its tree, and the
script block that it begins as well. A block without an end is unlinked by force. The passes add up to the
whole chain behind the root, so nothing of it is left, and nothing else is touched.
-/

namespace MissionScript

open Edit

namespace Arena

variable {a b c : Arena} {p : Point} {head h first : Handle} {cut gone : List Handle}
  {onward : Option Handle} {limit : Nat} {forget : Bool}

/-! ## Deleting what is off its chain -/

/-- A command that is off its chain is deleted after what stood behind it. -/
theorem Detaches.excised (wf : a.WellFormed) (leads : a.target? p = some h)
    (detaches : a.Detaches b p h cut) :
    ∃ command c onward, b.delete h = (.ok command, c) ∧ a.Excised c p (h :: cut) onward := by
  obtain ⟨⟨c, onward, inner, unlinked⟩, -⟩ := detaches
  obtain ⟨command, d, deleted, outer⟩ :=
    unlinked.excised inner.wellFormed (inner.target?_front wf leads)
  have next : c.next? h = onward := inner.target?_eq wf
  rw [next] at outer
  exact ⟨command, d, onward, deleted, inner.enclose wf leads outer⟩

/-- A command that is unlinked by force is deleted with its tree. -/
theorem deleteRaw_spec (wf : a.WellFormed) (leads : a.target? (.after head) = some first) :
    ∃ b, deleteRaw head first a = (.ok (), b) ∧ a.Excised b (.after head) [first] (a.next? first) := by
  obtain ⟨b, c, ran, ranThen, commands, branches, linkage⟩ := forced_links wf leads
  have kept (other : Handle) (different : other ≠ first) : b.node? other = a.node? other := by
    rw [node?_of_modifyNode ran, if_neg different]
  have written (other : Handle) (apart : a.next? first ≠ some other) : c.node? other =
      if other = head then (b.node? head).map fun node => { node with next := a.next? first }
      else b.node? other :=
    node?_of_relink (p := .after head) ranThen apart
  have unlinked : a.Unlinked c (.after head) first := by
    refine ⟨linkage, commands, branches, fun other different away further => ?_, fun last same => ?_⟩
    · have away : other ≠ head := away
      rw [written other further, if_neg away, kept other different]
    · obtain rfl := Point.after.inj same
      have different : head ≠ first := wf.sound.anchor_ne (p := .after head) leads
      rw [written head (next?_ne_anchor wf leads), if_pos rfl, kept head different]
  obtain ⟨command, d, deleted, excised⟩ := unlinked.excised wf leads
  refine ⟨d, ?_, excised⟩
  unfold deleteRaw
  rw [Step.get_bind, Step.bind_ok ran, Step.bind_ok ranThen]
  exact Step.bind_ok (show Edit.delete first c = (.ok command, d) from deleted)

/-! ## One pass -/

/-- A pass cuts out the command behind the root, and maybe more behind that. -/
theorem clearNext_spec (wf : a.WellFormed) (leads : a.target? (.after head) = some first) :
    ∃ cut onward b, a.clearNext head first = (true, b) ∧
      a.Excised b (.after head) (first :: cut) onward := by
  have different : first ≠ head := (wf.sound.anchor_ne (p := .after head) leads).symm
  obtain ⟨command, found⟩ := contains_iff.mp (wf.sound.live (p := .after head) leads).2
  have removed {cut : List Handle} (done : ∃ b, remove head first a = (.ok (), b) ∧
      a.Detaches b (.after head) first cut) : ∃ cut onward b, a.clearNext head first = (true, b) ∧
        a.Excised b (.after head) (first :: cut) onward := by
    obtain ⟨b, ran, detaches⟩ := done
    obtain ⟨command, c, onward, deleted, excised⟩ := detaches.excised wf leads
    refine ⟨cut, onward, c, ?_, excised⟩
    rw [clearNext, ran]
    dsimp only
    rw [deleted]
  by_cases begins : command.kind = .beginScript
  · by_cases closed : ∃ inner stop, a.ScriptBlock first inner stop
    · obtain ⟨inner, stop, block⟩ := closed
      exact removed (remove_block wf leads different block)
    · have follows : a.previous? first ≠ none := by
        rw [(wf.back head first).mp leads]
        exact Option.some_ne_none head
      have failed := remove_unclosed wf.sound different found begins follows fun inner stop block =>
        closed ⟨inner, stop, block⟩
      obtain ⟨b, deleted, excised⟩ := deleteRaw_spec wf leads
      refine ⟨[], a.next? first, b, ?_, excised⟩
      rw [clearNext, failed]
      dsimp only
      rw [deleted]
      rfl
  · have single : a.kind? first ≠ some .beginScript := by
      rw [kind?, found]
      exact begins ∘ Option.some.inj
    exact removed (remove_single wf leads trivial different single)

/-- Forgetting results changes the commands of a tree and no links. -/
theorem node?_forget (a : Arena) (forget : Bool) (h other : Handle) :
    (if forget then a.forgetResults h else a).node? other = (a.node? other).map fun node =>
      { node with command :=
          if forget ∧ other ∈ a.subtree h then node.command.forgetResult else node.command } := by
  have same (node? : Option Node) : node? = node?.map fun node => { node with command := node.command } := by
    cases node? <;> rfl
  cases forget with
  | false => exact same _
  | true =>
      rw [if_pos rfl, forgetResults, node?_forgetting]
      by_cases inside : other ∈ a.subtree h
      · simp [inside]
      · simp [inside]

theorem subtree_forget (a : Arena) (forget : Bool) (h other : Handle) :
    (if forget then a.forgetResults h else a).subtree other = a.subtree other := by
  have size : (if forget then a.forgetResults h else a).slots.size = a.slots.size := by
    split
    · exact size_forgetting _
    · rfl
  exact subtree_congr (f := fun other command =>
    if forget ∧ other ∈ a.subtree h then command.forgetResult else command)
    (node?_forget a forget h) size other

theorem node?_forget_of_not_mem (outside : h ∉ a.subtree first) :
    (if forget then a.forgetResults first else a).node? h = a.node? h := by
  rw [node?_forget]
  simp only [outside, and_false, if_false]
  cases a.node? h <;> rfl

/-- What is cut out may have been changed before. -/
theorem Excised.of_forgotten (linkage : b.linkage = a.linkage) (trees : b.trees cut = a.trees cut)
    (same : ∀ x, x ∉ a.trees cut → b.node? x = a.node? x) (outside : p.anchor ∉ a.trees cut)
    (excised : b.Excised c p cut onward) : a.Excised c p cut onward := by
  have targets : b.target? = a.target? := congrArg Linkage.target linkage
  have next (x : Handle) : a.next? x = b.next? x := (congrFun targets (.after x)).symm
  refine ⟨⟨excised.stretch.carried (congrFun targets p).symm fun x _ => next x, fun h kept => ?_,
    fun q kept => ?_, fun h kept away further => ?_, fun h here => ?_⟩,
    fun h inside => excised.gone h (trees ▸ inside), excised.wellFormed⟩
  · rw [excised.command h (trees ▸ kept), command?, command?, same h kept]
  · rw [excised.target q (trees ▸ kept), targets]
  · rw [excised.node h (trees ▸ kept) away further, same h kept]
  · rw [here] at outside
    rw [excised.last h here, same h outside]

/-! ## All passes -/

theorem contains_of_mem_trees (inside : h ∈ a.trees cut) (sound : a.linkage.Sound) : a.contains h := by
  obtain ⟨x, -, below⟩ := List.mem_flatMap.mp inside
  exact contains_of_reaches sound ((mem_subtree sound).mp below).1 (reaches_of_mem_subtree sound below)

theorem Excised.live_add (wf : a.WellFormed) (excised : a.Excised b p cut onward) :
    b.live + (a.trees cut).length = a.live :=
  live_add_length (excised.stretch.nodup_trees wf.sound)
    (fun _ inside => contains_of_mem_trees inside wf.sound) excised.contains_iff

/-- One pass of the loop. -/
theorem pass_spec (wf : a.WellFormed) (forget : Bool) (next : a.next? head = some first) :
    ∃ cut onward b, (if forget then a.forgetResults first else a).clearNext head first = (true, b) ∧
      a.Excised b (.after head) (first :: cut) onward ∧ b.live < a.live := by
  obtain ⟨forgotten, linkage⟩ := trimmed_forget wf forget first
  have leads := (congrArg (·.target (.after head)) linkage).trans next
  obtain ⟨cut, onward, b, cleared, excised⟩ := clearNext_spec forgotten.wellFormed leads
  have trees (cut : List Handle) :
      (if forget then a.forgetResults first else a).trees cut = a.trees cut :=
    List.flatMap_congr fun x _ => subtree_forget a forget first x
  have anchor := excised.stretch.anchor_not_mem forgotten.wellFormed.sound
  rw [trees] at anchor
  have whole : a.Excised b (.after head) (first :: cut) onward :=
    excised.of_forgotten linkage (trees _) (fun x kept => node?_forget_of_not_mem fun inside =>
      kept (List.mem_append_left _ inside)) anchor
  refine ⟨cut, onward, b, cleared, whole, ?_⟩
  have added := whole.live_add wf
  have own := whole.stretch.mem_trees wf.sound List.mem_cons_self
  have positive := List.length_pos_of_mem own
  omega

/-- In an arena without commands nothing follows. -/
theorem next?_of_no_live (wf : a.WellFormed) (head : Handle) (empty : a.live ≤ 0) :
    a.next? head = none := by
  rw [Option.eq_none_iff_forall_ne_some]
  intro first next
  have member := mem_handles.mpr (wf.live (.after head) first next)
  have positive := List.length_pos_of_mem member
  rw [length_handles] at positive
  exact absurd empty (Nat.not_le_of_lt positive)

/-- Clearing cuts out all that stands behind the root. -/
theorem clearRest_excises (wf : a.WellFormed) (enough : a.live ≤ limit) :
    a.Excised (a.clearRest head forget limit) (.after head) (a.chain (a.next? head)) none := by
  have ended {a : Arena} (wf : a.WellFormed) (next : a.next? head = none) :
      a.Excised a (.after head) (a.chain (a.next? head)) none := by
    have done := Excised.refl wf (.after head)
    rw [next, chain_none]
    rwa [show a.target? (.after head) = none from next] at done
  induction limit generalizing a with
  | zero => exact ended wf (next?_of_no_live wf head enough)
  | succ limit ih =>
      cases next : a.next? head with
      | none =>
          have done := ended wf next
          rw [next] at done
          rw [clearRest, next]
          exact done
      | some first =>
          obtain ⟨cut, onward, b, cleared, excised, fewer⟩ := pass_spec wf forget next
          have rest := excised.trans wf (ih excised.wellFormed (by omega))
          rw [rest.stretch.eq_chain wf.sound] at rest
          rw [clearRest, next]
          dsimp only
          rw [cleared]
          rw [← next]
          exact rest

/-- As many passes are enough as there are commands. -/
theorem clearRest_eq (wf : a.WellFormed) (head : Handle) (forget : Bool) (enough : a.live ≤ limit) :
    a.clearRest head forget (limit + 1) = a.clearRest head forget limit := by
  induction limit generalizing a with
  | zero =>
      have next := next?_of_no_live wf head enough
      simp only [clearRest, next]
  | succ limit ih =>
      rw [clearRest, clearRest.eq_def a head forget (limit + 1)]
      cases next : a.next? head with
      | none => rfl
      | some first =>
          obtain ⟨cut, onward, b, cleared, excised, fewer⟩ := pass_spec wf forget next
          dsimp only
          rw [cleared]
          exact ih excised.wellFormed (by omega)

/-- `b` is `a` without the commands in `gone`; the other commands have the links they had, but nothing
follows the root any more if it is kept. -/
structure Cleared (a b : Arena) (head : Handle) (keepFirst : Bool) (gone : List Handle) : Prop where
  wellFormed : b.WellFormed
  deleted : ∀ x ∈ gone, a.contains x ∧ b.node? x = none
  kept : ∀ x, x ∉ gone → x ≠ head → b.node? x = a.node? x
  first : keepFirst → b.node? head = (a.node? head).map fun node => { node with next := none }
  live : b.live + gone.length = a.live

theorem Excised.unowned (excised : a.Excised b p cut onward) (root : a.linkage.Unowned h)
    (apart : onward ≠ some h) : b.linkage.Unowned h := by
  intro q leads
  have leads : b.target? q = some h := leads
  rw [excised.target q (excised.not_mem_of_contains (contains_anchor leads))] at leads
  split at leads
  · exact apart leads
  · exact root q leads

/-- The root goes with its branches once nothing follows it. -/
theorem delete_root (wf : a.WellFormed) (root : a.IsRoot head) (live : a.contains head)
    (excised : a.Excised b (.after head) cut none) (forget : Bool) :
    a.Cleared ((if forget then b.forgetResults head else b).delete head).2 head false
      (a.subtree head ++ a.trees cut) := by
  have sound := wf.sound
  obtain ⟨forgotten, linkage⟩ := trimmed_forget excised.wellFormed forget head
  have whole : a.commandsFrom head = a.subtree head ++ a.trees cut := by
    have behind := excised.stretch.commandsAt_eq sound
    rw [Option.toList_none, List.flatMap_nil, List.append_nil] at behind
    rw [commandsFrom_eq_subtree sound, ← behind]
    rfl
  have nodup : (a.subtree head ++ a.trees cut).Nodup := whole ▸ nodup_commandsFrom sound head
  have same : b.subtree head = a.subtree head := by
    rw [← trees_singleton, ← trees_singleton]
    exact excised.trees_eq_self sound excised.wellFormed.sound (List.forall_mem_singleton.mpr live)
      (a.trees_singleton head ▸ (List.disjoint_of_nodup_append nodup).symm)
  have liveStill : b.contains head :=
    (excised.contains_iff head).mpr ⟨live, excised.stretch.anchor_not_mem sound⟩
  have next : b.next? head = none := excised.target?_eq wf
  have unowned := excised.unowned (root.unowned sound) (Option.some_ne_none head).symm
  generalize changed : (if forget then b.forgetResults head else b) = d at forgotten linkage
  have detached : d.Detached head := by
    refine ⟨.of_unowned forgotten.wellFormed.sound (linkage ▸ unowned), ?_, ?_⟩
    · exact (congrArg (·.live head) linkage).mpr liveStill
    · exact (congrArg (·.target (.after head)) linkage).trans next
  obtain ⟨command, c, -, deleted, without⟩ := forgotten.wellFormed.delete_cases detached
  rw [deleted]
  have tree (x : Handle) : d.linkage.Reaches head x ↔ x ∈ a.subtree head := by
    rw [linkage, ← same]
    exact (mem_subtree_of_last excised.wellFormed.sound liveStill next).symm
  have outside (x : Handle) (out : x ∉ a.subtree head) : c.node? x = b.node? x := by
    rw [without.kept (mt (tree x).mp out), ← changed]
    exact node?_forget_of_not_mem (same ▸ out)
  have inside (x : Handle) (own : x ∈ a.subtree head) : c.node? x = none :=
    without.none ((tree x).mpr own)
  have left (x : Handle) : c.contains x ↔ a.contains x ∧ x ∉ a.subtree head ++ a.trees cut := by
    by_cases own : x ∈ a.subtree head
    · simp [Arena.contains, inside x own, own]
    · rw [Arena.contains, outside x own, ← Arena.contains, excised.contains_iff]
      simp [own]
  have held (x : Handle) (member : x ∈ a.subtree head ++ a.trees cut) : a.contains x := by
    rw [← whole] at member
    exact contains_of_reaches sound live ((mem_commandsFrom sound).mp member).2
  refine ⟨without.wellFormed forgotten.wellFormed (detached.unowned forgotten.wellFormed),
    fun x member => ⟨held x member, node?_of_stale fun stays => ((left x).mp stays).2 member⟩,
    fun x kept different => ?_, fun keeps => absurd keeps Bool.false_ne_true,
    live_add_length nodup held left⟩
  rw [List.mem_append, not_or] at kept
  rw [outside x kept.1, excised.node x kept.2 different (Option.some_ne_none x).symm]

/-- What is left of an arena when a sequence is cleared from its root on. -/
theorem WellFormed.cleared_clear (wf : a.WellFormed) (root : a.IsRoot head) (keepFirst forget : Bool) :
    a.Cleared (a.clear head keepFirst forget) head keepFirst
      ((if keepFirst then [] else a.subtree head) ++ (a.chain (a.next? head)).flatMap a.subtree) := by
  by_cases live : a.contains head
  · have excised : a.Excised (a.clearRest head forget a.live) (.after head) _ none :=
      clearRest_excises wf (Nat.le_refl a.live)
    rw [clear, live]
    cases keepFirst with
    | false => exact delete_root wf root live excised forget
    | true =>
        exact ⟨excised.wellFormed,
          fun x inside => ⟨contains_of_mem_trees inside wf.sound, excised.gone x inside⟩,
          fun x kept different => excised.node x kept different (Option.some_ne_none x).symm,
          fun _ => excised.last head rfl, excised.live_add wf⟩
  · have absent := node?_of_stale live
    have next : a.next? head = none := by rw [next?, absent]; rfl
    have nothing : (if keepFirst then [] else a.subtree head) ++
        (a.chain (a.next? head)).flatMap a.subtree = [] := by
      rw [next, chain_none, subtree, absent]
      simp
    have same : a.clear head keepFirst forget = a := by
      rw [clear, Bool.eq_false_iff.mpr live]
      rfl
    rw [nothing, same]
    exact ⟨wf, fun _ inside => absurd inside List.not_mem_nil, fun _ _ _ => rfl,
      fun _ => by rw [absent]; rfl, rfl⟩

/-- Clearing a sequence from its root on always comes to its end, with the answer that it is done. All
behind the root is gone then, also where the script blocks are not balanced, and the root with its branches
unless it is kept. Nothing else has changed. -/
theorem clear_exact (wf : a.WellFormed) (root : a.IsRoot head) (keepFirst forget : Bool) :
    (∀ limit, a.live ≤ limit → a.clearRest head forget limit = a.clearRest head forget a.live) ∧
    ∃ b, Edit.clear head keepFirst forget a = (.ok true, b) ∧
      a.Cleared b head keepFirst ((if keepFirst then [] else a.subtree head) ++
        (a.chain (a.next? head)).flatMap a.subtree) := by
  constructor
  · intro limit enough
    induction limit, enough using Nat.le_induction with
    | base => rfl
    | succ limit enough ih => rw [clearRest_eq wf head forget enough, ih]
  · exact ⟨a.clear head keepFirst forget, rfl, wf.cleared_clear root keepFirst forget⟩

/-- A script block without an end does not keep a sequence from being cleared. -/
theorem clear_exact_unclosed : sample.WellFormed ∧ sample.IsRoot (.ofIndex 12) ∧
    (∀ inner stop, ¬ sample.ScriptBlock (.ofIndex 13) inner stop) ∧
    ∃ b, Edit.clear (.ofIndex 12) false true sample = (.ok true, b) ∧
      sample.Cleared b (.ofIndex 12) false ([12, 13, 14, 15].map .ofIndex) := by
  have root : sample.IsRoot (.ofIndex 12) := by decide +kernel
  have unclosed (inner : List Handle) (stop : Handle) :
      ¬ sample.ScriptBlock (.ofIndex 13) inner stop := by
    intro block
    have closes := (matchingEnd_eq_some_iff wellFormed_sample.sound block.begins).mpr ⟨inner, block⟩
    have none : sample.matchingEnd (.ofIndex 13) = none := by decide +kernel
    cases none.symm.trans closes
  have gone : sample.subtree (.ofIndex 12) ++
      (sample.chain (sample.next? (.ofIndex 12))).flatMap sample.subtree =
        [12, 13, 14, 15].map Handle.ofIndex := by decide +kernel
  obtain ⟨b, ran, cleared⟩ := (clear_exact wellFormed_sample root false true).2
  rw [if_neg Bool.false_ne_true, gone] at cleared
  exact ⟨wellFormed_sample, root, unclosed, b, ran, cleared⟩

end Arena

end MissionScript
