import MissionScript.Proofs.Sequence.Ownership
import MissionScript.Proofs.Sequence.Stretch

/-!
# Extractions

Taking a command off its chain changes the nodes of that command and of the two that are linked in its
place. When the command is deleted then, its tree goes and the rest is as it was. Such steps make up the
removal of a whole stretch: of commands in a row, or of a stretch and the command in front of it.
-/

namespace MissionScript

namespace Linkage

variable {l : Linkage} {p : Point} {h : Handle}

/-- What a command reaches once it is off its chain is what its branches lead to. -/
theorem Sound.reaches_unlink_iff (sound : l.Sound) (leads : l.target p = some h) (other : Handle) :
    (l.unlink p h).Reaches h other ↔
      other = h ∨ ∃ branch head, l.target (.inside h branch) = some head ∧ l.Reaches head other := by
  have kept {q : Point} (below : l.Reaches h q.anchor) (inner : q ≠ .after h) :
      (l.unlink p h).target q = l.target q := by
    have elsewhere : q ≠ p := fun same => sound.not_reaches leads (same ▸ below)
    rw [target_unlink, if_neg elsewhere, if_neg inner]
  constructor
  · intro reaches
    induction reaches with
    | refl => exact .inl rfl
    | @tail middle last before owns ih =>
        obtain ⟨q, rfl, leadsStill⟩ := owns
        have notAfter : q ≠ .after h := by
          rintro rfl
          rw [sound.target_unlink_after leads] at leadsStill
          cases leadsStill
        apply Or.inr
        rcases ih with same | ⟨branch, head, first, rest⟩
        · rw [kept (same ▸ .refl) notAfter] at leadsStill
          cases q with
          | after => exact absurd (congrArg _ same) notAfter
          | inside owner branch =>
              obtain rfl : owner = h := same
              exact ⟨branch, last, leadsStill, .refl⟩
        · rw [kept (.head (.of_target first) rest) notAfter] at leadsStill
          exact ⟨branch, head, first, rest.tail (.of_target leadsStill)⟩
  · rintro (rfl | ⟨branch, head, first, rest⟩)
    · exact .refl
    · have start : (l.unlink p h).Reaches h head :=
        .single ⟨.inside h branch, rfl, (kept (q := .inside h branch) .refl Point.noConfusion).trans first⟩
      refine start.trans ?_
      induction rest with
      | refl => exact .refl
      | @tail middle last before owns ih =>
          obtain ⟨q, rfl, leadsToo⟩ := owns
          have notAfter : q ≠ .after h := by
            rintro rfl
            exact sound.not_reaches first before
          exact ih.tail ⟨q, rfl, (kept (.head (.of_target first) before) notAfter).trans leadsToo⟩

end Linkage

/-- The owner of a command can be found from `head` on if the command is the first one of a branch. -/
def Arena.Locates (a : Arena) (head : Handle) : Point → Handle → Prop
  | .after _, _ => True
  | .inside owner _, h => a.parent head h = some owner

/-- Let the link at a point lead elsewhere. -/
def Point.write (next : Option Handle) : Point → Node → Node
  | after _, node => { node with next }
  | inside _ branch, node => node.setBranch branch next

namespace Edit

open Arena

variable {a b : Arena} {p : Point} {head h other owner : Handle} {branch : Nat}
  {next : Option Handle}

/-- Let the link at a point lead elsewhere, with the way back. -/
def relink (p : Point) (next : Option Handle) : Edit Unit :=
  match p with
  | .after last => setNext last next
  | .inside owner branch => setBranch owner branch next

theorem relink_eq (p : Point) (next : Option Handle) :
    relink p next = (modifyNode p.anchor (p.write next) >>= fun _ =>
      match next with
      | none => pure ()
      | some h => setPrevious h p.previous?) := by
  cases p <;> cases next <;> rfl

theorem node?_of_modifyNode {f : Node → Node} (ran : modifyNode h f a = (.ok (), b)) (other : Handle) :
    b.node? other = if other = h then (a.node? h).map f else a.node? other := by
  unfold modifyNode at ran
  rw [Step.get_bind] at ran
  cases changed : a.modify? h f with
  | none =>
      rw [changed] at ran
      cases ran
  | some c =>
      rw [changed] at ran
      cases ran
      exact node?_of_modify? changed other

/-- A link that leads elsewhere changes the node it starts from. -/
theorem node?_of_relink (ran : relink p next a = (.ok (), b)) (apart : next ≠ some other) :
    b.node? other = if other = p.anchor then (a.node? p.anchor).map (p.write next) else a.node? other := by
  rw [relink_eq] at ran
  obtain ⟨_, c, first, second⟩ := Step.bind_eq_ok ran
  rw [← node?_of_modifyNode first other]
  cases next with
  | none =>
      cases second
      rfl
  | some follower =>
      have different : other ≠ follower := fun same => apart (congrArg some same.symm)
      rw [node?_of_modifyNode second, if_neg different]

theorem relink_becomes (wf : a.WellFormed) (leads : a.target? p = some h) :
    ∃ b, relink p (a.next? h) a = (.ok (), b) ∧ a.Becomes b (a.linkage.relink p (a.next? h)) := by
  have liveNext (other : Handle) (same : a.next? h = some other) : a.contains other :=
    wf.live (.after h) other same
  cases p with
  | after last => exact setNext_becomes (contains_anchor leads) _ liveNext
  | inside owner branch =>
      obtain ⟨node, found⟩ := exists_node? (contains_anchor leads)
      have branches : node.branches ≠ [] := by
        intro none
        rw [target?_of_node? found, Point.read?, none] at leads
        cases leads
      exact setBranch_becomes found (.inl branches) branch _ liveNext

/-- The branch of a command is found through its owner. -/
theorem branchOf_eq (sound : a.linkage.Sound) (leads : a.target? (.inside owner branch) = some h)
    (known : a.parent head h = some owner) : branchOf head h a = (.ok (owner, branch), a) := by
  obtain ⟨node, found⟩ := exists_node? (sound.live (p := .inside owner branch) leads).2
  obtain ⟨own, held⟩ : ∃ own, a.node? owner = some own :=
    exists_node? (sound.live (p := .inside owner branch) leads).1
  have first : own.branches[branch]? = some (some h) := by
    rw [target?, child?, held] at leads
    exact Option.join_eq_some_iff.mp leads
  unfold branchOf
  rw [Step.bind_ok (node_eq found), Step.get_bind, known]
  dsimp only
  rw [Step.bind_ok (node_eq held)]
  cases position : own.branches.findIdx? (· == some h) with
  | none =>
      have absent := List.findIdx?_eq_none_iff.mp position _ (List.mem_of_getElem? first)
      rw [beq_self_eq_true] at absent
      cases absent
  | some number =>
      obtain ⟨inside, same, -⟩ := List.findIdx?_eq_some_iff_getElem.mp position
      have leadsToo : a.target? (.inside owner number) = some h := by
        rw [target?, child?, held, Option.bind_some, List.getElem?_eq_getElem inside, beq_iff_eq.mp same]
        rfl
      cases sound.single (p := .inside owner branch) (q := .inside owner number) leads leadsToo
      rfl

/-- A command is taken off its chain in three steps, if its owner can be found. -/
theorem unlink_eq (wf : a.WellFormed) (leads : a.target? p = some h) (known : a.Locates head p h) :
    unlink head h a =
      (relink p (a.next? h) >>= fun _ => forceNext h none >>= fun _ => setPrevious h none) a := by
  obtain ⟨node, found⟩ := exists_node? (wf.sound.live leads).2
  have next : node.next = a.next? h := by rw [next?, found]; rfl
  have previous : node.previous = a.previous? h := by rw [previous?, found]; rfl
  unfold unlink
  rw [Step.bind_ok (node_eq found), previous, next]
  cases p with
  | after last =>
      rw [(wf.back last h).mp leads]
      rfl
  | inside owner branch =>
      have back : a.previous? h = none := by
        rw [Option.eq_none_iff_forall_ne_some]
        intro last same
        cases wf.sound.single (p := .after last) (q := .inside owner branch) ((wf.back last h).mpr same) leads
      rw [back]
      dsimp only
      rw [Step.bind_ok (branchOf_eq wf.sound leads known)]
      rfl

end Edit

namespace Arena

open Edit

variable {a b c : Arena} {p : Point} {head h other : Handle} {cut more : List Handle}
  {onward later : Option Handle}

/-! ## Off the chain -/

/-- `b` is `a` with a command off its chain. The way back from the command may still stand. -/
structure Unlinked (a b : Arena) (p : Point) (h : Handle) : Prop where
  linkage : b.linkage.withPrevious h none = a.linkage.unlink p h
  commands : b.command? = a.command?
  branches : a.BranchesOwned → b.BranchesOwned
  node : ∀ other, other ≠ h → other ≠ p.anchor → a.next? h ≠ some other → b.node? other = a.node? other
  last : ∀ last, p = .after last →
    b.node? last = (a.node? last).map fun node => { node with next := a.next? h }

section

variable (wf : a.WellFormed) (leads : a.target? p = some h)

include wf leads

theorem next?_ne_anchor : a.next? h ≠ some p.anchor := by
  intro next
  exact wf.sound.not_reaches leads (reaches_of_next? next)

omit leads in
theorem next?_ne_self (h : Handle) : a.next? h ≠ some h := fun next => wf.sound.anchor_ne (p := .after h) next rfl

/-- A command can be taken off its chain if its owner can be found, and has no links then but those to its
branches. -/
theorem unlink_spec (known : a.Locates head p h) :
    ∃ b, unlink head h a = (.ok (), b) ∧ a.Unlinked b p h ∧
      b.node? h = (a.node? h).map fun node => { node with previous := none, next := none } := by
  obtain ⟨b, ran, becomes⟩ := unlinked_becomes wf.sound leads (relink_becomes wf leads)
  obtain ⟨_, c, first, rest⟩ := Step.bind_eq_ok ran
  obtain ⟨_, d, second, third⟩ := Step.bind_eq_ok rest
  have nodes (other : Handle) (different : other ≠ h) : b.node? other = c.node? other := by
    rw [node?_of_modifyNode third, if_neg different, node?_of_modifyNode second, if_neg different]
  have apart : p.anchor ≠ h := wf.sound.anchor_ne leads
  have own : b.node? h = (a.node? h).map fun node => { node with previous := none, next := none } := by
    rw [node?_of_modifyNode third, if_pos rfl, node?_of_modifyNode second, if_pos rfl,
      node?_of_relink first (next?_ne_self wf h), if_neg apart.symm, Option.map_map]
    rfl
  have back : b.linkage.previous h = none := by
    rw [previous_linkage, previous?, own]
    cases a.node? h <;> rfl
  refine ⟨b, (unlink_eq wf leads known).trans ran, ⟨?_, becomes.commands, becomes.branches, ?_, ?_⟩, own⟩
  · rw [← becomes.linkage]
    exact Linkage.ext rfl rfl (Function.update_eq_self_iff.mpr back.symm)
  · intro other different away further
    rw [nodes other different, node?_of_relink first further, if_neg away]
  · rintro last rfl
    have written := node?_of_relink first (next?_ne_anchor wf leads)
    rw [if_pos rfl] at written
    exact (nodes last apart).trans written

end

namespace Unlinked

variable (wf : a.WellFormed) (leads : a.target? p = some h) (unlinked : a.Unlinked b p h)

include unlinked

theorem target?_eq (q : Point) : b.target? q =
    if q = p then a.next? h else if q = .after h then none else a.target? q := by
  rw [← target_linkage, ← Linkage.target_withPrevious h none, unlinked.linkage, Linkage.target_unlink]
  rfl

theorem contains (other : Handle) : b.contains other = a.contains other := by
  rw [contains_eq, contains_eq, unlinked.commands]

theorem becomes (back : b.previous? h = none) : a.Becomes b (a.linkage.unlink p h) where
  linkage := by
    rw [← unlinked.linkage]
    exact Linkage.ext rfl rfl (Function.update_eq_self_iff.mpr back.symm).symm
  commands := unlinked.commands
  branches := unlinked.branches

include wf leads

/-- The command is passed by, and its branches are left to it. -/
theorem bypassed : a.Bypassed b p [h] (a.next? h) where
  stretch := .step leads (.done _)
  command other _ := congrFun unlinked.commands other
  target q outside := by
    rw [trees_singleton] at outside
    have elsewhere : q ≠ .after h := by
      rintro rfl
      exact outside (self_mem_subtree (wf.sound.live leads).2)
    rw [unlinked.target?_eq, if_neg elsewhere]
  node other outside away further := by
    rw [trees_singleton] at outside
    have different : other ≠ h := by
      rintro rfl
      exact outside (self_mem_subtree (wf.sound.live leads).2)
    exact unlinked.node other different away further
  last last same := unlinked.last last same

theorem reaches_iff : b.linkage.Reaches h other ↔ other ∈ a.subtree h := by
  have live : a.contains h := (wf.sound.live leads).2
  rw [mem_subtree wf.sound, and_iff_right live]
  have same := wf.sound.reaches_unlink_iff leads other
  rw [← unlinked.linkage] at same
  exact same

end Unlinked

/-! ## Out of the arena -/

/-- `b` is `a` without a stretch and its trees, passed by. -/
structure Excised (a b : Arena) (p : Point) (cut : List Handle) (onward : Option Handle) : Prop extends
    Bypassed a b p cut onward where
  gone : ∀ h ∈ a.trees cut, b.node? h = none
  wellFormed : b.WellFormed

theorem Bypassed.without (sound : a.linkage.Sound) (bypassed : a.Bypassed b p cut onward)
    (without : b.Without c (· ∈ a.trees cut)) : a.Bypassed c p cut onward where
  stretch := bypassed.stretch
  command h outside := by
    rw [command?, without.kept outside]
    exact bypassed.command h outside
  target q outside := by
    rw [target?_eq, without.kept outside, ← target?_eq]
    exact bypassed.target q outside
  node h outside away further := (without.kept outside).trans (bypassed.node h outside away further)
  last h same := by
    have outside := bypassed.stretch.anchor_not_mem sound
    rw [same] at outside
    exact (without.kept outside).trans (bypassed.last h same)

/-- A command that is off its chain is deleted with its tree. -/
theorem Unlinked.excised (wf : a.WellFormed) (leads : a.target? p = some h)
    (unlinked : a.Unlinked b p h) :
    ∃ command c, b.delete h = (.ok command, c) ∧ a.Excised c p [h] (a.next? h) := by
  have sound := wf.sound.unlink leads
  have unowned := wf.sound.unowned_unlink leads
  have last := wf.sound.target_unlink_after leads
  rw [← unlinked.linkage] at sound unowned last
  have live : b.contains h := (unlinked.contains h).trans (wf.sound.live leads).2
  obtain ⟨node, found⟩ := exists_node? live
  obtain ⟨c, deleted, without⟩ := delete_without ⟨sound.live, sound.single⟩ found unowned last
  have root : b.linkage.Reaches h h := .refl
  have linkage : c.linkage = a.linkage.discard p h := by
    rw [without.linkage, ← Linkage.drop_withPrevious root none, Linkage.discard, ← unlinked.linkage]
    rfl
  have trees : b.Without c (· ∈ a.trees [h]) := by
    rw [trees_singleton]
    exact without.congr fun other => unlinked.reaches_iff wf leads
  refine ⟨node.command, c, deleted, (unlinked.bypassed wf leads).without wf.sound trees,
    fun other inside => trees.none inside, wellFormed_iff.mpr ⟨?_, ?_⟩⟩
  · rw [linkage]
    exact wf.sound.discard leads
  · exact without.branches (unlinked.branches wf.branches)

/-- A command is taken off its chain and deleted, if its owner can be found. -/
theorem discard_spec (head : Handle) (wf : a.WellFormed) (leads : a.target? p = some h)
    (known : a.Locates head p h) :
    ∃ b command c, unlink head h a = (.ok (), b) ∧ Edit.delete h b = (.ok command, c) ∧
      a.Excised c p [h] (a.next? h) := by
  obtain ⟨b, done, unlinked, -⟩ := unlink_spec wf leads known
  obtain ⟨command, c, deleted, excised⟩ := unlinked.excised wf leads
  exact ⟨b, command, c, done, deleted, excised⟩

namespace Excised

/-- Nothing is cut out. -/
theorem refl (wf : a.WellFormed) (p : Point) : a.Excised a p [] (a.target? p) where
  stretch := .done p
  command _ _ := rfl
  target q _ := by
    split
    · rename_i here
      rw [here]
    · rfl
  node _ _ _ _ := rfl
  last h same := by
    rw [same, target?, next?]
    cases a.node? h <;> rfl
  gone _ inside := absurd inside List.not_mem_nil
  wellFormed := wf

variable {q : Point} {next : Option Handle}

/-- What a stretch led to is what its link leads to now. -/
theorem target?_eq (wf : a.WellFormed) (excised : a.Excised b p cut onward) : b.target? p = onward :=
  (excised.target p (excised.stretch.anchor_not_mem wf.sound)).trans (if_pos rfl)

theorem contains_iff (excised : a.Excised b p cut onward) (x : Handle) :
    b.contains x ↔ a.contains x ∧ x ∉ a.trees cut := by
  by_cases gone : x ∈ a.trees cut
  · rw [Arena.contains, excised.gone x gone]
    simp [gone]
  · rw [excised.contains gone]
    simp [gone]

theorem not_mem_of_contains (excised : a.Excised b p cut onward) (live : b.contains h) :
    h ∉ a.trees cut :=
  ((excised.contains_iff h).mp live).2

/-- The link to a command stands when what follows the command is cut out. -/
theorem target?_front (wf : a.WellFormed) (leads : a.target? p = some h)
    (excised : a.Excised b (.after h) cut onward) : b.target? p = some h := by
  have whole : a.Stretch p (h :: cut) onward := .step leads excised.stretch
  have outside : p.anchor ∉ a.trees cut := whole.anchor_not_mem wf.sound ∘ mem_trees_cons.mpr ∘ .inr
  exact (excised.target p outside).trans ((if_neg (wf.sound.after_ne leads).symm).trans leads)

/-- What is cut out in two steps is gone. -/
theorem gone_twice (first : a.Excised b p cut onward) (second : b.Excised c q more later)
    (trees : b.trees more = a.trees more) (inside : h ∈ a.trees cut ∨ h ∈ a.trees more) :
    c.node? h = none := by
  by_cases here : h ∈ b.trees more
  · exact second.gone h here
  · have gone := first.gone h (inside.resolve_right (trees ▸ here))
    apply node?_of_stale
    rw [second.contains here, Arena.contains, gone]
    exact Bool.false_ne_true

/-- Two stretches in a row are one. -/
theorem trans (wf : a.WellFormed) (first : a.Excised b p cut onward)
    (second : b.Excised c p more later) : a.Excised c p (cut ++ more) later := by
  have sound := wf.sound
  have soundToo := first.wellFormed.sound
  have live (x : Handle) (member : x ∈ more) : x ∉ a.trees cut :=
    first.not_mem_of_contains (second.stretch.contains_of_mem soundToo member)
  have stretch : a.Stretch p (cut ++ more) later := by
    refine first.stretch.append fun q same => ?_
    refine second.stretch.carried (same.trans (first.target?_eq wf).symm) fun x member => ?_
    have elsewhere : Point.after x ≠ p := by
      rintro rfl
      exact soundToo.acyclic x (second.stretch.below_of_mem member)
    exact ((first.target (.after x) (live x member)).trans (if_neg elsewhere)).symm
  have apart := List.disjoint_of_nodup_append (a.trees_append cut more ▸ stretch.nodup_trees sound)
  have trees : b.trees more = a.trees more := first.trees_eq_self sound soundToo
    (fun x member => stretch.contains_of_mem sound (List.mem_append_right _ member)) apart
  have parts (h : Handle) : h ∈ a.trees (cut ++ more) ↔ h ∈ a.trees cut ∨ h ∈ b.trees more := by
    rw [mem_trees_append, trees]
  have outside {h : Handle} (kept : h ∉ a.trees (cut ++ more)) : h ∉ a.trees cut ∧ h ∉ b.trees more :=
    not_or.mp (mt (parts h).mpr kept)
  refine ⟨⟨stretch, fun h kept => ?_, fun q kept => ?_, fun h kept away further => ?_, fun h same => ?_⟩,
    fun h inside => first.gone_twice second trees (by rw [← trees]; exact (parts h).mp inside),
    second.wellFormed⟩
  · rw [second.command h (outside kept).2, first.command h (outside kept).1]
  · rw [second.target q (outside kept).2, first.target q (outside kept).1]
    by_cases here : q = p
    · rw [if_pos here, if_pos here]
    · rw [if_neg here, if_neg here, if_neg here]
  · rw [second.node h (outside kept).2 away further, first.node h (outside kept).1 away]
    -- What followed the first stretch is in the second one or follows that.
    rintro rfl
    cases onto : second.stretch with
    | done => exact further (first.target?_eq wf)
    | step leads behind =>
        obtain rfl := Option.some.inj ((first.target?_eq wf).symm.trans leads)
        exact (outside kept).2 (second.stretch.mem_trees soundToo List.mem_cons_self)
  · rw [second.last h same, first.last h same, Option.map_map]
    rfl

/-- A stretch and the command in front of it are one. -/
theorem enclose (wf : a.WellFormed) (leads : a.target? p = some h)
    (first : a.Excised b (.after h) cut onward) (second : b.Excised c p [h] onward) :
    a.Excised c p (h :: cut) onward := by
  have sound := wf.sound
  have soundToo := first.wellFormed.sound
  have stretch : a.Stretch p (h :: cut) onward := .step leads first.stretch
  have apart := List.disjoint_of_nodup_append (a.trees_cons h cut ▸ stretch.nodup_trees sound)
  have trees : b.trees [h] = a.trees [h] := first.trees_eq_self sound soundToo
    (List.forall_mem_singleton.mpr (sound.live leads).2) (a.trees_singleton h ▸ apart.symm)
  have parts (x : Handle) : x ∈ a.trees (h :: cut) ↔ x ∈ a.trees cut ∨ x ∈ b.trees [h] := by
    rw [mem_trees_cons, trees, trees_singleton, or_comm]
  have outside {x : Handle} (kept : x ∉ a.trees (h :: cut)) : x ∉ a.trees cut ∧ x ∉ b.trees [h] :=
    not_or.mp (mt (parts x).mpr kept)
  have notSelf {x : Handle} (kept : x ∉ a.trees (h :: cut)) : x ≠ h := by
    rintro rfl
    exact kept (stretch.mem_trees sound List.mem_cons_self)
  refine ⟨⟨stretch, fun x kept => ?_, fun q kept => ?_, fun x kept away further => ?_, fun x same => ?_⟩,
    fun x inside => first.gone_twice second trees (by rw [← trees]; exact (parts x).mp inside),
    second.wellFormed⟩
  · rw [second.command x (outside kept).2, first.command x (outside kept).1]
  · have elsewhere : q ≠ .after h := fun same => notSelf kept (congrArg Point.anchor same)
    rw [second.target q (outside kept).2, first.target q (outside kept).1, if_neg elsewhere]
  · rw [second.node x (outside kept).2 away further, first.node x (outside kept).1 (notSelf kept) further]
  · have kept : x ∉ a.trees (h :: cut) := by
      have anchor := stretch.anchor_not_mem sound
      rw [same] at anchor
      exact anchor
    have further : onward ≠ some x := by
      intro leadsBack
      have cycle := stretch.below_onward leadsBack
      rw [same] at cycle
      exact sound.acyclic x cycle
    rw [second.last x same, first.node x (outside kept).1 (notSelf kept) further]

/-- What follows a stretch that is cut out is in a row as before. -/
theorem stretch_onward (wf : a.WellFormed) (excised : a.Excised b p cut onward)
    (whole : a.Stretch p (cut ++ more) later) : b.Stretch p more later := by
  have sound := wf.sound
  obtain ⟨q, first, second⟩ := whole.split
  have start : b.target? p = a.target? q :=
    (excised.target?_eq wf).trans (first.onward_unique excised.stretch)
  have apart := List.disjoint_of_nodup_append (a.trees_append cut more ▸ whole.nodup_trees sound)
  refine second.carried start fun x member => ?_
  have kept : x ∉ a.trees cut := fun gone => apart gone (second.mem_trees sound member)
  have elsewhere : Point.after x ≠ p := by
    rintro rfl
    exact sound.acyclic x (whole.below_of_mem (List.mem_append_right _ member))
  exact (excised.target (.after x) kept).trans (if_neg elsewhere)

end Excised

end Arena

end MissionScript
