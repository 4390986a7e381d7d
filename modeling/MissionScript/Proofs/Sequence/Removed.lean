import MissionScript.Proofs.Sequence.Extraction
import MissionScript.Proofs.Sequence.Removal
import MissionScript.Proofs.Sequence.ScriptBlock

/-!
# What a removal leaves

A removal takes out one command with its branches, and a script block goes with all that it holds. Any other
command stays where it was in the order of the commands. If a script block cannot be removed, nothing
happens.
-/

namespace MissionScript

open Edit

namespace Arena

variable {a b c : Arena} {p : Point} {head h last stop : Handle} {inner cut : List Handle}
  {onward : Option Handle} {command : Command} {limit : Nat}

/-! ## Deleting a script block -/

/-- What stands behind a command is deleted up to a command of its chain. -/
theorem deleteUntil_spec (head : Handle) (wf : a.WellFormed)
    (stretch : a.Stretch (.after h) inner (some stop)) (enough : inner.length < limit) :
    ∃ b, deleteUntil head stop limit (a.next? h) a = (.ok (), b) ∧
      a.Excised b (.after h) inner (some stop) := by
  induction inner generalizing a limit with
  | nil =>
      have next : a.next? h = some stop := (stretch.onward_unique (.done (.after h)))
      obtain ⟨limit, rfl⟩ := Nat.exists_eq_add_one_of_ne_zero (Nat.ne_of_gt enough)
      have done := Excised.refl wf (.after h)
      rw [show a.target? (.after h) = some stop from next] at done
      refine ⟨a, ?_, done⟩
      rw [next, deleteUntil, if_pos rfl]
      rfl
  | cons x rest ih =>
      obtain ⟨limit, rfl⟩ := Nat.exists_eq_add_one_of_ne_zero (Nat.ne_of_gt (Nat.zero_lt_of_lt enough))
      cases onto : stretch with
      | step leads behind =>
          have next : a.next? h = some x := leads
          have different : x ≠ stop := by
            rintro rfl
            exact wf.sound.acyclic x (behind.below_onward rfl)
          obtain ⟨b, command, c, done, deleted, excised⟩ :=
            discard_spec head wf leads trivial
          have follows : c.next? h = a.next? x := excised.target?_eq wf
          have rest : a.Stretch (.after h) ([x] ++ rest) (some stop) := stretch
          obtain ⟨d, ran, rested⟩ := ih excised.wellFormed (excised.stretch_onward wf rest)
            (Nat.lt_of_succ_lt_succ enough)
          refine ⟨d, ?_, excised.trans wf rested⟩
          rw [next, deleteUntil, if_neg different]
          dsimp only
          rw [Step.get_bind, Step.bind_ok done, Step.bind_ok deleted, ← follows]
          exact ran

/-- The commands of a script block are in a row. -/
theorem ScriptBlock.stretch (sound : a.linkage.Sound) (block : a.ScriptBlock h inner stop) :
    ∃ onward, a.Stretch (.after h) (inner ++ [stop]) onward :=
  Stretch.of_prefix (p := .after h) sound block.closes.row

theorem ScriptBlock.contains (block : a.ScriptBlock h inner stop) : a.contains h := by
  obtain ⟨command, found, -⟩ := Option.map_eq_some_iff.mp block.begins
  rw [contains_eq, found]
  rfl

theorem ScriptBlock.length_lt (sound : a.linkage.Sound) (block : a.ScriptBlock h inner stop) :
    inner.length < a.live + 1 := by
  have row := block.closes.row.length_le
  have whole : (a.chain (some h)).length ≤ a.live := length_follow_le_live sound block.contains
  rw [chain_some sound, List.length_cons] at whole
  rw [List.length_append, List.length_singleton] at row
  omega

/-- The commands of a script block are deleted, and its end with them. -/
theorem deleteScript_spec (head : Handle) (wf : a.WellFormed) (follows : a.previous? h ≠ none)
    (block : a.ScriptBlock h inner stop) :
    ∃ b onward, deleteScript head h a = (.ok (), b) ∧ a.Excised b (.after h) (inner ++ [stop]) onward := by
  have sound := wf.sound
  obtain ⟨node, found⟩ := exists_node? block.contains
  have next : node.next = a.next? h := by rw [next?, found]; rfl
  have previous : node.previous = a.previous? h := by rw [previous?, found]; rfl
  have ends : a.matchingEnd h = some stop := (matchingEnd_eq_some_iff sound block.begins).mpr ⟨inner, block⟩
  obtain ⟨later, whole⟩ := block.stretch sound
  obtain ⟨q, first, last⟩ := whole.split
  cases last with
  | step leads behind =>
      rw [leads] at first
      obtain ⟨b, ran, cleared⟩ := deleteUntil_spec head wf first (block.length_lt sound)
      have leadsToStop : b.target? (.after h) = some stop := cleared.target?_eq wf
      obtain ⟨c, command, d, done, deleted, excised⟩ :=
        discard_spec head cleared.wellFormed leadsToStop trivial
      refine ⟨d, b.next? stop, ?_, cleared.trans wf excised⟩
      unfold deleteScript
      rw [Step.bind_ok (node_eq found), previous, if_neg (by simpa using follows)]
      dsimp only
      rw [Step.get_bind, ends]
      dsimp only
      rw [Step.get_bind, next, Step.bind_ok ran, Step.bind_ok done, Step.bind_ok deleted]
      rfl

/-! ## Removing a command -/

theorem remove_of_kind (different : h ≠ head) (found : a.command? h = some command) :
    remove head h a = (if command.kind = .beginScript then
      deleteScript head h >>= fun _ => unlink head h else unlink head h) a := by
  obtain ⟨node, held, rfl⟩ := Option.map_eq_some_iff.mp found
  exact remove_of_ne different held

/-- A script block without a command before it is not removed. -/
theorem remove_first (different : h ≠ head) (found : a.command? h = some command)
    (begins : command.kind = .beginScript) (first : a.previous? h = none) :
    remove head h a = (.error (.nullPrevious command.subject), a) := by
  obtain ⟨node, held, rfl⟩ := Option.map_eq_some_iff.mp found
  have previous : node.previous = none := by
    rw [previous?, held] at first
    exact first
  rw [remove_of_kind different found, if_pos begins]
  apply Step.bind_error
  unfold deleteScript
  rw [Step.bind_ok (node_eq held), previous, if_pos Option.isNone_none]
  rfl

/-- A script block without an end is not removed. -/
theorem remove_unclosed (sound : a.linkage.Sound) (different : h ≠ head)
    (found : a.command? h = some command) (begins : command.kind = .beginScript)
    (follows : a.previous? h ≠ none) (unclosed : ∀ inner stop, ¬ a.ScriptBlock h inner stop) :
    remove head h a = (.error (.unmatchedBlock command.subject), a) := by
  obtain ⟨node, held, rfl⟩ := Option.map_eq_some_iff.mp found
  have previous : node.previous = a.previous? h := by rw [previous?, held]; rfl
  have kind : a.kind? h = some .beginScript := by rw [kind?, found, Option.map_some, begins]
  have ends : a.matchingEnd h = none := by
    rw [Option.eq_none_iff_forall_ne_some]
    intro stop closes
    obtain ⟨inner, block⟩ := (matchingEnd_eq_some_iff sound kind).mp closes
    exact unclosed inner stop block
  rw [remove_of_kind different found, if_pos begins]
  apply Step.bind_error
  unfold deleteScript
  rw [Step.bind_ok (node_eq held), previous, if_neg (by simpa using follows)]
  dsimp only
  rw [Step.get_bind, ends]
  rfl

/-- `b` is `a` without some commands behind `h`, and `h` is off its chain with its branches. -/
structure Detaches (a b : Arena) (p : Point) (h : Handle) (cut : List Handle) : Prop where
  inner : ∃ c onward, a.Excised c (.after h) cut onward ∧ c.Unlinked b p h
  own : b.node? h = (a.node? h).map fun node => { node with previous := none, next := none }

/-- A command that is not the start of a script block is taken off its chain. -/
theorem remove_single (wf : a.WellFormed) (leads : a.target? p = some h)
    (known : a.Locates head p h) (different : h ≠ head) (single : a.kind? h ≠ some .beginScript) :
    ∃ b, remove head h a = (.ok (), b) ∧ a.Detaches b p h [] := by
  obtain ⟨command, found⟩ := contains_iff.mp (wf.sound.live leads).2
  have kind : command.kind ≠ .beginScript := by
    intro same
    rw [kind?, found, Option.map_some, same] at single
    exact single rfl
  obtain ⟨b, done, unlinked, own⟩ := unlink_spec wf leads known
  refine ⟨b, ?_, ⟨a, a.next? h, .refl wf (.after h), unlinked⟩, own⟩
  rw [remove_of_kind different found, if_neg kind]
  exact done

/-- What a script block holds is deleted, and its start is taken off the chain. -/
theorem remove_block (wf : a.WellFormed) (leads : a.target? (.after last) = some h) (different : h ≠ head)
    (block : a.ScriptBlock h inner stop) :
    ∃ b, remove head h a = (.ok (), b) ∧ a.Detaches b (.after last) h (inner ++ [stop]) := by
  obtain ⟨command, found, begins⟩ := Option.map_eq_some_iff.mp block.begins
  have follows : a.previous? h ≠ none := by
    rw [(wf.back last h).mp leads]
    exact Option.some_ne_none last
  obtain ⟨c, onward, ran, cleared⟩ := deleteScript_spec head wf follows block
  have still := cleared.target?_front wf leads
  obtain ⟨b, done, unlinked, own⟩ := unlink_spec cleared.wellFormed still trivial
  refine ⟨b, ?_, ⟨c, onward, cleared, unlinked⟩, ?_⟩
  · rw [remove_of_kind different found, if_pos begins, Step.bind_ok ran]
    exact done
  · rw [own, cleared.last h rfl, Option.map_map]
    rfl

/-- `b` is `a` with `h` out of the commands from `head` on. What is in `gone` is deleted. -/
structure Removed (a b : Arena) (head h : Handle) (gone : List Handle) : Prop where
  wellFormed : b.WellFormed
  contains : ∀ x, b.contains x ↔ a.contains x ∧ x ∉ gone
  command : ∀ x, x ∉ gone → b.command? x = a.command? x
  /-- The command has no links but those to its branches, -/
  own : b.node? h = (a.node? h).map fun node => { node with previous := none, next := none }
  /-- which are as they were, -/
  inside : ∀ x ∈ a.subtree h, x ≠ h → b.node? x = a.node? x
  /-- and no link leads to it. -/
  detached : b.Detached h
  commands : b.commandsFrom head = (a.commandsFrom head).filter (· ∉ a.subtree h ++ gone)

theorem Detaches.removed (wf : a.WellFormed) (leads : a.target? p = some h)
    (detaches : a.Detaches b p h cut) (reaches : a.linkage.Reaches head h) (different : h ≠ head) :
    a.Removed b head h (a.trees cut) := by
  obtain ⟨⟨c, onward, inner, unlinked⟩, own⟩ := detaches
  have sound := wf.sound
  have soundToo := inner.wellFormed.sound
  have whole : a.Stretch p (h :: cut) onward := .step leads inner.stretch
  have apart := List.disjoint_of_nodup_append (a.trees_cons h cut ▸ whole.nodup_trees sound)
  have same : c.trees [h] = a.subtree h := by
    rw [← trees_singleton]
    exact inner.trees_eq_self sound soundToo
      (List.forall_mem_singleton.mpr (sound.live leads).2) (a.trees_singleton h ▸ apart.symm)
  have leadsToo := inner.target?_front wf leads
  have next : c.next? h = onward := inner.target?_eq wf
  have back : b.previous? h = none := by
    rw [previous?, own]
    cases a.node? h <;> rfl
  have becomes := unlinked.becomes back
  have wfToo := inner.wellFormed.of_becomes becomes (soundToo.unlink leadsToo)
  -- Nothing above the command is below it or behind it.
  have above : head ∉ a.trees (h :: cut) := by
    intro inside
    have down : Relation.TransGen a.linkage.Owns head h :=
      (Relation.reflTransGen_iff_eq_or_transGen.mp reaches).resolve_left different
    rcases mem_trees_cons.mp inside with own | behind
    · exact sound.acyclic head (down.trans_left (reaches_of_mem_subtree sound own))
    · exact sound.acyclic head (down.trans (inner.stretch.below_of_mem_trees sound behind))
  have outer := (unlinked.bypassed inner.wellFormed leadsToo).commandsFrom_eq soundToo wfToo.sound
    (show head ∉ c.trees [h] by rw [same]; exact above ∘ mem_trees_cons.mpr ∘ .inl)
  refine ⟨wfToo, fun x => ?_, fun x kept => ?_, own, fun x inside notSelf => ?_,
    becomes.detached inner.wellFormed leadsToo, ?_⟩
  · rw [unlinked.contains]
    exact inner.contains_iff x
  · rw [unlinked.commands, inner.command x kept]
  · have below : x ∈ a.trees (h :: cut) := mem_trees_cons.mpr (.inl inside)
    have away : x ≠ p.anchor := fun here => whole.anchor_not_mem sound (here ▸ below)
    have further : onward ≠ some x := fun here => whole.onward_not_mem sound here below
    have kept : x ∉ a.trees cut := fun gone => apart inside gone
    rw [unlinked.node x notSelf away (next ▸ further), inner.node x kept notSelf further]
  · rw [outer, inner.commandsFrom_eq sound soundToo (above ∘ mem_trees_cons.mpr ∘ .inr), List.filter_filter,
      same]
    apply List.filter_congr
    intro x _
    simp [not_or]

/-- A removal takes a command out with its branches, or with the script block that it begins, and leaves
the other commands as they are. A script block needs a command before it and an end; without them nothing
changes. -/
theorem remove_exact (wf : a.WellFormed) (member : h ∈ a.commandsFrom head) (different : h ≠ head)
    (found : a.command? h = some command) :
    (command.kind ≠ .beginScript → ∃ b, remove head h a = (.ok (), b) ∧ a.Removed b head h []) ∧
    (command.kind = .beginScript →
      (∀ inner stop, a.previous? h ≠ none → a.ScriptBlock h inner stop →
        ∃ b, remove head h a = (.ok (), b) ∧
          a.Removed b head h ((inner ++ [stop]).flatMap a.subtree)) ∧
      (a.previous? h = none → remove head h a = (.error (.nullPrevious command.subject), a)) ∧
      (a.previous? h ≠ none → (∀ inner stop, ¬ a.ScriptBlock h inner stop) →
        remove head h a = (.error (.unmatchedBlock command.subject), a))) := by
  have sound := wf.sound
  have reaches := ((mem_commandsFrom sound).mp member).2
  obtain ⟨p, leads⟩ : ∃ p, a.target? p = some h := by
    rcases Relation.ReflTransGen.cases_tail reaches with same | ⟨_, -, p, -, leads⟩
    · exact absurd same different
    · exact ⟨p, leads⟩
  constructor
  · intro plain
    have kind : a.kind? h ≠ some .beginScript := by
      rw [kind?, found]
      exact plain ∘ Option.some.inj
    have known : a.Locates head p h := by
      cases p with
      | after => trivial
      | inside owner branch => exact parent_of_head wf reaches leads different
    obtain ⟨b, done, detaches⟩ := remove_single wf leads known different kind
    exact ⟨b, done, detaches.removed wf leads reaches different⟩
  · intro begins
    refine ⟨fun inner stop follows block => ?_, remove_first different found begins,
      remove_unclosed sound different found begins⟩
    obtain ⟨last, previous⟩ := Option.ne_none_iff_exists'.mp follows
    have leads : a.target? (.after last) = some h := (wf.back last h).mpr previous
    obtain ⟨b, done, detaches⟩ := remove_block wf leads different block
    exact ⟨b, done, detaches.removed wf leads reaches different⟩

/-- A script block is removed with the block and the condition that it holds. -/
theorem remove_exact_nested : sample.WellFormed ∧
    .ofIndex 1 ∈ sample.commandsFrom (.ofIndex 0) ∧
    sample.ScriptBlock (.ofIndex 1) ([2, 3, 4, 5].map .ofIndex) (.ofIndex 10) ∧
    ∃ b, remove (.ofIndex 0) (.ofIndex 1) sample = (.ok (), b) ∧
      sample.Removed b (.ofIndex 0) (.ofIndex 1) ([2, 3, 4, 5, 6, 7, 8, 9, 10].map .ofIndex) := by
  have member : Handle.ofIndex 1 ∈ sample.commandsFrom (.ofIndex 0) := by decide +kernel
  have follows : sample.previous? (.ofIndex 1) ≠ none := by decide +kernel
  have block : sample.ScriptBlock (.ofIndex 1) ([2, 3, 4, 5].map .ofIndex) (.ofIndex 10) := by
    decide +kernel
  have trees : ([2, 3, 4, 5].map Handle.ofIndex ++ [Handle.ofIndex 10]).flatMap sample.subtree =
      [2, 3, 4, 5, 6, 7, 8, 9, 10].map Handle.ofIndex := by decide +kernel
  obtain ⟨command, found, begins⟩ := Option.map_eq_some_iff.mp block.begins
  have removed := ((remove_exact wellFormed_sample member (by decide) found).2 begins).1 _ _ follows block
  rw [trees] at removed
  exact ⟨wellFormed_sample, member, block, removed⟩

end Arena

end MissionScript
