import MissionScript.Proofs.Sequence.Deletion
import MissionScript.Proofs.Sequence.History

/-!
# Operations that fail

An operation writes the link to a command before it looks for the command, and a deletion empties the slot
of a command before it looks for what the branches hold. So an operation that fails can leave something
behind: a link that leads to nothing, or a part of a deletion. It leaves the arena as it was exactly if it
has found nothing to write by then.
-/

namespace MissionScript

namespace Arena

variable {a b : Arena} {h : Handle} {node : Node} {f : Node → Node}

theorem write_self (inside : h.index < a.slots.size) (occupied : a.slots[h.index].node ≠ none)
    (held : a.slots[h.index].node = some node) : a.write h.index inside occupied node = a := by
  have same : ({ a.slots[h.index] with node := some node } : Slot) = a.slots[h.index] := by
    rw [← held]
  cases a
  simp only [write, Arena.mk.injEq, and_true]
  rw [same]
  exact Array.set_getElem_self inside

/-- A change that puts the same node there is none. -/
theorem modify?_self (found : a.node? h = some node) (same : f node = node) : a.modify? h f = some a := by
  unfold modify?
  split
  · rename_i missing
    rw [found] at missing
    cases missing
  · rename_i other here
    cases found.symm.trans here
    obtain ⟨inside, held⟩ := slot_of_node? found
    rw [same, write_self _ _ (by rw [held])]

theorem contains_of_modify? (changed : a.modify? h f = some b) : b.contains = a.contains := by
  funext other
  rw [contains, contains, node?_of_modify? changed]
  split
  · rename_i here
    rw [here, Option.isSome_map]
  · rfl

theorem live_sweep_le (a : Arena) (pending : List Handle) : (a.sweep pending).2.live ≤ a.live := by
  fun_induction sweep a pending with
  | case1 => exact Nat.le_refl _
  | case2 => exact Nat.le_refl _
  | case3 a h pending node b released ih =>
      have fewer := live_of_release? released
      omega

/-- There are fewer commands after a deletion, even if it fails. -/
theorem live_delete_lt (live : a.contains h) : (a.delete h).2.live < a.live := by
  obtain ⟨node, found⟩ := exists_node? live
  obtain ⟨b, released⟩ := exists_release? found
  have fewer := live_of_release? released
  have swept := live_sweep_le b node.heads
  rw [delete, released]
  dsimp only
  omega

end Arena

/-! ## Laying a link -/

namespace Edit

variable {a : Arena} {p : Point} {h : Handle}

/-- Lay the link at a point, and then the way back. -/
def link (p : Point) (h : Handle) : Edit Unit := do
  modifyNode p.anchor (p.lay h)
  setPrevious h p.previous?

theorem link_of_no_anchor (stale : ¬a.contains p.anchor) :
    link p h a = (.error (.staleHandle p.anchor), a) :=
  Step.bind_error (modifyNode_stale stale)

/-- A link to none is laid before its other end is missed. -/
theorem link_of_stale (live : a.contains p.anchor) (stale : ¬a.contains h) :
    ∃ b, a.modify? p.anchor (p.lay h) = some b ∧ link p h a = (.error (.staleHandle h), b) := by
  obtain ⟨node, found⟩ := Arena.exists_node? live
  obtain ⟨b, laid⟩ := Arena.exists_modify? found (p.lay h)
  rw [← Arena.contains_of_modify? laid] at stale
  exact ⟨b, laid, (Step.bind_ok (modifyNode_eq laid)).trans (modifyNode_stale stale)⟩

theorem link_of_live (live : a.contains p.anchor) (there : a.contains h) :
    ∃ b, link p h a = (.ok (), b) ∧ b.contains = a.contains := by
  obtain ⟨node, found⟩ := Arena.exists_node? live
  obtain ⟨b, laid⟩ := Arena.exists_modify? found (p.lay h)
  have kept := Arena.contains_of_modify? laid
  rw [← kept] at there
  obtain ⟨other, foundToo⟩ := Arena.exists_node? there
  obtain ⟨c, told⟩ := Arena.exists_modify? foundToo ({ · with previous := p.previous? })
  exact ⟨c, (Step.bind_ok (modifyNode_eq laid)).trans (modifyNode_eq told),
    (Arena.contains_of_modify? told).trans kept⟩

theorem link_cases (a : Arena) (p : Point) (h : Handle) :
    (¬a.contains p.anchor ∧ link p h a = (.error (.staleHandle p.anchor), a)) ∨
      (a.contains p.anchor ∧ ¬a.contains h ∧ ∃ b, a.modify? p.anchor (p.lay h) = some b ∧
        link p h a = (.error (.staleHandle h), b)) ∨
      (a.contains p.anchor ∧ a.contains h ∧ ∃ b, link p h a = (.ok (), b) ∧
        b.contains = a.contains) := by
  by_cases live : a.contains p.anchor
  · by_cases there : a.contains h
    · exact .inr (.inr ⟨live, there, link_of_live live there⟩)
    · exact .inr (.inl ⟨live, there, link_of_stale live there⟩)
  · exact .inl ⟨live, link_of_no_anchor live⟩

theorem setNext_some (h next : Handle) : setNext h (some next) = link (.after h) next := rfl

theorem setNext_none (h : Handle) : setNext h none = forceNext h none := bind_pure_unit

theorem setBranch_none (owner : Handle) (branch : Nat) :
    setBranch owner branch none = modifyNode owner (·.setBranch branch none) := bind_pure_unit

end Edit

/-- A link that is laid changes the arena unless it was there. -/
theorem Arena.modify?_lay_eq_self_iff {a b : Arena} {p : Point} {h : Handle}
    (laid : a.modify? p.anchor (p.lay h) = some b) : b = a ↔ a.target? p = some h := by
  obtain ⟨node, found⟩ : ∃ node, a.node? p.anchor = some node := by
    cases found : a.node? p.anchor with
    | some node => exact ⟨node, rfl⟩
    | none =>
        rw [modify?_eq_none.mpr found] at laid
        cases laid
  constructor
  · rintro rfl
    have same := Arena.node?_of_modify? laid p.anchor
    rw [if_pos rfl, found] at same
    rw [Arena.target?_of_node? found, Option.some.inj same]
    cases p with
    | after last => rfl
    | inside owner branch =>
        rw [Point.read?, Point.lay, Node.branch_setBranch, if_pos rfl]
  · intro there
    rw [Arena.target?_of_node? found] at there
    have same : p.lay h node = node := by
      cases p with
      | after last =>
          have next : node.next = some h := there
          rw [Point.lay, ← next]
      | inside owner branch =>
          obtain ⟨inside, head⟩ := List.getElem?_eq_some_iff.mp (Option.join_eq_some_iff.mp there)
          have none : branch + 1 - node.branches.length = 0 := by omega
          rw [Point.lay, Node.setBranch, none, List.replicate_zero, List.append_nil, ← head]
          simp
    rw [Arena.modify?_self found same] at laid
    exact (Option.some.inj laid).symm

/-! ## What is left behind -/

namespace Linking

/-- The link that a step lays first, if it lays one to a command. -/
def first? : Linking → Arena → Option (Point × Handle)
  | setNext h next, _ => next.map (.after h, ·)
  | setBranch owner branch head, _ => head.map (.inside owner branch, ·)
  | append head h, a => some (.after (a.last head), h)
  | appendToBranch owner branch h, a =>
    match a.child? owner branch with
    | some head => some (.after (a.last head), h)
    | none => some (.inside owner branch, h)
  | insertAfter previous h, a => (a.next? previous).map (.after h, ·)
  | forceNext _ _, _ | setPrevious _ _, _ => none

/-- The link that the step lays first starts from a command and leads to none. -/
def Dangles (l : Linking) (a : Arena) (p : Point) (h : Handle) : Prop :=
  l.first? a = some (p, h) ∧ a.contains p.anchor ∧ ¬a.contains h

variable {l : Linking} {a : Arena} {p : Point} {h : Handle} {e : SequenceError}

/-- A single link that fails leaves the arena as it was, unless it dangles and was not there. -/
theorem link_eq_self_iff (failed : (Edit.link p h a).1 = .error e) :
    (Edit.link p h a).2 = a ↔ (a.contains p.anchor → ¬a.contains h → a.target? p = some h) := by
  rcases Edit.link_cases a p h with ⟨stale, ran⟩ | ⟨live, stale, b, laid, ran⟩ | ⟨-, -, b, ran, -⟩
  · rw [ran]
    exact iff_of_true rfl fun live => absurd live stale
  · rw [ran, Arena.modify?_lay_eq_self_iff laid]
    exact ⟨fun there _ _ => there, fun there => there live stale⟩
  · rw [ran] at failed
    cases failed

/-- A single change that fails leaves the arena as it was. -/
theorem modifyNode_failed {f : Node → Node} (failed : (Edit.modifyNode h f a).1 = .error e) :
    (Edit.modifyNode h f a).2 = a := by
  cases live : a.contains h with
  | false => rw [Edit.modifyNode_stale (Bool.eq_false_iff.mp live)]
  | true =>
      obtain ⟨node, found⟩ := Arena.exists_node? live
      obtain ⟨b, changed⟩ := Arena.exists_modify? found f
      rw [Edit.modifyNode_eq changed] at failed
      cases failed

/-- A step that has linked a command to the next one has found it, and it has deleted nothing. -/
theorem setNext_kept {next : Option Handle} {b : Arena} (ran : Edit.setNext h next a = (.ok (), b)) :
    a.contains h ∧ b.contains = a.contains := by
  cases next with
  | none =>
      rw [Edit.setNext_none] at ran
      cases live : a.contains h with
      | false =>
          have stale := Edit.modifyNode_stale (f := ({ · with next := none })) (Bool.eq_false_iff.mp live)
          cases stale.symm.trans ran
      | true =>
          obtain ⟨c, ranToo, becomes⟩ := Edit.forceNext_becomes live none
          cases ranToo.symm.trans ran
          exact ⟨rfl, funext becomes.contains⟩
  | some next =>
      rcases Edit.link_cases a (.after h) next with ⟨-, failed⟩ | ⟨-, -, c, -, failed⟩ | ⟨live, -, c, ranToo, same⟩
      · cases failed.symm.trans ran
      · cases failed.symm.trans ran
      · cases ranToo.symm.trans ran
        exact ⟨live, same⟩

/-- Once a new command is linked to what follows it, the link to the command itself cannot fail. -/
theorem insertAfter_failed {previous : Handle} {node : Node} (found : a.node? previous = some node)
    (failed : (Edit.insertAfter previous h a).1 = .error e) :
    Edit.insertAfter previous h a = Edit.setNext h node.next a := by
  have step : Edit.insertAfter previous h a =
      (Edit.setNext h node.next >>= fun _ => Edit.link (.after previous) h) a :=
    Step.bind_ok (Edit.node_eq found)
  rw [step] at failed ⊢
  cases ran : Edit.setNext h node.next a with
  | mk outcome b =>
      cases outcome with
      | error e => exact Step.bind_error ran
      | ok value =>
          obtain ⟨there, same⟩ := setNext_kept ran
          have here : b.contains previous := same ▸ Arena.contains_of_node? found
          rw [← same] at there
          rw [Step.bind_ok ran] at failed
          obtain ⟨c, ranToo, -⟩ := Edit.link_of_live (p := .after previous) here there
          rw [ranToo] at failed
          cases failed

/-- A step that lays a link first fails as the link does. -/
theorem edit_eq_link (first : l.first? a = some (p, h)) (failed : (l.edit a).1 = .error e) :
    l.edit a = Edit.link p h a := by
  cases l with
  | forceNext => cases first
  | setPrevious => cases first
  | setNext owner next =>
      obtain ⟨other, rfl, same⟩ := Option.map_eq_some_iff.mp first
      cases same
      rfl
  | setBranch owner branch head =>
      obtain ⟨other, rfl, same⟩ := Option.map_eq_some_iff.mp first
      cases same
      rfl
  | append head other =>
      cases first
      rfl
  | appendToBranch owner branch other =>
      rw [first?] at first
      rw [edit, Edit.appendToBranch, Step.get_bind]
      split at first
      · rename_i head found
        cases first
        rw [found]
        rfl
      · rename_i found
        cases first
        rw [found]
        rfl
  | insertAfter previous other =>
      obtain ⟨following, leads, same⟩ := Option.map_eq_some_iff.mp first
      obtain ⟨node, found, next⟩ := Option.bind_eq_some_iff.mp leads
      cases same
      rw [edit, insertAfter_failed found failed, next]
      rfl

/-- A step that lays no link to a command fails before it writes anything. -/
theorem edit_of_no_first (none : l.first? a = none) (failed : (l.edit a).1 = .error e) :
    (l.edit a).2 = a := by
  cases l with
  | forceNext owner next => exact modifyNode_failed failed
  | setPrevious owner previous => exact modifyNode_failed failed
  | setNext owner next =>
      obtain rfl := Option.map_eq_none_iff.mp none
      rw [edit, Edit.setNext_none] at failed ⊢
      exact modifyNode_failed failed
  | setBranch owner branch head =>
      obtain rfl := Option.map_eq_none_iff.mp none
      rw [edit, Edit.setBranch_none] at failed ⊢
      exact modifyNode_failed failed
  | append => cases none
  | appendToBranch owner branch other =>
      rw [first?] at none
      split at none
      · cases none
      · cases none
  | insertAfter previous other =>
      cases found : a.node? previous with
      | none =>
          have stale : Edit.node previous a = (.error (.staleHandle previous), a) := by
            rw [Edit.node, Step.get_bind, found]
            rfl
          exact congrArg Prod.snd (Step.bind_error stale)
      | some node =>
          have next : node.next = Option.none := by
            have leads := Option.map_eq_none_iff.mp none
            rwa [Arena.next?, found] at leads
          have same := insertAfter_failed found failed
          rw [next, Edit.setNext_none] at same
          rw [edit, same] at failed ⊢
          exact modifyNode_failed failed

/-- A step on links that fails leaves the arena as it was, unless the link that it lays first dangles and was
not there. -/
theorem edit_eq_self_iff (failed : (l.edit a).1 = .error e) :
    (l.edit a).2 = a ↔ ∀ p h, l.Dangles a p h → a.target? p = some h := by
  cases first : l.first? a with
  | none =>
      refine iff_of_true (edit_of_no_first first failed) fun p h dangles => ?_
      cases first.symm.trans dangles.1
  | some place =>
      obtain ⟨p, h⟩ := place
      have same := edit_eq_link first failed
      rw [same] at failed
      rw [same, link_eq_self_iff failed]
      constructor
      · rintro there q other ⟨firstToo, live, stale⟩
        cases first.symm.trans firstToo
        exact there live stale
      · exact fun there live stale => there p h ⟨first, live, stale⟩

end Linking

/-- In a well-formed arena every link leads to a command, so a command is linked between two others or the
arena stays as it was. -/
theorem Arena.WellFormed.insertAfter_failed {a : Arena} {previous h : Handle} {e : SequenceError}
    (wf : a.WellFormed) (failed : (Edit.insertAfter previous h a).1 = .error e) :
    (Edit.insertAfter previous h a).2 = a := by
  refine (Linking.edit_eq_self_iff (l := .insertAfter previous h) failed).mpr ?_
  rintro p other ⟨first, -, stale⟩
  obtain ⟨following, leads, same⟩ := Option.map_eq_some_iff.mp first
  cases same
  exact absurd (wf.live (.after previous) other leads) stale

namespace Operation

/-- Why an operation fails, if it does. -/
def error? (operation : Operation) (a : Arena) : Option SequenceError :=
  match operation with
  | insert _ => none
  | delete h =>
    match (a.delete h).1 with
    | .ok _ => none
    | .error e => some e
  | link l =>
    match (l.edit a).1 with
    | .ok _ => none
    | .error e => some e

/-- An operation that fails has written something by then: it has begun to delete a command, or it has
changed a link of a command so that it leads to none. -/
def Tears (operation : Operation) (a : Arena) : Prop :=
  match operation with
  | insert _ => False
  | delete h => a.contains h
  | link l => ∃ p h, l.Dangles a p h ∧ a.target? p ≠ some h

/-- Whatever the arena is, an operation that fails leaves it as it was exactly if it does not tear it. -/
theorem apply_eq_self_iff {operation : Operation} {a : Arena} {e : SequenceError}
    (failed : operation.error? a = some e) : operation.apply a = a ↔ ¬operation.Tears a := by
  cases operation with
  | insert c => cases failed
  | delete h =>
      change (a.delete h).2 = a ↔ ¬a.contains h
      constructor
      · intro same live
        have fewer := Arena.live_delete_lt live
        rw [same] at fewer
        exact Nat.lt_irrefl _ fewer
      · intro stale
        rw [Arena.delete_of_stale stale]
  | link l =>
      have failedEdit : (l.edit a).1 = .error e := by
        rw [error?] at failed
        split at failed
        · cases failed
        · rename_i found
          rw [found, Option.some.inj failed]
      change (l.edit a).2 = a ↔ ¬∃ p h, l.Dangles a p h ∧ a.target? p ≠ some h
      rw [Linking.edit_eq_self_iff failedEdit]
      simp only [not_exists, not_and, ne_eq, not_not]

/-- A command is not linked behind one that has been deleted, and nothing changes. -/
theorem apply_eq_self_iff_insertAfter :
    let a := (History.ofOperations
      [.insert (.ofKind .noOp), .insert (.ofKind .beginScript), .delete ⟨1, 0⟩]).arena
    let operation : Operation := .link (.insertAfter ⟨1, 0⟩ ⟨0, 0⟩)
    operation.error? a = some (.staleHandle ⟨1, 0⟩) ∧ operation.apply a = a := by
  intro a operation
  have stale : ¬a.contains ⟨1, 0⟩ := by decide +kernel
  have ran : Edit.insertAfter ⟨1, 0⟩ ⟨0, 0⟩ a = (.error (.staleHandle ⟨1, 0⟩), a) :=
    Step.bind_error (Edit.node_stale stale)
  have failed : operation.error? a = some (.staleHandle ⟨1, 0⟩) := by
    rw [error?, Linking.edit, ran]
  refine ⟨failed, (apply_eq_self_iff failed).mpr ?_⟩
  rintro ⟨p, h, ⟨first, -, -⟩, -⟩
  have none : (Linking.insertAfter ⟨1, 0⟩ ⟨0, 0⟩).first? a = Option.none := by decide +kernel
  cases none.symm.trans first

/-- A command is linked to one that has been deleted, and the link stays although the operation fails. -/
theorem apply_ne_self_setNext :
    let a := (History.ofOperations
      [.insert (.ofKind .noOp), .insert (.ofKind .beginScript), .delete ⟨1, 0⟩]).arena
    let operation : Operation := .link (.setNext ⟨0, 0⟩ (some ⟨1, 0⟩))
    operation.error? a = some (.staleHandle ⟨1, 0⟩) ∧ operation.apply a ≠ a := by
  intro a operation
  have live : a.contains ⟨0, 0⟩ := by decide +kernel
  have stale : ¬a.contains ⟨1, 0⟩ := by decide +kernel
  obtain ⟨b, laid, ran⟩ := Edit.link_of_stale (p := .after ⟨0, 0⟩) live stale
  have failed : operation.error? a = some (.staleHandle ⟨1, 0⟩) := by
    rw [error?, Linking.edit, Edit.setNext_some, ran]
  have before : a.next? ⟨0, 0⟩ = none := by decide +kernel
  have after : (operation.apply a).next? ⟨0, 0⟩ = some ⟨1, 0⟩ := by decide +kernel
  refine ⟨failed, fun same => ?_⟩
  rw [same, before] at after
  cases after

end Operation

end MissionScript
