import MissionScript.Proofs.Sequence.Deletion

/-!
# Taking commands out

Removing a command takes it off its chain, a script block with all that it holds. Whatever the handles, and
whether or not this succeeds, the arena stays well formed and gains no commands. Forgetting results, which
goes before the deletion of commands, changes no links.
-/

namespace MissionScript

namespace Edit

open Arena

variable {α β : Type} {a b : Arena} {h head first root stop : Handle}

/-- A command that is taken off its chain can be deleted. -/
theorem discard_cases (wf : a.WellFormed) (head h : Handle) :
    (∃ e, unlink head h a = (.error e, a)) ∨ ∃ b c command,
      unlink head h a = (.ok (), b) ∧ delete h b = (.ok command, c) ∧ a.Trimmed c := by
  rcases unlink_cases wf head h with failed | ⟨p, b, leads, done, becomes⟩
  · exact .inl failed
  · have unlinked := Trimmed.of_unlink wf leads becomes
    have detached := becomes.detached wf leads
    obtain ⟨command, c, -, deleted, without⟩ := unlinked.wellFormed.delete_cases detached
    exact .inr ⟨b, c, command, done, deleted,
      unlinked.trans (.of_without unlinked.wellFormed (detached.unowned unlinked.wellFormed) without)⟩

/-- A step keeps arenas well formed and adds nothing to them, also when it fails. -/
def Trims (step : Edit α) : Prop := ∀ a : Arena, a.WellFormed → a.Trimmed (step a).2

namespace Trims

variable {step : Edit α} {next : α → Edit β}

theorem bind (now : step.Trims) (after : ∀ value, (next value).Trims) : Trims (step >>= next) := by
  intro a wf
  have trimmed := now a wf
  cases ran : step a with
  | mk outcome b =>
      rw [ran] at trimmed
      cases outcome with
      | error e =>
          rw [Step.bind_error ran]
          exact trimmed
      | ok value =>
          rw [Step.bind_ok ran]
          exact trimmed.trans (after value b trimmed.wellFormed)

theorem read {f : Arena → Edit β} (each : ∀ a, (f a).Trims) : Trims (get >>= f) :=
  fun a wf => each a a wf

theorem value (value : α) : Trims (pure value) := fun _ wf => .refl wf

theorem fail (e : SequenceError) : Trims (throw e : Edit α) := fun _ wf => .refl wf

/-- Nothing happens after a failure. -/
theorem fail_bind (e : SequenceError) : Trims (throw e >>= next) := fun _ wf => .refl wf

theorem node (h : Handle) : (Edit.node h).Trims := by
  refine read fun a => ?_
  split
  · exact value _
  · exact fail _

theorem unlink (head h : Handle) : (Edit.unlink head h).Trims := by
  intro a wf
  rcases unlink_cases wf head h with ⟨e, failed⟩ | ⟨p, b, leads, done, becomes⟩
  · rw [failed]
    exact .refl wf
  · rw [done]
    exact .of_unlink wf leads becomes

theorem discard (head h : Handle) (after : step.Trims) :
    Trims (Edit.unlink head h >>= fun _ => delete h >>= fun _ => step) := by
  intro a wf
  rcases discard_cases wf head h with ⟨e, failed⟩ | ⟨b, c, command, done, deleted, trimmed⟩
  · rw [Step.bind_error failed]
    exact .refl wf
  · rw [Step.bind_ok done, Step.bind_ok deleted]
    exact trimmed.trans (after c trimmed.wellFormed)

theorem deleteUntil (head stop : Handle) (limit : Nat) (start : Option Handle) :
    (Edit.deleteUntil head stop limit start).Trims := by
  induction limit generalizing start with
  | zero => cases start <;> exact value _
  | succ limit ih =>
      cases start with
      | none => exact value _
      | some h =>
          unfold Edit.deleteUntil
          split
          · exact value _
          · exact .read fun a => .discard head h (ih _)

theorem deleteScript (head h : Handle) : (Edit.deleteScript head h).Trims := by
  unfold Edit.deleteScript
  refine (node h).bind fun node => ?_
  split
  · exact fail_bind _
  · refine .read fun a => ?_
    split
    · exact fail _
    · refine .read fun a => (deleteUntil head _ _ _).bind fun _ => ?_
      exact .discard head _ (value _)

theorem remove (head h : Handle) : (Edit.remove head h).Trims := by
  unfold Edit.remove
  split
  · exact fail_bind _
  · refine (node h).bind fun node => ?_
    split
    · exact (deleteScript head h).bind fun _ => unlink head h
    · exact unlink head h

end Trims

/-- The last step of a removal takes the command itself off its chain. -/
theorem remove_of_ne {node : Node} (different : h ≠ head) (found : a.node? h = some node) :
    remove head h a = (if node.command.kind = .beginScript then
      deleteScript head h >>= fun _ => unlink head h else unlink head h) a := by
  unfold remove
  rw [if_neg different]
  dsimp only
  rw [Step.bind_ok (node_eq found)]

/-- Unlinking by force lays the links that taking the command off its chain does. Only the way back from
the command stays. -/
theorem forced_links (wf : a.WellFormed) (leads : a.target? (.after root) = some first) :
    ∃ b c, forceNext first none a = (.ok (), b) ∧ setNext root (a.next? first) b = (.ok (), c) ∧
      c.command? = a.command? ∧ (a.BranchesOwned → c.BranchesOwned) ∧
        c.linkage.withPrevious first none = a.linkage.unlink (.after root) first := by
  have live := (wf.sound.live (p := .after root) leads).2
  obtain ⟨b, ran, cut⟩ := forceNext_becomes live none
  obtain ⟨c, ranThen, relinked⟩ := setNext_becomes ((cut.contains root).trans (contains_anchor leads))
    (a.next? first) fun other next => (cut.contains other).trans (wf.live (.after first) other next)
  rw [cut.linkage, Linkage.relink_withTarget (wf.sound.after_ne (p := .after root) leads).symm] at relinked
  have becomes := cut.trans relinked
  refine ⟨b, c, ran, ranThen, becomes.commands, becomes.branches, ?_⟩
  rw [becomes.linkage]
  exact wf.sound.unlink_eq leads

end Edit

/-! ## Forgetting results -/

namespace Arena

variable {a b : Arena} {head h : Handle}

/-- Forgetting results changes no links. -/
theorem linkage_forgetResult (a : Arena) (h : Handle) : (a.forgetResult h).linkage = a.linkage := by
  have same {α : Type} (g : Node → Option α) (other : Handle)
      (blind : ∀ node : Node, g { node with command := node.command.forgetResult } = g node) :
      ((a.forgetResult h).node? other).bind g = (a.node? other).bind g := by
    rw [node?_forgetResult]
    split
    · cases a.node? other with
      | none => rfl
      | some node => exact blind node
    · rfl
  refine Linkage.ext (funext fun other => propext ?_) (funext fun p => ?_) (funext fun other => ?_)
  · rw [live_linkage, live_linkage, contains, contains, node?_forgetResult]
    split <;> simp
  · rw [target_linkage, target_linkage, target?_eq, target?_eq]
    exact same p.read? p.anchor fun node => by cases p <;> rfl
  · exact same (·.previous) other fun node => rfl

theorem trimmed_forgetting (wf : a.WellFormed) (handles : List Handle) :
    a.Trimmed (handles.foldl forgetResult a) ∧ (handles.foldl forgetResult a).linkage = a.linkage := by
  induction handles generalizing a with
  | nil => exact ⟨.refl wf, rfl⟩
  | cons h rest ih =>
      have linkage := a.linkage_forgetResult h
      have branches : (a.forgetResult h).BranchesOwned := by
        intro other node found own
        rw [node?_forgetResult] at found
        split at found
        · obtain ⟨before, held, rfl⟩ := Option.map_eq_some_iff.mp found
          exact wf.branches other before held own
        · exact wf.branches other node found own
      have kept : a.Trimmed (a.forgetResult h) := by
        refine ⟨wellFormed_iff.mpr ⟨linkage ▸ wf.sound, branches⟩, fun other live => ?_, fun other => ?_⟩
        · rw [← live_linkage, linkage] at live
          exact live
        · rw [linkage]
          exact id
      obtain ⟨trimmed, same⟩ := ih kept.wellFormed
      exact ⟨kept.trans trimmed, same.trans linkage⟩

/-- The results of a command are forgotten before it goes, or not. -/
theorem trimmed_forget (wf : a.WellFormed) (forget : Bool) (h : Handle) :
    a.Trimmed (if forget then a.forgetResults h else a) ∧
      (if forget then a.forgetResults h else a).linkage = a.linkage := by
  split
  · exact trimmed_forgetting wf (a.subtree h)
  · exact ⟨.refl wf, rfl⟩

end Arena

end MissionScript
