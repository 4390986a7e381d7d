import Mathlib.Logic.Function.Basic
import Mathlib.Logic.Relation
import MissionScript.Proofs.Sequence.Link

/-!
# Links without commands

All that the edits of a sequence change are its links: where the link at each point leads, and the way
back from each command. Links are sound if they make trees. Everything that edits do to links comes down
to cutting a link, laying one to a command that has none, and dropping whole trees.
-/

namespace MissionScript

/-- The links between commands. -/
@[ext]
structure Linkage where
  live : Handle → Prop
  /-- Where the link at a point leads. -/
  target : Point → Option Handle
  /-- The way back. -/
  previous : Handle → Option Handle

namespace Linkage

/-- A link leads from a command to another one. -/
def Owns (l : Linkage) (owner h : Handle) : Prop := ∃ p : Point, p.anchor = owner ∧ l.target p = some h

/-- Links lead from a command to another one, or the two are the same. -/
def Reaches (l : Linkage) : Handle → Handle → Prop := Relation.ReflTransGen l.Owns

/-- No link leads to a command. -/
def Unowned (l : Linkage) (h : Handle) : Prop := ∀ p, l.target p ≠ some h

/-- At most one link leads to a command. -/
structure Forked (l : Linkage) : Prop where
  live : ∀ {p h}, l.target p = some h → l.live p.anchor ∧ l.live h
  single : ∀ {p q h}, l.target p = some h → l.target q = some h → p = q

/-- The links make trees, with the ways back along their chains. -/
structure Sound (l : Linkage) : Prop extends Forked l where
  back : ∀ h other, l.target (.after h) = some other ↔ l.previous other = some h
  acyclic : ∀ h, ¬ Relation.TransGen l.Owns h h

/-- Let a link lead elsewhere. -/
def withTarget (l : Linkage) (p : Point) (target : Option Handle) : Linkage :=
  { l with target := Function.update l.target p target }

/-- Change a way back. -/
def withPrevious (l : Linkage) (h : Handle) (previous : Option Handle) : Linkage :=
  { l with previous := Function.update l.previous h previous }

/-- Lay a link and the way back. -/
def lay (l : Linkage) (p : Point) (h : Handle) : Linkage :=
  (l.withTarget p (some h)).withPrevious h p.previous?

/-- Let a link lead to another command, with the way back, or to none. -/
def relink (l : Linkage) (p : Point) : Option Handle → Linkage
  | none => l.withTarget p none
  | some h => l.lay p h

/-- Cut the link to a command and the way back. -/
def cut (l : Linkage) (p : Point) (h : Handle) : Linkage :=
  (l.withTarget p none).withPrevious h none

/-- Take a command out from between its point and the command that follows it. -/
def unlink (l : Linkage) (p : Point) (h : Handle) : Linkage :=
  match l.target (.after h) with
  | none => l.cut p h
  | some next => ((l.cut p h).cut (.after h) next).lay p next

open Classical in
/-- Drop some commands with their links. -/
noncomputable def drop (l : Linkage) (dropped : Handle → Prop) : Linkage where
  live h := l.live h ∧ ¬ dropped h
  target p := if dropped p.anchor then none else l.target p
  previous h := if dropped h then none else l.previous h

/-- Take a command out and drop it with the tree below it. -/
noncomputable def discard (l : Linkage) (p : Point) (h : Handle) : Linkage :=
  (l.unlink p h).drop ((l.unlink p h).Reaches h)

/-- Add a command without links. -/
def add (l : Linkage) (h : Handle) : Linkage := { l with live other := l.live other ∨ other = h }

variable {l m : Linkage} {p q : Point} {h other first second next : Handle}

theorem Owns.of_target (leads : l.target p = some h) : l.Owns p.anchor h := ⟨p, rfl, leads⟩

theorem Owns.mono (fewer : ∀ {p h}, m.target p = some h → l.target p = some h)
    (owns : m.Owns first second) : l.Owns first second := by
  obtain ⟨p, anchor, leads⟩ := owns
  exact ⟨p, anchor, fewer leads⟩

theorem Reaches.mono (reaches : m.Reaches first second)
    (fewer : ∀ {p h}, m.target p = some h → l.target p = some h) : l.Reaches first second :=
  Relation.ReflTransGen.mono (fun _ _ owns => Owns.mono fewer owns) _ _ reaches

/-- Nothing else reaches a command that no link leads to. -/
theorem Unowned.eq_of_reaches (unowned : l.Unowned h) (reaches : l.Reaches other h) : other = h := by
  rcases Relation.ReflTransGen.cases_tail reaches with same | ⟨_, -, p, -, leads⟩
  · exact same.symm
  · exact absurd leads (unowned p)

@[simp] theorem target_withTarget (p q : Point) (target : Option Handle) :
    (l.withTarget p target).target q = if q = p then target else l.target q :=
  Function.update_apply _ _ _ _

@[simp] theorem previous_withTarget (p : Point) (target : Option Handle) :
    (l.withTarget p target).previous = l.previous := rfl

@[simp] theorem live_withTarget (p : Point) (target : Option Handle) :
    (l.withTarget p target).live = l.live := rfl

@[simp] theorem target_withPrevious (h : Handle) (previous : Option Handle) :
    (l.withPrevious h previous).target = l.target := rfl

@[simp] theorem previous_withPrevious (h other : Handle) (previous : Option Handle) :
    (l.withPrevious h previous).previous other = if other = h then previous else l.previous other :=
  Function.update_apply _ _ _ _

@[simp] theorem live_withPrevious (h : Handle) (previous : Option Handle) :
    (l.withPrevious h previous).live = l.live := rfl

@[simp] theorem target_lay : (l.lay p h).target q = if q = p then some h else l.target q := by
  simp [lay]

@[simp] theorem previous_lay :
    (l.lay p h).previous other = if other = h then p.previous? else l.previous other := by
  simp [lay]

@[simp] theorem live_lay : (l.lay p h).live = l.live := rfl

@[simp] theorem target_relink (target : Option Handle) :
    (l.relink p target).target q = if q = p then target else l.target q := by
  cases target with
  | none => exact target_withTarget p q none
  | some h => exact target_lay

@[simp] theorem previous_relink (target : Option Handle) : (l.relink p target).previous other =
    if target = some other then p.previous? else l.previous other := by
  cases target with
  | none => rfl
  | some h => simp [relink, eq_comm]

@[simp] theorem live_relink (target : Option Handle) : (l.relink p target).live = l.live := by
  cases target <;> rfl

theorem relink_withTarget (different : p ≠ q) (target other : Option Handle) :
    (l.withTarget q target).relink p other = (l.relink p other).withTarget q target := by
  refine Linkage.ext (by simp) (funext fun r => ?_) (funext fun h => by simp)
  rw [target_relink, target_withTarget, target_withTarget, target_relink]
  by_cases here : r = p
  · rw [if_pos here, if_neg (here ▸ different), if_pos here]
  · rw [if_neg here, if_neg here]

@[simp] theorem target_cut : (l.cut p h).target q = if q = p then none else l.target q := by
  simp [cut]

@[simp] theorem previous_cut :
    (l.cut p h).previous other = if other = h then none else l.previous other := by
  simp [cut]

@[simp] theorem live_cut : (l.cut p h).live = l.live := rfl

/-- The links that are left after a cut were there before. -/
theorem target_of_cut (leads : (l.cut p h).target q = some other) : l.target q = some other := by
  rw [target_cut] at leads
  split at leads
  · cases leads
  · exact leads

/-! ## Sound links -/

namespace Sound

variable (sound : l.Sound)

include sound

/-- Nothing reaches a command that owns it. -/
theorem not_reaches (leads : l.target p = some h) : ¬ l.Reaches h p.anchor :=
  fun reaches => sound.acyclic _ (Relation.TransGen.head' (.of_target leads) reaches)

theorem anchor_ne (leads : l.target p = some h) : p.anchor ≠ h := by
  intro same
  exact sound.not_reaches leads (same ▸ .refl)

theorem previous_eq_none (unowned : l.Unowned h) : l.previous h = none := by
  cases back : l.previous h with
  | none => rfl
  | some last => exact absurd ((sound.back last h).mpr back) (unowned _)

/-- A command without a way back that is in no branch has no link to it. -/
theorem unowned_iff : l.Unowned h ↔
    l.previous h = none ∧ ∀ owner branch, l.target (.inside owner branch) ≠ some h := by
  constructor
  · exact fun unowned => ⟨sound.previous_eq_none unowned, fun owner branch => unowned _⟩
  · rintro ⟨back, outside⟩ (last | ⟨owner, branch⟩)
    · intro leads
      rw [(sound.back last h).mp leads] at back
      cases back
    · exact outside owner branch

/-- Of two commands that reach a third one, one reaches the other. -/
theorem reaches_or_reaches (reachesFirst : l.Reaches first h) (reachesSecond : l.Reaches second h) :
    l.Reaches first second ∨ l.Reaches second first := by
  have unique : Relator.RightUnique (Function.swap l.Owns) := by
    rintro h _ _ ⟨p, rfl, leads⟩ ⟨q, rfl, leadsToo⟩
    rw [sound.single leads leadsToo]
  rcases Relation.ReflTransGen.total_of_right_unique unique reachesFirst.swap reachesSecond.swap with
    before | before
  · exact .inr before.swap
  · exact .inl before.swap

/-! ## Cutting -/

theorem cut (leads : l.target p = some h) : (l.cut p h).Sound where
  live leadsToo := sound.live (target_of_cut leadsToo)
  back last other := by
    rw [target_cut, previous_cut]
    by_cases same : other = h
    · subst same
      rw [if_pos rfl]
      constructor
      · intro leadsToo
        split at leadsToo
        · cases leadsToo
        · rename_i elsewhere
          exact absurd (sound.single leadsToo leads) elsewhere
      · intro back
        cases back
    · rw [if_neg same, ← sound.back]
      split
      · rename_i here
        rw [here, leads]
        constructor
        · intro none
          cases none
        · intro equal
          exact absurd (Option.some.inj equal).symm same
      · rfl
  single first second := sound.single (target_of_cut first) (target_of_cut second)
  acyclic other cycle :=
    sound.acyclic other
      (Relation.TransGen.mono (fun _ _ owns => Owns.mono target_of_cut owns) _ _ cycle)

theorem unowned_cut (leads : l.target p = some h) : (l.cut p h).Unowned h := by
  intro q leadsToo
  have same := sound.single (target_of_cut leadsToo) leads
  rw [target_cut, if_pos same] at leadsToo
  cases leadsToo

end Sound

theorem Unowned.cut (unowned : l.Unowned other) : (l.cut p h).Unowned other :=
  fun q leads => unowned q (target_of_cut leads)

/-! ## Laying -/

theorem Owns.of_lay (owns : (l.lay p h).Owns first second) :
    l.Owns first second ∨ first = p.anchor ∧ second = h := by
  obtain ⟨q, rfl, leads⟩ := owns
  rw [target_lay] at leads
  split at leads
  · rename_i same
    subst same
    cases leads
    exact .inr ⟨rfl, rfl⟩
  · exact .inl ⟨q, rfl, leads⟩

/-- Whatever is reached by a new link is reached through it. -/
theorem Reaches.of_lay (reaches : (l.lay p h).Reaches first second) :
    l.Reaches first second ∨ l.Reaches first p.anchor ∧ l.Reaches h second := by
  induction reaches with
  | refl => exact .inl .refl
  | tail _ owns ih =>
      rcases owns.of_lay with old | ⟨rfl, rfl⟩
      · exact ih.imp (fun reaches => reaches.tail old) (And.imp_right fun reaches => reaches.tail old)
      · exact .inr ⟨ih.elim id And.left, .refl⟩

/-- A link may be laid to a command that has none, if the command does not reach the point. -/
theorem Sound.lay (sound : l.Sound) (free : l.target p = none) (anchor : l.live p.anchor)
    (live : l.live h) (unowned : l.Unowned h) (apart : ¬ l.Reaches h p.anchor) : (l.lay p h).Sound where
  live {q other} leads := by
    rw [target_lay] at leads
    split at leads
    · rename_i same
      subst same
      cases leads
      exact ⟨anchor, live⟩
    · exact sound.live leads
  back last other := by
    rw [target_lay, previous_lay]
    by_cases same : other = h
    · subst same
      rw [if_pos rfl]
      constructor
      · intro leads
        split at leads
        · rename_i here
          rw [← here]
          rfl
        · exact absurd leads (unowned _)
      · intro back
        cases p with
        | after anchor =>
            cases back
            rw [if_pos rfl]
        | inside owner branch => cases back
    · rw [if_neg same, ← sound.back]
      split
      · rename_i here
        rw [here, free]
        constructor
        · intro equal
          exact absurd (Option.some.inj equal).symm same
        · intro none
          cases none
      · rfl
  single {q r other} leads leadsToo := by
    rw [target_lay] at leads leadsToo
    split at leads <;> split at leadsToo
    · rename_i here there
      rw [here, there]
    · cases leads
      exact absurd leadsToo (unowned r)
    · cases leadsToo
      exact absurd leads (unowned q)
    · exact sound.single leads leadsToo
  acyclic other cycle := by
    obtain ⟨last, reaches, owns⟩ := Relation.TransGen.tail'_iff.mp cycle
    rcases Reaches.of_lay reaches with old | ⟨toAnchor, fromNew⟩
    · rcases owns.of_lay with link | ⟨rfl, rfl⟩
      · exact sound.acyclic other (Relation.TransGen.tail' old link)
      · exact apart old
    · rcases owns.of_lay with link | ⟨rfl, rfl⟩
      · exact apart ((fromNew.tail link).trans toAnchor)
      · exact apart toAnchor

theorem Unowned.lay (unowned : l.Unowned other) (different : other ≠ h) :
    (l.lay p h).Unowned other := by
  intro q leads
  rw [target_lay] at leads
  split at leads
  · exact different (Option.some.inj leads).symm
  · exact unowned q leads

/-! ## Taking commands out -/

theorem target_unlink : (l.unlink p h).target q =
    if q = p then l.target (.after h) else if q = .after h then none else l.target q := by
  unfold unlink
  cases onward : l.target (.after h) with
  | none =>
      rw [target_cut]
      split
      · rfl
      · split
        · rename_i behind
          rw [behind, onward]
        · rfl
  | some next =>
      rw [target_lay, target_cut, target_cut]
      split
      · rfl
      · rfl

theorem previous_unlink : (l.unlink p h).previous other =
    if l.target (.after h) = some other then p.previous?
    else if other = h then none else l.previous other := by
  unfold unlink
  cases onward : l.target (.after h) with
  | none => simp
  | some next =>
      simp only [previous_lay, previous_cut, Option.some.injEq, eq_comm]
      split
      · rfl
      · rfl

@[simp] theorem live_unlink : (l.unlink p h).live = l.live := by
  unfold unlink
  split
  · rfl
  · rfl

namespace Sound

variable (sound : l.Sound) (leads : l.target p = some h)

include sound leads

theorem after_ne : .after h ≠ p := by
  rintro rfl
  exact sound.anchor_ne leads rfl

/-- A command can be taken out: what follows it takes its place. -/
theorem unlink : (l.unlink p h).Sound := by
  unfold Linkage.unlink
  cases onward : l.target (.after h) with
  | none => exact sound.cut leads
  | some next =>
      have once := sound.cut leads
      have onwardStill : (l.cut p h).target (.after h) = some next := by
        rw [target_cut, if_neg (sound.after_ne leads), onward]
      have twice := once.cut onwardStill
      refine twice.lay (by simp) (sound.live leads).1 (sound.live onward).2
        (once.unowned_cut onwardStill) fun reaches => ?_
      have before : l.Reaches next p.anchor :=
        reaches.mono fun leads => target_of_cut (target_of_cut leads)
      exact sound.not_reaches leads (.head (.of_target onward) before)

theorem unowned_unlink : (l.unlink p h).Unowned h := by
  intro q leadsToo
  rw [target_unlink] at leadsToo
  split at leadsToo
  · exact sound.anchor_ne leadsToo rfl
  · rename_i elsewhere
    split at leadsToo
    · cases leadsToo
    · exact elsewhere (sound.single leadsToo leads)

/-- How a command is taken out: what follows it is linked in its place, and its own links are cut. -/
theorem unlink_eq : ((l.relink p (l.target (.after h))).withTarget (.after h) none).withPrevious h none =
    l.unlink p h := by
  refine Linkage.ext (by simp) (funext fun q => ?_) (funext fun other => ?_)
  · rw [target_withPrevious, target_withTarget, target_relink, target_unlink]
    by_cases behind : q = .after h
    · rw [if_pos behind, behind, if_neg (sound.after_ne leads), if_pos rfl]
    · rw [if_neg behind, if_neg behind]
  · rw [previous_withPrevious, previous_withTarget, previous_relink, previous_unlink]
    by_cases same : other = h
    · have apart : l.target (.after h) ≠ some h := fun loop => sound.anchor_ne loop rfl
      rw [if_pos same, if_pos same, same, if_neg apart]
    · rw [if_neg same, if_neg same]

theorem target_unlink_after : (l.unlink p h).target (.after h) = none := by
  rw [target_unlink, if_neg (sound.after_ne leads), if_pos rfl]

end Sound

theorem Unowned.unlink (unowned : l.Unowned other) : (l.unlink p h).Unowned other := by
  intro q leads
  rw [target_unlink] at leads
  split at leads
  · exact unowned _ leads
  · split at leads
    · cases leads
    · exact unowned q leads

/-! ## Putting commands in -/

/-- A command without links can be put behind another one, before what follows that. -/
theorem Sound.putAfter (sound : l.Sound) (liveFirst : l.live first) (live : l.live h)
    (unowned : l.Unowned h) (last : l.target (.after h) = none) (apart : ¬ l.Reaches h first) :
    ((l.relink (.after h) (l.target (.after first))).lay (.after first) h).Sound := by
  have different : first ≠ h := fun same => apart (same ▸ .refl)
  cases onward : l.target (.after first) with
  | none =>
      have same : l.relink (.after h) none = l :=
        Linkage.ext rfl (Function.update_eq_self_iff.mpr last.symm) rfl
      rw [same]
      exact sound.lay onward liveFirst live unowned apart
  | some next =>
      have once := sound.cut onward
      have notSame : h ≠ next := fun same => unowned _ (same ▸ onward)
      have twice : ((l.cut (.after first) next).lay (.after h) next).Sound := by
        refine once.lay ?_ live (sound.live onward).2 (sound.unowned_cut onward) fun reaches => ?_
        · rw [target_cut, last, ite_self]
        · exact notSame (unowned.cut.eq_of_reaches reaches).symm
      have thrice : (((l.cut (.after first) next).lay (.after h) next).lay (.after first) h).Sound := by
        refine twice.lay ?_ liveFirst live (unowned.cut.lay notSame) fun reaches => ?_
        · simp [different]
        · rcases Reaches.of_lay reaches with before | ⟨-, behind⟩
          · exact apart (before.mono target_of_cut)
          · exact sound.not_reaches onward (behind.mono target_of_cut)
      have same : (l.relink (.after h) (some next)).lay (.after first) h =
          ((l.cut (.after first) next).lay (.after h) next).lay (.after first) h := by
        refine Linkage.ext rfl (funext fun q => ?_) (funext fun other => ?_)
        · simp only [target_lay, target_relink, target_cut]
          split
          · rfl
          · rfl
        · simp only [previous_lay, previous_relink, previous_cut, Option.some.injEq, eq_comm]
          split
          · rfl
          · split
            · rfl
            · rfl
      rw [same]
      exact thrice

/-! ## Dropping trees -/

section

variable {dropped : Handle → Prop}

theorem target_of_drop (leads : (l.drop dropped).target p = some h) :
    ¬ dropped p.anchor ∧ l.target p = some h := by
  unfold drop at leads
  dsimp only at leads
  split at leads
  · cases leads
  · rename_i kept
    exact ⟨kept, leads⟩

theorem target_drop_of_not (kept : ¬ dropped p.anchor) : (l.drop dropped).target p = l.target p :=
  if_neg kept

theorem Unowned.drop (unowned : l.Unowned other) : (l.drop dropped).Unowned other :=
  fun p leads => unowned p (target_of_drop leads).2

theorem Forked.drop (forked : l.Forked)
    (above : ∀ {p h}, l.target p = some h → dropped h → dropped p.anchor) :
    (l.drop dropped).Forked where
  live leads := by
    obtain ⟨kept, leads⟩ := target_of_drop leads
    obtain ⟨anchor, live⟩ := forked.live leads
    exact ⟨⟨anchor, kept⟩, live, fun gone => kept (above leads gone)⟩
  single leads leadsToo := forked.single (target_of_drop leads).2 (target_of_drop leadsToo).2

/-- Whole trees can be dropped. -/
theorem Sound.drop (sound : l.Sound)
    (whole : ∀ {p h}, l.target p = some h → (dropped p.anchor ↔ dropped h)) :
    (l.drop dropped).Sound where
  toForked := sound.toForked.drop fun leads => (whole leads).mpr
  back last other := by
    constructor
    · intro leads
      obtain ⟨kept, leads⟩ := target_of_drop leads
      exact (if_neg fun gone => kept ((whole leads).mpr gone)).trans ((sound.back last other).mp leads)
    · intro back
      unfold Linkage.drop at back
      dsimp only at back
      split at back
      · cases back
      · rename_i kept
        have leads := (sound.back last other).mpr back
        exact (target_drop_of_not fun gone => kept ((whole leads).mp gone)).trans leads
  acyclic other cycle :=
    sound.acyclic other (Relation.TransGen.mono
      (fun _ _ owns => Owns.mono (fun leads => (target_of_drop leads).2) owns) _ _ cycle)

end

/-- A command that no link leads to is the root of a whole tree. -/
theorem Forked.reaches_iff (forked : l.Forked) (unowned : l.Unowned h)
    (leads : l.target p = some other) : l.Reaches h p.anchor ↔ l.Reaches h other := by
  constructor
  · exact fun reaches => reaches.tail (.of_target leads)
  · intro reaches
    rcases Relation.ReflTransGen.cases_tail reaches with rfl | ⟨_, before, q, rfl, leadsToo⟩
    · exact absurd leads (unowned p)
    · rw [forked.single leads leadsToo]
      exact before

/-- What is reached from another root is still reached when a root is dropped. -/
theorem Reaches.drop_root (reaches : l.Reaches first second) (unowned : l.Unowned h)
    (different : first ≠ h) : (l.drop (· = h)).Reaches first second := by
  induction reaches with
  | refl => exact .refl
  | @tail middle last before owns ih =>
      obtain ⟨p, rfl, leads⟩ := owns
      have kept : p.anchor ≠ h := by
        intro same
        rw [same] at before
        exact different (unowned.eq_of_reaches before)
      exact ih.tail ⟨p, rfl, (target_drop_of_not kept).trans leads⟩

theorem Reaches.of_drop {dropped : Handle → Prop} (reaches : (l.drop dropped).Reaches first second) :
    l.Reaches first second :=
  reaches.mono fun leads => (target_of_drop leads).2

/-- The way back from a dropped command does not matter. -/
theorem drop_withPrevious {dropped : Handle → Prop} (gone : dropped h) (previous : Option Handle) :
    (l.withPrevious h previous).drop dropped = l.drop dropped := by
  refine Linkage.ext rfl rfl (funext fun other => ?_)
  unfold drop
  dsimp only
  by_cases out : dropped other
  · rw [if_pos out, if_pos out]
  · have different : other ≠ h := fun same => out (same ▸ gone)
    rw [if_neg out, if_neg out, previous_withPrevious, if_neg different]

theorem Sound.discard (sound : l.Sound) (leads : l.target p = some h) : (l.discard p h).Sound :=
  (sound.unlink leads).drop ((sound.unlink leads).reaches_iff (sound.unowned_unlink leads))

/-! ## Adding commands -/

theorem Sound.add (sound : l.Sound) : (l.add h).Sound where
  live leads := (sound.live leads).imp .inl .inl
  single := sound.single
  back := sound.back
  acyclic := sound.acyclic

end Linkage

end MissionScript
