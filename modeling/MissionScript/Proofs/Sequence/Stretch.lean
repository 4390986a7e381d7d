import Mathlib.Data.List.Range
import MissionScript.Proofs.Sequence.Descent

/-!
# Stretches of a chain

Commands that stand in a row on a chain can be passed by: the link that led to the first of them leads on
to what follows the last one. What is left is listed in the order it had before.
-/

namespace MissionScript

/-- A list without its gaps, one place after the other. -/
theorem flatMap_reduceOption {α β : Type} (f : α → List β) {places : List (Option α)} {width : Nat}
    (wide : places.length ≤ width) : places.reduceOption.flatMap f =
      (List.range width).flatMap fun index => ((places[index]?).join).toList.flatMap f := by
  induction places generalizing width with
  | nil =>
      simp [List.reduceOption]
  | cons first rest ih =>
      obtain ⟨width, rfl⟩ := Nat.exists_eq_add_one_of_ne_zero
        (Nat.ne_of_gt (Nat.lt_of_lt_of_le (Nat.succ_pos _) wide))
      have behind := ih (Nat.le_of_succ_le_succ wide)
      rw [List.range_succ_eq_map, List.flatMap_cons, List.flatMap_map]
      simp only [List.getElem?_cons_zero, List.getElem?_cons_succ, ← behind]
      cases first <;> simp [List.reduceOption]

namespace Arena

variable {a b c : Arena} {p q : Point} {h other : Handle} {node : Node} {cut more : List Handle}
  {onward later : Option Handle}

/-- Commands in a row on the chain to which a link leads, and what follows the last of them. -/
inductive Stretch (a : Arena) : Point → List Handle → Option Handle → Prop
  | done (p : Point) : a.Stretch p [] (a.target? p)
  | step {p : Point} {h : Handle} {rest : List Handle} {onward : Option Handle}
      (leads : a.target? p = some h) (behind : a.Stretch (.after h) rest onward) :
      a.Stretch p (h :: rest) onward

/-- The commands with everything in their branches. -/
def trees (a : Arena) (handles : List Handle) : List Handle := handles.flatMap a.subtree

/-- The commands from where a link leads. -/
def commandsAt (a : Arena) (p : Point) : List Handle := (a.target? p).toList.flatMap a.commandsFrom

theorem trees_append (a : Arena) (cut more : List Handle) :
    a.trees (cut ++ more) = a.trees cut ++ a.trees more :=
  List.flatMap_append

theorem trees_cons (a : Arena) (h : Handle) (rest : List Handle) :
    a.trees (h :: rest) = a.subtree h ++ a.trees rest :=
  List.flatMap_cons

@[simp] theorem trees_singleton (a : Arena) (h : Handle) : a.trees [h] = a.subtree h :=
  List.flatMap_singleton _ _

theorem mem_trees_append :
    other ∈ a.trees (cut ++ more) ↔ other ∈ a.trees cut ∨ other ∈ a.trees more := by
  rw [trees_append, List.mem_append]

theorem mem_trees_cons : other ∈ a.trees (h :: cut) ↔ other ∈ a.subtree h ∨ other ∈ a.trees cut := by
  rw [trees_cons, List.mem_append]

theorem commandsAt_of_target? (leads : a.target? p = some h) : a.commandsAt p = a.commandsFrom h := by
  rw [commandsAt, leads]
  exact List.flatMap_singleton _ _

theorem self_mem_subtree (live : a.contains h) : h ∈ a.subtree h := by
  obtain ⟨node, found⟩ := exists_node? live
  rw [subtree, found]
  exact List.mem_cons_self

/-- A command and its branches, one after the other. -/
theorem subtree_eq_places (found : a.node? h = some node) {width : Nat}
    (wide : node.branches.length ≤ width) : a.subtree h =
      h :: (List.range width).flatMap fun branch => a.commandsAt (.inside h branch) := by
  have place (branch : Nat) : a.commandsAt (.inside h branch) =
      ((node.branches[branch]?).join).toList.flatMap a.commandsFrom := by
    rw [commandsAt, target?, child?, found]
    rfl
  rw [subtree, found]
  simp only [place]
  rw [Node.heads, flatMap_reduceOption a.commandsFrom wide]

section

variable (sound : a.linkage.Sound)

include sound

theorem reaches_of_mem_subtree (inside : other ∈ a.subtree h) : a.linkage.Reaches h other := by
  rcases (mem_subtree sound).mp inside with ⟨-, same | ⟨branch, head, first, reaches⟩⟩
  · exact same ▸ .refl
  · exact .head ⟨.inside h branch, rfl, first⟩ reaches

/-- A command that nothing follows reaches its tree. -/
theorem mem_subtree_of_last (live : a.contains h) (last : a.next? h = none) :
    other ∈ a.subtree h ↔ a.linkage.Reaches h other := by
  have whole := commandsFrom_eq_subtree sound h
  rw [last, Option.toList_none, List.flatMap_nil, List.append_nil] at whole
  rw [← whole, mem_commandsFrom sound, and_iff_right live]

/-- What leads into a tree leads to its root or starts in the tree. -/
theorem anchor_mem_subtree (leads : a.target? q = some other) (inside : other ∈ a.subtree h)
    (different : other ≠ h) : q.anchor ∈ a.subtree h := by
  obtain ⟨live, same | ⟨branch, head, first, reaches⟩⟩ := (mem_subtree sound).mp inside
  · exact absurd same different
  · apply (mem_subtree sound).mpr
    refine ⟨live, ?_⟩
    rcases Relation.ReflTransGen.cases_tail reaches with rfl | ⟨last, before, r, rfl, leadsToo⟩
    · cases sound.single (p := .inside h branch) first leads
      exact .inl rfl
    · cases sound.single leads leadsToo
      exact .inr ⟨branch, head, first, before⟩

theorem nodup_commandsAt (p : Point) : (a.commandsAt p).Nodup := by
  rw [commandsAt]
  cases a.target? p with
  | none => exact List.nodup_nil
  | some h =>
      rw [Option.toList_some, List.flatMap_singleton]
      exact nodup_commandsFrom sound h

namespace Stretch

variable (stretch : a.Stretch p cut onward)

include stretch

/-- The link leads to the trees of the stretch and then on. -/
theorem commandsAt_eq :
    a.commandsAt p = a.trees cut ++ onward.toList.flatMap a.commandsFrom := by
  induction stretch with
  | done p => rfl
  | step leads behind ih =>
      rw [commandsAt_of_target? leads, commandsFrom_eq_subtree sound, trees_cons, List.append_assoc, ← ih]
      rfl

theorem nodup_trees : (a.trees cut).Nodup := by
  have whole := nodup_commandsAt sound p
  rw [stretch.commandsAt_eq sound] at whole
  exact whole.of_append_left

theorem contains_of_mem {x : Handle} (member : x ∈ cut) : a.contains x := by
  induction stretch with
  | done => cases member
  | step leads _ ih =>
      rcases List.mem_cons.mp member with rfl | later
      · exact (sound.live leads).2
      · exact ih later

theorem mem_trees {x : Handle} (member : x ∈ cut) : x ∈ a.trees cut :=
  List.mem_flatMap.mpr ⟨x, member, self_mem_subtree (stretch.contains_of_mem sound member)⟩

/-- What leads into the trees of a stretch leads to the stretch or starts in them. -/
theorem anchor_mem_trees (leads : a.target? q = some other) (inside : other ∈ a.trees cut) :
    q = p ∨ q.anchor ∈ a.trees cut := by
  induction stretch with
  | done => cases inside
  | @step p h rest onward first behind ih =>
      rw [mem_trees_cons] at inside ⊢
      rcases inside with own | later
      · by_cases same : other = h
        · exact .inl (sound.single leads (same ▸ first))
        · exact .inr (.inl (anchor_mem_subtree sound leads own same))
      · rcases ih later with rfl | anchor
        · exact .inr (.inl (self_mem_subtree (sound.live first).2))
        · exact .inr (.inr anchor)

omit sound in
theorem below_onward (same : onward = some other) :
    Relation.TransGen a.linkage.Owns p.anchor other := by
  induction stretch with
  | done p => exact .single ⟨p, rfl, same⟩
  | step leads _ ih => exact .head ⟨_, rfl, leads⟩ (ih same)

omit sound in
theorem below_of_mem {x : Handle} (member : x ∈ cut) : Relation.TransGen a.linkage.Owns p.anchor x := by
  induction stretch with
  | done => cases member
  | step leads _ ih =>
      rcases List.mem_cons.mp member with rfl | later
      · exact .single ⟨_, rfl, leads⟩
      · exact .head ⟨_, rfl, leads⟩ (ih later)

theorem below_of_mem_trees (inside : other ∈ a.trees cut) :
    Relation.TransGen a.linkage.Owns p.anchor other := by
  obtain ⟨x, member, inside⟩ := List.mem_flatMap.mp inside
  exact (stretch.below_of_mem member).trans_left (reaches_of_mem_subtree sound inside)

theorem onward_live (same : onward = some other) : a.contains other := by
  induction stretch with
  | done p => exact (sound.live same).2
  | step _ _ ih => exact ih same

theorem onward_not_mem (same : onward = some other) : other ∉ a.trees cut := by
  have whole := nodup_commandsAt sound p
  rw [stretch.commandsAt_eq sound, same, Option.toList_some, List.flatMap_singleton] at whole
  intro inside
  have own : other ∈ a.commandsFrom other :=
    (mem_commandsFrom sound).mpr ⟨stretch.onward_live sound same, .refl⟩
  exact List.disjoint_of_nodup_append whole inside own

/-- The link does not start in the trees of its stretch. -/
theorem anchor_not_mem : p.anchor ∉ a.trees cut :=
  fun inside => sound.acyclic p.anchor (stretch.below_of_mem_trees sound inside)

omit sound

theorem onward_unique (too : a.Stretch p cut later) : later = onward := by
  induction stretch with
  | done => cases too; rfl
  | step _ _ ih =>
      cases too with
      | step _ behind => exact ih behind

/-- A stretch goes on with a stretch from what follows it. -/
theorem append (behind : ∀ q, a.target? q = onward → a.Stretch q more later) :
    a.Stretch p (cut ++ more) later := by
  induction stretch with
  | done p => exact behind p rfl
  | step leads _ ih => exact .step leads (ih behind)

/-- The same commands in a row in an arena where the links between them are the same. -/
theorem carried (first : b.target? q = a.target? p) (next : ∀ x ∈ cut, b.next? x = a.next? x) :
    b.Stretch q cut onward := by
  induction stretch generalizing q with
  | done p => exact first ▸ .done q
  | @step p h rest onward leads behind ih =>
      have link : b.target? (.after h) = a.target? (.after h) := next h List.mem_cons_self
      exact .step (first.trans leads) (ih link fun x member => next x (List.mem_cons_of_mem _ member))

end Stretch

end

/-- A stretch of two parts can be taken apart. -/
theorem Stretch.split (stretch : a.Stretch p (cut ++ more) later) :
    ∃ q, a.Stretch p cut (a.target? q) ∧ a.Stretch q more later := by
  induction cut generalizing p with
  | nil => exact ⟨p, .done p, stretch⟩
  | cons h rest ih =>
      cases stretch with
      | step leads behind =>
          obtain ⟨q, first, second⟩ := ih behind
          exact ⟨q, .step leads first, second⟩

/-- A stretch that nothing follows is a whole chain. -/
theorem Stretch.eq_chain (sound : a.linkage.Sound) (stretch : a.Stretch p cut none) :
    cut = a.chain (a.target? p) := by
  generalize ends : (none : Option Handle) = onward at stretch
  induction stretch with
  | done p => rw [← ends, chain_none]
  | @step p h rest onward leads behind ih =>
      rw [leads, chain_some sound, ih ends]
      rfl

/-- Commands in a row are found at the start of a chain. -/
theorem Stretch.of_prefix (sound : a.linkage.Sound) (start : cut <+: a.chain (a.target? p)) :
    ∃ onward, a.Stretch p cut onward := by
  induction cut generalizing p with
  | nil => exact ⟨_, .done p⟩
  | cons h rest ih =>
      cases leads : a.target? p with
      | none =>
          rw [leads, chain_none] at start
          exact absurd (List.prefix_nil.mp start) (List.cons_ne_nil h rest)
      | some first =>
          rw [leads, chain_some sound, List.cons_prefix_cons] at start
          obtain ⟨rfl, start⟩ := start
          obtain ⟨onward, behind⟩ := ih (p := .after h) start
          exact ⟨onward, .step leads behind⟩

/-! ## Passing by a stretch -/

/-- `b` has the commands of `a` outside of a stretch and its trees, linked as in `a` but for the link that
passes by the stretch. -/
structure Bypassed (a b : Arena) (p : Point) (cut : List Handle) (onward : Option Handle) : Prop where
  stretch : a.Stretch p cut onward
  command : ∀ h, h ∉ a.trees cut → b.command? h = a.command? h
  target : ∀ q, q.anchor ∉ a.trees cut → b.target? q = if q = p then onward else a.target? q
  /-- Only the two commands that are linked now have changed. -/
  node : ∀ h, h ∉ a.trees cut → h ≠ p.anchor → onward ≠ some h → b.node? h = a.node? h
  last : ∀ h, p = .after h → b.node? h = (a.node? h).map fun node => { node with next := onward }

namespace Bypassed

variable (bypassed : a.Bypassed b p cut onward)

include bypassed

theorem contains (outside : h ∉ a.trees cut) : b.contains h = a.contains h := by
  rw [contains_eq, contains_eq, bypassed.command h outside]

variable (sound : a.linkage.Sound)

include sound

/-- If everything below a link is listed as before without the stretch, so is what the link leads to. -/
theorem commandsAt_of_below
    (each : ∀ other, Relation.TransGen a.linkage.Owns q.anchor other → other ∉ a.trees cut →
      b.commandsFrom other = (a.commandsFrom other).filter (· ∉ a.trees cut))
    (outside : q.anchor ∉ a.trees cut) :
    b.commandsAt q = (a.commandsAt q).filter (· ∉ a.trees cut) := by
  by_cases here : q = p
  · have none : (a.trees cut).filter (· ∉ a.trees cut) = [] :=
      List.filter_eq_nil_iff.mpr fun x member => by simpa using member
    rw [commandsAt, bypassed.target q outside, if_pos here, here, bypassed.stretch.commandsAt_eq sound,
      List.filter_append, none, List.nil_append]
    cases same : onward with
    | none => rfl
    | some next =>
        rw [Option.toList_some, List.flatMap_singleton, List.flatMap_singleton]
        exact each next (here ▸ bypassed.stretch.below_onward same)
          (bypassed.stretch.onward_not_mem sound same)
  · rw [commandsAt, commandsAt, bypassed.target q outside, if_neg here]
    cases leads : a.target? q with
    | none => rfl
    | some other =>
        rw [Option.toList_some, List.flatMap_singleton, List.flatMap_singleton]
        refine each other (.single ⟨q, rfl, leads⟩) fun inside => ?_
        exact (bypassed.stretch.anchor_mem_trees sound leads inside).elim here outside

variable (soundToo : b.linkage.Sound)

include soundToo

theorem commandsFrom_eq (outside : h ∉ a.trees cut) :
    b.commandsFrom h = (a.commandsFrom h).filter (· ∉ a.trees cut) := by
  induction h using induction_below sound with
  | step h ih =>
      by_cases live : a.contains h
      · obtain ⟨node, found⟩ := exists_node? live
        obtain ⟨other, foundToo⟩ := exists_node? ((bypassed.contains outside).trans live)
        have place (q : Point) (anchor : q.anchor = h) :
            b.commandsAt q = (a.commandsAt q).filter (· ∉ a.trees cut) := by
          subst anchor
          exact bypassed.commandsAt_of_below sound (fun other => ih other) outside
        have behind := place (.after h) rfl
        rw [commandsFrom_eq_subtree sound, commandsFrom_eq_subtree soundToo,
          subtree_eq_places found (Nat.le_max_left _ other.branches.length),
          subtree_eq_places foundToo (Nat.le_max_right node.branches.length _), List.filter_append,
          List.filter_cons_of_pos (by simpa using outside), List.filter_flatMap]
        refine congrArg₂ (· ++ ·) (congrArg (h :: ·) ?_) behind
        exact List.flatMap_congr fun branch _ => place (.inside h branch) rfl
      · have stale : ¬ b.contains h := by rw [bypassed.contains outside]; exact live
        rw [commandsFrom_of_stale live, commandsFrom_of_stale stale]
        rfl

theorem subtree_eq (outside : h ∉ a.trees cut) :
    b.subtree h = (a.subtree h).filter (· ∉ a.trees cut) := by
  cases found : a.node? h with
  | none =>
      have stale : b.node? h = none := by
        have absent := bypassed.contains outside
        rw [Arena.contains, Arena.contains, found] at absent
        exact Option.not_isSome_iff_eq_none.mp (Bool.eq_false_iff.mp absent)
      rw [subtree, subtree, found, stale]
      rfl
  | some node =>
      obtain ⟨other, foundToo⟩ := exists_node? ((bypassed.contains outside).trans (contains_of_node? found))
      rw [subtree_eq_places found (Nat.le_max_left _ other.branches.length),
        subtree_eq_places foundToo (Nat.le_max_right node.branches.length _),
        List.filter_cons_of_pos (by simpa using outside), List.filter_flatMap]
      refine congrArg (h :: ·) (List.flatMap_congr fun branch _ => ?_)
      exact bypassed.commandsAt_of_below sound
        (fun other _ => bypassed.commandsFrom_eq sound soundToo) outside

/-- Trees that are apart from the stretch stay as they are. -/
theorem trees_eq_self (live : ∀ x ∈ more, a.contains x) (apart : (a.trees cut).Disjoint (a.trees more)) :
    b.trees more = a.trees more := by
  refine List.flatMap_congr fun x member => ?_
  have inside {y : Handle} (below : y ∈ a.subtree x) : y ∉ a.trees cut :=
    fun gone => apart gone (List.mem_flatMap.mpr ⟨x, member, below⟩)
  rw [bypassed.subtree_eq sound soundToo (inside (self_mem_subtree (live x member)))]
  exact List.filter_eq_self.mpr fun y below => by simpa using inside below

end Bypassed

end Arena

end MissionScript
