import MissionScript.Proofs.Sequence.Checking

/-!
# Owners

A command is held by the command whose branch its chain is, if there is one. In sound links this is at
most one command, and all commands of a chain share it. The search for the owner goes along a chain and
into the branches of its commands; it finds the owner at any depth.
-/

namespace MissionScript

namespace Arena

variable {a : Arena} {h other owner outer head next top : Handle} {node : Node}

/-- A command is on the chain of a branch of another one. -/
def Holds (a : Arena) (owner h : Handle) : Prop := ∃ branch, h ∈ a.chain (a.child? owner branch)

/-- A command is in the branches of another one, at any depth. -/
def Nested (a : Arena) : Handle → Handle → Prop := Relation.TransGen a.Holds

/-- The one command that holds another one, a command of a kind that owns branches. -/
structure OnlyOwner (a : Arena) (owner h : Handle) : Prop where
  branches : (a.kind? owner).any (·.ownsBranches)
  only : ∀ other, a.Holds other h ↔ other = owner

/-! ## What holds a command -/

section

variable (sound : a.linkage.Sound)

include sound

theorem mem_chain_self (h : Handle) : h ∈ a.chain (some h) := by
  rw [chain_some sound]
  exact List.mem_cons_self

/-- The first command of a branch is held by the owner of the branch. -/
theorem holds_head_iff {branch : Nat} (first : a.child? owner branch = some head) :
    a.Holds other head ↔ other = owner := by
  have leads : a.linkage.target (.inside owner branch) = some head := first
  constructor
  · rintro ⟨number, member⟩
    cases start : a.child? other number with
    | none =>
        rw [start, chain_none] at member
        cases member
    | some start' =>
        rw [start] at member
        rcases exists_link_of_mem_follow member with rfl | ⟨last, -, next⟩
        · cases sound.single (p := .inside other number) start leads
          rfl
        · cases sound.single (p := .after last) next leads
  · rintro rfl
    refine ⟨branch, ?_⟩
    rw [first]
    exact mem_chain_self sound head

theorem holds_next_iff (follows : a.next? h = some next) : a.Holds owner next ↔ a.Holds owner h := by
  have leads : a.linkage.target (.after h) = some next := follows
  constructor
  · rintro ⟨branch, member⟩
    cases start : a.child? owner branch with
    | none =>
        rw [start, chain_none] at member
        cases member
    | some head =>
        rw [start] at member
        rcases exists_link_of_mem_follow member with rfl | ⟨last, earlier, link⟩
        · cases sound.single (p := .inside owner branch) start leads
        · cases sound.single (p := .after last) link leads
          refine ⟨branch, ?_⟩
          rw [start]
          exact earlier
  · rintro ⟨branch, member⟩
    exact ⟨branch, mem_chain_of_next? sound member follows⟩

/-- The commands of a chain are held by the same command. -/
theorem holds_iff_of_mem_chain (member : other ∈ a.chain (some h)) :
    a.Holds owner other ↔ a.Holds owner h := by
  rw [chain] at member
  generalize a.linkLimit = limit at member
  induction limit generalizing h with
  | zero => cases member
  | succ limit ih =>
      rw [follow, List.mem_cons] at member
      rcases member with rfl | behind
      · rfl
      · cases follows : a.next? h with
        | none =>
            rw [follows, follow_none] at behind
            cases behind
        | some next =>
            rw [follows] at behind
            rw [ih behind, holds_next_iff sound follows]

theorem Holds.eq_owner (holds : a.Holds owner h) (too : a.Holds other h) : other = owner := by
  obtain ⟨branch, member⟩ := holds
  cases start : a.child? owner branch with
  | none =>
      rw [start, chain_none] at member
      cases member
  | some head =>
      rw [start] at member
      rw [holds_iff_of_mem_chain sound member] at too
      exact (holds_head_iff sound start).mp too

/-! ## Nesting -/

/-- A command is nested in its owner and in whatever that is nested in. -/
theorem Holds.nested_iff (holds : a.Holds owner h) :
    a.Nested outer h ↔ outer = owner ∨ a.Nested outer owner := by
  constructor
  · intro nested
    obtain ⟨last, before, holdsToo⟩ := Relation.TransGen.tail'_iff.mp nested
    rw [holds.eq_owner sound holdsToo] at before
    rcases Relation.ReflTransGen.cases_tail before with same | ⟨between, earlier, step⟩
    · exact .inl same.symm
    · exact .inr (Relation.TransGen.tail' earlier step)
  · rintro (rfl | nested)
    · exact .single holds
    · exact .tail nested holds

theorem nested_iff_of_mem_chain (member : other ∈ a.chain (some h)) :
    a.Nested outer other ↔ a.Nested outer h := by
  rw [Nested, Relation.TransGen.tail'_iff, Relation.TransGen.tail'_iff]
  simp only [holds_iff_of_mem_chain sound member]

theorem nested_next_iff (follows : a.next? h = some next) : a.Nested outer next ↔ a.Nested outer h := by
  refine nested_iff_of_mem_chain sound ?_
  rw [chain_some sound, follows, chain_some sound]
  exact List.mem_cons_of_mem _ List.mem_cons_self

omit sound in
/-- The links lead down from a command to all that is nested in it. -/
theorem Nested.below (nested : a.Nested outer h) : Relation.TransGen a.linkage.Owns outer h := by
  have held {owner h : Handle} (holds : a.Holds owner h) : Relation.TransGen a.linkage.Owns owner h := by
    obtain ⟨branch, member⟩ := holds
    cases start : a.child? owner branch with
    | none =>
        rw [start, chain_none] at member
        cases member
    | some head =>
        rw [start] at member
        exact Relation.TransGen.head' ⟨.inside owner branch, rfl, start⟩ (reaches_of_mem_follow member)
  induction nested with
  | single holds => exact held holds
  | tail _ holds ih => exact ih.trans (held holds)

theorem not_nested_self (h : Handle) : ¬ a.Nested h h := fun nested => sound.acyclic h nested.below

/-- What a nested command reaches is nested as well. -/
theorem Nested.of_reaches (nested : a.Nested outer h) (reaches : a.linkage.Reaches h other) :
    a.Nested outer other := by
  induction reaches with
  | refl => exact nested
  | @tail middle last _ owns ih =>
      obtain ⟨p, rfl, leads⟩ := owns
      cases p with
      | after last => exact (nested_next_iff sound leads).mpr ih
      | inside owner branch => exact ih.tail ((holds_head_iff sound leads).mpr rfl)

/-- The tree of a command holds the command and what is nested in it. -/
theorem mem_subtree_iff_nested :
    other ∈ a.subtree h ↔ a.contains h ∧ (other = h ∨ a.Nested h other) := by
  rw [mem_subtree sound]
  apply and_congr_right
  intro live
  apply or_congr_right
  constructor
  · rintro ⟨branch, head, first, reaches⟩
    exact Nested.of_reaches sound (.single ((holds_head_iff sound first).mpr rfl)) reaches
  · intro nested
    obtain ⟨middle, ⟨branch, member⟩, rest⟩ := Relation.TransGen.head'_iff.mp nested
    cases start : a.child? h branch with
    | none =>
        rw [start, chain_none] at member
        cases member
    | some head =>
        rw [start] at member
        refine ⟨branch, head, start, (reaches_of_mem_follow member).trans ?_⟩
        rcases Relation.reflTransGen_iff_eq_or_transGen.mp rest with rfl | below
        · exact .refl
        · exact (Nested.below below).to_reflTransGen

/-- What a command reaches is on its chain or nested in a command of the chain. -/
theorem mem_chain_or_nested (reaches : a.linkage.Reaches top h) :
    h ∈ a.chain (some top) ∨ ∃ outer ∈ a.chain (some top), a.Nested outer h := by
  induction reaches with
  | refl => exact .inl (mem_chain_self sound top)
  | @tail middle last _ owns ih =>
      obtain ⟨p, rfl, leads⟩ := owns
      rcases ih with on | ⟨outer, on, nested⟩
      · cases p with
        | after middle => exact .inl (mem_chain_of_next? sound on leads)
        | inside owner branch => exact .inr ⟨owner, on, .single ((holds_head_iff sound leads).mpr rfl)⟩
      · exact .inr ⟨outer, on, nested.of_reaches sound (.single ⟨p, rfl, leads⟩)⟩

/-- What is nested in a command of a chain is not on the chain. -/
theorem not_nested_of_mem_chain (member : other ∈ a.chain (some h)) (on : outer ∈ a.chain (some h)) :
    ¬ a.Nested outer other := by
  rw [nested_iff_of_mem_chain sound member, ← nested_iff_of_mem_chain sound on]
  exact not_nested_self sound outer

end

/-! ## Searching for the owner -/

/-- What a search along a chain answers: the owner of the chain for the commands on it, and their owner for
those nested in them. -/
def Answers (a : Arena) (owner : Handle) (start : Option Handle) (wanted answer : Handle) : Prop :=
  wanted ∈ a.chain start ∧ answer = owner ∨
    a.Holds answer wanted ∧ ∃ outer ∈ a.chain start, a.Nested outer wanted

variable {wanted answer : Handle} {limit : Nat}

/-- A command that a search does not enter has no branches. -/
theorem heads_of_not_entered (branches : a.BranchesOwned) (found : a.node? h = some node)
    (closed : ¬ entersOwners node) : node.heads = [] := by
  have none : node.branches = [] := by
    by_contra some
    exact closed (branches h node found some)
  rw [Node.heads, none]
  rfl

theorem ownerOf_of_node? (branches : a.BranchesOwned) (found : a.node? h = some node)
    (different : h ≠ wanted) : a.ownerOf wanted (limit + 1) owner h =
      (node.heads.findSome? (a.ownerOf wanted limit h)).or
        (node.next.bind (a.ownerOf wanted limit owner)) := by
  have entered : (if entersOwners node then node.heads.findSome? (a.ownerOf wanted limit h) else none) =
      node.heads.findSome? (a.ownerOf wanted limit h) := by
    split
    · rfl
    · rename_i closed
      rw [heads_of_not_entered branches found closed]
      rfl
  unfold ownerOf at entered ⊢
  rw [searchFrom, if_neg different, found]
  dsimp only
  rw [entered]
  cases node.heads.findSome? (a.searchFrom entersOwners _ limit h) <;> rfl

section

variable (sound : a.linkage.Sound)

include sound

/-- The branches of a command are searched for what is nested in the command. -/
theorem findSome?_heads_iff (found : a.node? h = some node) {search : Handle → Option Handle}
    (each : ∀ head ∈ node.heads, ∀ answer,
      search head = some answer ↔ a.Answers h (some head) wanted answer) :
    node.heads.findSome? search = some answer ↔ a.Holds answer wanted ∧ a.Nested h wanted := by
  have held {head other : Handle} (member : head ∈ node.heads) (on : other ∈ a.chain (some head)) :
      a.Holds h other := by
    obtain ⟨branch, first⟩ := (child?_eq_some_iff found).mpr member
    exact ⟨branch, first ▸ on⟩
  have forth {answer : Handle} (answered : node.heads.findSome? search = some answer) :
      a.Holds answer wanted ∧ a.Nested h wanted := by
    obtain ⟨head, member, here⟩ := List.exists_of_findSome?_eq_some answered
    rcases (each head member answer).mp here with ⟨on, rfl⟩ | ⟨holds, outer, on, nested⟩
    · exact ⟨held member on, .single (held member on)⟩
    · exact ⟨holds, .head (held member on) nested⟩
  refine ⟨forth, fun ⟨holds, nested⟩ => ?_⟩
  -- Some branch has an answer, and every answer is the owner.
  obtain ⟨middle, ⟨branch, on⟩, rest⟩ := Relation.TransGen.head'_iff.mp nested
  cases start : a.child? h branch with
  | none =>
      rw [start, chain_none] at on
      cases on
  | some head =>
      rw [start] at on
      have member := (child?_eq_some_iff found).mp ⟨branch, start⟩
      have here : search head = some answer := by
        apply (each head member answer).mpr
        rcases Relation.reflTransGen_iff_eq_or_transGen.mp rest with rfl | below
        · exact .inl ⟨on, (held member on).eq_owner sound holds⟩
        · exact .inr ⟨holds, middle, on, below⟩
      cases answered : node.heads.findSome? search with
      | none =>
          rw [List.findSome?_eq_none_iff.mp answered head member] at here
          cases here
      | some first => rw [holds.eq_owner sound (forth answered).1]

omit sound in
/-- A handle that resolves to nothing holds nothing. -/
theorem not_nested_of_stale (stale : ¬ a.contains outer) : ¬ a.Nested outer h := by
  intro nested
  obtain ⟨_, ⟨p, rfl, leads⟩, -⟩ := Relation.TransGen.head'_iff.mp nested.below
  exact stale (contains_anchor leads)

theorem answers_step (different : h ≠ wanted) : a.Answers owner (some h) wanted answer ↔
    a.Holds answer wanted ∧ a.Nested h wanted ∨
      ¬ a.Nested h wanted ∧ a.Answers owner (a.next? h) wanted answer := by
  have apart (on : wanted ∈ a.chain (a.next? h)) : ¬ a.Nested h wanted := by
    refine not_nested_of_mem_chain sound (h := h) ?_ (mem_chain_self sound h)
    rw [chain_some sound]
    exact List.mem_cons_of_mem _ on
  rw [Answers, Answers, chain_some sound]
  simp only [List.mem_cons, Ne.symm different, false_or, exists_eq_or_imp]
  by_cases nested : a.Nested h wanted
  · simp only [nested, true_or, and_true, not_true_eq_false, false_and, or_false]
    exact or_iff_right fun both => apart both.1 nested
  · simp only [nested, false_or, and_false, not_false_eq_true, true_and]

end

theorem ownerOf_eq_some_iff (wf : a.WellFormed) (enough : (a.below h).card < limit) :
    a.ownerOf wanted limit owner h = some answer ↔ a.Answers owner (some h) wanted answer := by
  have sound := wf.sound
  induction limit generalizing owner h answer with
  | zero => cases enough
  | succ limit ih =>
      by_cases same : h = wanted
      · have on : wanted ∈ a.chain (some h) := same ▸ mem_chain_self sound h
        rw [ownerOf, searchFrom, if_pos same, Answers]
        constructor
        · rintro ⟨⟩
          exact .inl ⟨on, rfl⟩
        · rintro (⟨-, rfl⟩ | ⟨-, outer, member, nested⟩)
          · rfl
          · exact absurd nested (not_nested_of_mem_chain sound on member)
      · rw [answers_step sound same]
        cases found : a.node? h with
        | none =>
            have stale : ¬ a.contains h := by rw [contains, found]; exact Bool.false_ne_true
            have next : a.next? h = none := by rw [next?, found]; rfl
            rw [ownerOf, searchFrom, if_neg same, found, next, Answers, chain_none]
            simp [not_nested_of_stale stale]
        | some node =>
            have fewer {other : Handle} (member : other ∈ node.heads ++ node.next.toList) :
                (a.below other).card < limit := by
              have drop := card_below_lt sound ((mem_links_of_node? found).mp member)
              omega
            have inside (answer : Handle) :
                node.heads.findSome? (a.ownerOf wanted limit h) = some answer ↔
                  a.Holds answer wanted ∧ a.Nested h wanted :=
              findSome?_heads_iff sound found fun head member answer =>
                ih (fewer (List.mem_append_left _ member))
            have unanswered : node.heads.findSome? (a.ownerOf wanted limit h) = none ↔
                ¬ a.Nested h wanted := by
              rw [Option.eq_none_iff_forall_ne_some]
              constructor
              · intro none nested
                obtain ⟨owner, -, holds⟩ := Relation.TransGen.tail'_iff.mp nested
                exact none owner ((inside owner).mpr ⟨holds, nested⟩)
              · exact fun apart answer answered => apart ((inside answer).mp answered).2
            have behind : node.next.bind (a.ownerOf wanted limit owner) = some answer ↔
                a.Answers owner (a.next? h) wanted answer := by
              rw [next?, found, Option.bind_some]
              cases onward : node.next with
              | none => simp [Answers]
              | some follower =>
                  exact ih (fewer (List.mem_append_right _ (Option.mem_toList.mpr onward)))
            rw [ownerOf_of_node? wf.branches found same, Option.or_eq_some_iff, inside, unanswered,
              behind]

/-! ## The owner of a command -/

/-- The search from a command on is complete. -/
theorem parent_eq_some_iff (wf : a.WellFormed) :
    a.parent top h = some answer ↔ a.Answers top (some top) h answer :=
  ownerOf_eq_some_iff wf (Nat.lt_succ_of_le (a.card_below_le top))

/-- The owner of the first command of a branch is found from any other command that leads to it. -/
theorem parent_of_head {branch : Nat} (wf : a.WellFormed) (reaches : a.linkage.Reaches top h)
    (first : a.child? owner branch = some h) (different : h ≠ top) : a.parent top h = some owner := by
  apply (parent_eq_some_iff wf).mpr
  refine .inr ⟨(holds_head_iff wf.sound first).mpr rfl, ?_⟩
  apply (mem_chain_or_nested wf.sound reaches).resolve_left
  intro on
  rcases exists_link_of_mem_follow on with same | ⟨last, -, next⟩
  · exact different same
  · cases wf.sound.single (p := .inside owner branch) (q := .after last) first next

/-- What holds a command is its only owner. -/
theorem Holds.onlyOwner (wf : a.WellFormed) (holds : a.Holds owner h) : a.OnlyOwner owner h where
  branches := by
    obtain ⟨branch, member⟩ := holds
    cases found : a.node? owner with
    | none =>
        rw [child?, found, Option.bind_none, chain_none] at member
        cases member
    | some node =>
        have branches : node.branches ≠ [] := by
          intro none
          rw [child?, found, Option.bind_some, none, List.getElem?_nil, Option.join_none,
            chain_none] at member
          cases member
        rw [kind?, command?, found]
        exact wf.branches owner node found branches
  only other := ⟨fun too => holds.eq_owner wf.sound too, fun same => same ▸ holds⟩

/-- The chain from `top` on counts as owned by `top`. A command that is nested in one of this chain has one
owner, which is found; of any other command no owner is found. Searched inside of a command, the owner of
what is nested in that is found, and nothing else. -/
theorem parent_finds_owner (wf : a.WellFormed) (top h : Handle) :
    (h ∈ a.chain (some top) → a.parent top h = some top) ∧
      (∀ outer ∈ a.chain (some top), a.Nested outer h →
        ∃ owner, a.parent top h = some owner ∧ a.OnlyOwner owner h) ∧
      (h ∉ a.chain (some top) → (∀ outer ∈ a.chain (some top), ¬ a.Nested outer h) →
        a.parent top h = none) ∧
      ∀ branch, (a.Nested branch h →
          ∃ owner, a.parentInside branch h = some owner ∧ a.OnlyOwner owner h) ∧
        (¬ a.Nested branch h → a.parentInside branch h = none) := by
  have answers (answer : Handle) : a.parent top h = some answer ↔ a.Answers top (some top) h answer :=
    parent_eq_some_iff wf
  have inside (branch answer : Handle) :
      a.parentInside branch h = some answer ↔ a.Holds answer h ∧ a.Nested branch h := by
    rw [parentInside]
    cases found : a.node? branch with
    | none =>
        have stale : ¬ a.contains branch := by rw [contains, found]; exact Bool.false_ne_true
        simp [not_nested_of_stale stale]
    | some node =>
        exact findSome?_heads_iff wf.sound found fun head _ answer =>
          ownerOf_eq_some_iff wf (Nat.lt_succ_of_le (a.card_below_le head))
  refine ⟨fun on => (answers top).mpr (.inl ⟨on, rfl⟩), fun outer on nested => ?_, fun off apart => ?_,
    fun branch => ⟨fun nested => ?_, fun apart => ?_⟩⟩
  · obtain ⟨owner, -, holds⟩ := Relation.TransGen.tail'_iff.mp nested
    exact ⟨owner, (answers owner).mpr (.inr ⟨holds, outer, on, nested⟩), holds.onlyOwner wf⟩
  · rw [Option.eq_none_iff_forall_ne_some]
    intro answer answered
    rcases (answers answer).mp answered with ⟨on, -⟩ | ⟨-, outer, on, nested⟩
    · exact off on
    · exact apart outer on nested
  · obtain ⟨owner, -, holds⟩ := Relation.TransGen.tail'_iff.mp nested
    exact ⟨owner, (inside branch owner).mpr ⟨holds, nested⟩, holds.onlyOwner wf⟩
  · rw [Option.eq_none_iff_forall_ne_some]
    exact fun answer answered => apart ((inside branch answer).mp answered).2

/-- The loop that holds a command is found from the start of the sequence, and not the condition around
it. -/
theorem parent_finds_owner_loop : sample.WellFormed ∧
    sample.parent (.ofIndex 0) (.ofIndex 7) = some (.ofIndex 6) ∧
    sample.OnlyOwner (.ofIndex 6) (.ofIndex 7) := by
  have condition : Handle.ofIndex 5 ∈ sample.chain (some (.ofIndex 0)) := by decide +kernel
  have loop : sample.Holds (.ofIndex 5) (.ofIndex 6) := ⟨0, by decide +kernel⟩
  have inner : sample.Holds (.ofIndex 6) (.ofIndex 7) := ⟨0, by decide +kernel⟩
  have found : sample.parent (.ofIndex 0) (.ofIndex 7) = some (.ofIndex 6) := by decide +kernel
  obtain ⟨owner, same, only⟩ :=
    (parent_finds_owner wellFormed_sample (.ofIndex 0) (.ofIndex 7)).2.1 (.ofIndex 5) condition
      (.tail (.single loop) inner)
  cases found.symm.trans same
  exact ⟨wellFormed_sample, found, only⟩

end Arena

end MissionScript
