import Mathlib.Data.List.Infix
import MissionScript.Proofs.Sequence.Chain

/-!
# Script blocks

Commands that begin and end script blocks are counted like brackets: a block is open as long as more have
begun than ended. The scan for the end of a block finds the first command behind which none is open.
-/

namespace MissionScript

/-- How many more script blocks are open behind a command than in front of it. -/
def scriptStep : Option CommandKind → Int
  | some .beginScript => 1
  | some .endScript => -1
  | _ => 0

/-- How many more script blocks are open behind these commands than in front of them. -/
def openScripts (kind? : Handle → Option CommandKind) : List Handle → Int
  | [] => 0
  | h :: rest => scriptStep (kind? h) + openScripts kind? rest

/-- The first commands of a chain, behind each of which a script block is open, and the one that closes the
last of the `depth` blocks that were open in front of them. -/
structure ClosesScripts (kind? : Handle → Option CommandKind) (depth : Int) (handles inner : List Handle)
    (stop : Handle) : Prop where
  row : inner ++ [stop] <+: handles
  inside : ∀ before, before <+: inner → 0 < depth + openScripts kind? before
  closed : depth + openScripts kind? (inner ++ [stop]) = 0

section

variable {kind? : Handle → Option CommandKind} {h stop : Handle} {kind : CommandKind} {depth : Nat}
  {handles inner rest : List Handle} {level : Int}

@[simp] theorem openScripts_nil : openScripts kind? [] = 0 := rfl

@[simp] theorem openScripts_cons :
    openScripts kind? (h :: rest) = scriptStep (kind? h) + openScripts kind? rest := rfl

theorem scriptStep_other (noBegin : kind ≠ .beginScript) (noEnd : kind ≠ .endScript) :
    scriptStep (some kind) = 0 := by
  cases kind <;> first | rfl | contradiction

theorem closingScript_begin (found : kind? h = some .beginScript) :
    closingScript kind? depth (h :: rest) = closingScript kind? (depth + 1) rest := by
  rw [closingScript, found]

theorem closingScript_end (found : kind? h = some .endScript) :
    closingScript kind? depth (h :: rest) =
      if depth ≤ 1 then some h else closingScript kind? (depth - 1) rest := by
  rw [closingScript, found]

theorem closingScript_other (found : kind? h = some kind) (noBegin : kind ≠ .beginScript)
    (noEnd : kind ≠ .endScript) :
    closingScript kind? depth (h :: rest) = closingScript kind? depth rest := by
  rw [closingScript, found]
  cases kind <;> simp_all

namespace ClosesScripts

instance : Decidable (ClosesScripts kind? level handles inner stop) :=
  decidable_of_iff (inner ++ [stop] <+: handles ∧
      (∀ before ∈ inner.inits, 0 < level + openScripts kind? before) ∧
      level + openScripts kind? (inner ++ [stop]) = 0)
    ⟨fun ⟨row, inside, closed⟩ =>
      ⟨row, fun before isPrefix => inside before ((List.mem_inits before inner).mpr isPrefix), closed⟩,
    fun closes => ⟨closes.row, fun before member =>
      closes.inside before ((List.mem_inits before inner).mp member), closes.closed⟩⟩

/-- A command that leaves blocks open is passed over. -/
theorem cons_iff (before : 0 < level) (behind : 0 < level + scriptStep (kind? h)) :
    (∃ inner, ClosesScripts kind? level (h :: rest) inner stop) ↔
      ∃ inner, ClosesScripts kind? (level + scriptStep (kind? h)) rest inner stop := by
  constructor
  · rintro ⟨inner, row, inside, closed⟩
    cases inner with
    | nil =>
        obtain ⟨rfl, -⟩ := List.cons_prefix_cons.mp row
        simp only [List.nil_append, openScripts_cons, openScripts_nil] at closed
        omega
    | cons first inner =>
        obtain ⟨rfl, rowBehind⟩ := List.cons_prefix_cons.mp row
        refine ⟨inner, rowBehind, fun before front => ?_, ?_⟩
        · have still := inside (first :: before) (List.cons_prefix_cons.mpr ⟨rfl, front⟩)
          rw [openScripts_cons, ← Int.add_assoc] at still
          exact still
        · rw [List.cons_append, openScripts_cons, ← Int.add_assoc] at closed
          exact closed
  · rintro ⟨inner, row, inside, closed⟩
    refine ⟨h :: inner, List.cons_prefix_cons.mpr ⟨rfl, row⟩, fun front isFront => ?_, ?_⟩
    · rcases List.prefix_cons_iff.mp isFront with rfl | ⟨front, rfl, isInner⟩
      · rw [openScripts_nil, Int.add_zero]
        exact before
      · rw [openScripts_cons, ← Int.add_assoc]
        exact inside front isInner
    · rw [List.cons_append, openScripts_cons, ← Int.add_assoc]
      exact closed

/-- A command that leaves no block open is the end. -/
theorem head_iff (before : 0 < level) (behind : level + scriptStep (kind? h) = 0) :
    (∃ inner, ClosesScripts kind? level (h :: rest) inner stop) ↔ h = stop := by
  constructor
  · rintro ⟨inner, row, inside, -⟩
    cases inner with
    | nil => exact (List.cons_prefix_cons.mp row).1.symm
    | cons first inner =>
        obtain ⟨rfl, -⟩ := List.cons_prefix_cons.mp row
        have still := inside [first] (List.cons_prefix_cons.mpr ⟨rfl, List.nil_prefix⟩)
        rw [openScripts_cons, openScripts_nil, Int.add_zero, behind] at still
        exact absurd still (Int.lt_irrefl 0)
  · rintro rfl
    refine ⟨[], List.cons_prefix_cons.mpr ⟨rfl, List.nil_prefix⟩, fun front isFront => ?_, ?_⟩
    · rw [List.prefix_nil.mp isFront, openScripts_nil, Int.add_zero]
      exact before
    · rw [List.nil_append, openScripts_cons, openScripts_nil, Int.add_zero]
      exact behind

end ClosesScripts

/-- The scan finds the end of the blocks that are open, and nothing if they have none. -/
theorem closingScript_eq_some_iff (live : ∀ h ∈ handles, (kind? h).isSome) (begun : 0 < depth) :
    closingScript kind? depth handles = some stop ↔
      ∃ inner, ClosesScripts kind? depth handles inner stop := by
  induction handles generalizing depth with
  | nil =>
      constructor
      · intro closes
        cases closes
      · rintro ⟨inner, row, -, -⟩
        exact absurd (List.prefix_nil.mp row) (List.concat_ne_nil stop inner)
  | cons h rest ih =>
      have behind (other : Handle) (member : other ∈ rest) := live other (List.mem_cons_of_mem h member)
      have level : 0 < (depth : Int) := Int.natCast_pos.mpr begun
      obtain ⟨kind, found⟩ := Option.isSome_iff_exists.mp (live h List.mem_cons_self)
      by_cases begins : kind = .beginScript
      · rw [begins] at found
        have step : scriptStep (kind? h) = 1 := by rw [found]; rfl
        rw [closingScript_begin found, ih behind (Nat.succ_pos depth),
          ClosesScripts.cons_iff level (by omega), step]
        rfl
      · by_cases ends : kind = .endScript
        · rw [ends] at found
          have step : scriptStep (kind? h) = -1 := by rw [found]; rfl
          rw [closingScript_end found]
          split
          · rw [ClosesScripts.head_iff level (by omega), Option.some.injEq]
          · have same : ((depth - 1 : Nat) : Int) = depth + -1 := by omega
            rw [ih behind (by omega), ClosesScripts.cons_iff level (by omega), step, same]
        · have step : scriptStep (kind? h) = 0 := by rw [found, scriptStep_other begins ends]
          rw [closingScript_other found begins ends, ih behind begun,
            ClosesScripts.cons_iff level (by omega), step, Int.add_zero]

end

namespace Arena

variable {a : Arena} {h stop : Handle}

/-- A command begins a script block: `inner` stands in it, and `stop` ends it. -/
structure ScriptBlock (a : Arena) (h : Handle) (inner : List Handle) (stop : Handle) : Prop where
  begins : a.kind? h = some .beginScript
  closes : ClosesScripts a.kind? 1 (a.chain (a.next? h)) inner stop

instance {inner : List Handle} : Decidable (a.ScriptBlock h inner stop) :=
  decidable_of_iff (a.kind? h = some .beginScript ∧ ClosesScripts a.kind? 1 (a.chain (a.next? h)) inner stop)
    ⟨fun ⟨begins, closes⟩ => ⟨begins, closes⟩, fun block => ⟨block.begins, block.closes⟩⟩

/-- The scan for the end of a script block finds it. -/
theorem matchingEnd_eq_some_iff (sound : a.linkage.Sound) (begins : a.kind? h = some .beginScript) :
    a.matchingEnd h = some stop ↔ ∃ inner, a.ScriptBlock h inner stop := by
  obtain ⟨command, found, kind⟩ := Option.map_eq_some_iff.mp begins
  have live (other : Handle) (member : other ∈ a.chain (a.next? h)) : (a.kind? other).isSome := by
    cases next : a.next? h with
    | none =>
        rw [next, chain_none] at member
        cases member
    | some first =>
        rw [next] at member
        have liveFirst := (sound.live (p := .after h) next).2
        have liveOther := contains_of_reaches sound liveFirst (reaches_of_mem_follow member)
        rw [kind?, Option.isSome_map, ← contains_eq]
        exact liveOther
  have scan : a.matchingEnd h = closingScript a.kind? 1 (a.chain (a.next? h)) := by
    rw [matchingEnd, found]
    dsimp only
    rw [if_pos kind, chain_some sound, closingScript_begin begins]
  rw [scan, closingScript_eq_some_iff live Nat.one_pos]
  exact exists_congr fun inner => ⟨fun closes => ⟨begins, closes⟩, fun block => block.closes⟩

end Arena

end MissionScript
