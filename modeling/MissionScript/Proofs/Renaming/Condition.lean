import MissionScript.Command.Condition
import MissionScript.Proofs.Renaming.Expression

/-!
# Renaming and conditions

Relations and connectives stand between the words, so the comparisons of a renamed text are the
renamed comparisons.
-/

namespace MissionScript

open Lettered

namespace Relation

/-- The ways to write the relations, the longer ones first. -/
def symbols : List (Text × Relation) :=
  [(['=', '='], equal), (['~', '='], notEqual), (['!', '='], notEqual), (['<', '='], lessOrEqual),
   (['>', '='], greaterOrEqual), (['<'], less), (['>'], greater)]

theorem leading?_eq (text : Text) :
    leading? text = symbols.findSome? fun entry => (entry.1.after? text).map (entry.2, ·) := by
  unfold leading?
  split
  case h_6 rest single =>
    have longer : Text.after? ['='] rest = none := Text.after?_eq_none_iff.mpr single
    simp [symbols, Text.after?, longer]
  case h_7 rest single =>
    have longer : Text.after? ['='] rest = none := Text.after?_eq_none_iff.mpr single
    simp [symbols, Text.after?, longer]
  case h_8 equal tilde bang _ _ less greater =>
    have absent (lead : Text) (other : ∀ rest, text ≠ lead ++ rest) : Text.after? lead text = none :=
      Text.after?_eq_none_iff.mpr other
    simp [symbols, absent ['=', '='] equal, absent ['~', '='] tilde, absent ['!', '='] bang,
      absent ['<'] less, absent ['>'] greater, absent ['<', '='] fun rest => less _,
      absent ['>', '='] fun rest => greater _]
  all_goals simp [symbols, Text.after?]

theorem marks_symbols : ∀ entry ∈ symbols, ∀ c ∈ entry.1, isWordChar c = false ∧ c ≠ '.' := by
  have marks : symbols.all fun entry => entry.1.all fun c => !isWordChar c && c != '.' := by decide
  simpa using marks

/-- A relation starts with such a character. -/
def starts (c : Char) : Bool := "=~!<>".toList.contains c

theorem leading?_of_not_starts {c : Char} (other : starts c = false) (text : Text) :
    leading? (c :: text) = none := by
  unfold leading?
  split
  case h_8 => rfl
  all_goals
    rename_i same
    cases same
    cases other

theorem not_starts_of_isWordChar {c : Char} (word : isWordChar c) : starts c = false := by
  rw [Bool.eq_false_iff]
  intro begins
  have between : "=~!<>".toList.all fun d => !isWordChar d := by decide
  have other := List.all_eq_true.mp between c (List.contains_iff_mem.mp begins)
  rw [word] at other
  cases other

end Relation

theorem stripParens_of_scan {text : Text} {group : Group}
    (found : Bracket.paren.scan text.trim 0 = .matched group) :
    stripParens text = if group.isOuter then stripParens group.content else text.trim := by
  rw [stripParens]
  split
  · rename_i other found'
    rw [found] at found'
    cases found'
    rfl
  · rename_i other
    exact absurd found (other group)

theorem stripParens_of_no_group {text : Text}
    (absent : ∀ group, Bracket.paren.scan text.trim 0 ≠ .matched group) :
    stripParens text = text.trim := by
  rw [stripParens]
  split
  · rename_i group found
    exact absurd found (absent group)
  · rfl

/-- No relation starts within the run. -/
theorem splitRelation_append {run : List Glyph} (plain : ∀ g ∈ run, Relation.starts g.char = false)
    (gs : List Glyph) :
    splitRelation (run ++ gs) = (splitRelation gs).map fun x => (Text.ofGlyphs run ++ x.1, x.2) := by
  induction run with
  | nil => simp [Text.ofGlyphs]
  | cons g run ih =>
      obtain ⟨first, others⟩ := List.forall_mem_cons.mp plain
      rw [List.cons_append, splitRelation, ih others]
      have none : (if g.isTop then Relation.leading? (Text.ofGlyphs (g :: (run ++ gs))) else none) =
          none := by
        split
        · exact Relation.leading?_of_not_starts first _
        · rfl
      rw [none, Option.map_map]
      rfl

namespace Renamed

variable {ρ : Renaming} {afterDot : Bool} {s t : Text} {gs gt : List Glyph}

theorem leading? (related : Renamed ρ false s t) :
    Option.Rel (fun x y => x.1 = y.1 ∧ Renamed ρ false x.2 y.2) (Relation.leading? s)
      (Relation.leading? t) := by
  rw [Relation.leading?_eq, Relation.leading?_eq]
  apply rel_findSome?
  intro entry member
  exact rel_map (related.after? (Relation.marks_symbols entry member)) fun x y _ rest => ⟨rfl, rest⟩

theorem stripParens (related : Renamed ρ false s t) :
    Renamed ρ false (MissionScript.stripParens s) (MissionScript.stripParens t) := by
  induction length : s.length using Nat.strongRecOn generalizing s t with
  | ind n ih =>
      subst length
      have trims := related.trim
      by_cases found : ∃ group, Bracket.paren.scan s.trim 0 = .matched group
      · obtain ⟨group, found⟩ := found
        obtain ⟨group', found', -, inside, -, outer⟩ := trims.exists_scan found
        have inner := Bracket.length_content_of_scan found
        have whole := Text.length_trim_le s
        rw [stripParens_of_scan found, stripParens_of_scan found', outer]
        split
        · exact ih _ (by omega) inside.ofGlyphs rfl
        · exact trims
      · rw [not_exists] at found
        rw [stripParens_of_no_group found, stripParens_of_no_group (trims.scan_ne_matched found)]
        exact trims

/-- The pieces around the first relation. -/
def RelationAlike (ρ : Renaming) (afterDot : Bool) (x y : Text × Relation × Text) : Prop :=
  Renamed ρ afterDot x.1 y.1 ∧ x.2.1 = y.2.1 ∧ Renamed ρ false x.2.2 y.2.2

theorem startsWord_of_splitRelation {x : Text × Relation × Text}
    (cut : MissionScript.splitRelation gs = some x) (maximal : startsWord gs = false) :
    startsWord x.1 = false := by
  cases gs with
  | nil => cases cut
  | cons g gs =>
      rw [MissionScript.splitRelation] at cut
      split at cut
      · cases cut
        rfl
      · obtain ⟨y, -, rfl⟩ := Option.map_eq_some_iff.mp cut
        exact maximal

theorem splitRelation (related : Renamed ρ afterDot gs gt) :
    Option.Rel (RelationAlike ρ afterDot) (MissionScript.splitRelation gs)
      (MissionScript.splitRelation gt) := by
  induction related with
  | nil => exact .none
  | mark between rest ih =>
      rename_i afterDot g gs gt
      have leads : Option.Rel (fun x y => x.1 = y.1 ∧ Renamed ρ false x.2 y.2)
          (if g.isTop then Relation.leading? (Text.ofGlyphs (g :: gs)) else none)
          (if g.isTop then Relation.leading? (Text.ofGlyphs (g :: gt)) else none) := by
        split
        · exact (Renamed.mark between rest).ofGlyphs.leading?
        · exact .none
      rw [MissionScript.splitRelation, MissionScript.splitRelation]
      cases found : if g.isTop then Relation.leading? (Text.ofGlyphs (g :: gs)) else none with
      | some x =>
          obtain ⟨y, found', same, right⟩ := exists_of_rel leads found
          rw [found']
          exact .some ⟨.nil, same, right⟩
      | none =>
          rw [none_of_rel leads found]
          exact rel_map ih fun x y _ both => ⟨.mark between both.1, both.2⟩
  | word g filled letters maximal rest ih =>
      have plain {word : Text} (letters : ∀ c ∈ word, isWordChar c) :
          ∀ h ∈ writeWord g word, Relation.starts h.char = false :=
        fun h member => Relation.not_starts_of_isWordChar (inWord_of_mem_writeWord letters member)
      rw [splitRelation_append (plain letters), splitRelation_append (plain (Renaming.letters_word letters))]
      refine rel_map ih fun x y cut both => ⟨?_, both.2⟩
      rw [ofGlyphs_writeWord, ofGlyphs_writeWord]
      exact .word g.char filled letters (startsWord_of_splitRelation cut maximal) both.1

end Renamed

/-! ### Connectives -/

theorem splitConnectives_piece (piece gs : List Glyph) :
    splitConnectives piece gs =
      (Text.ofGlyphs piece.reverse ++ (splitConnectives [] gs).1, (splitConnectives [] gs).2) := by
  induction gs generalizing piece with
  | nil => simp [splitConnectives, Text.ofGlyphs]
  | cons g rest ih =>
      rw [splitConnectives.eq_def, splitConnectives.eq_def [] (g :: rest)]
      dsimp only
      split
      · rw [ih (g :: piece), ih [g]]
        simp [Text.ofGlyphs]
      · simp [Text.ofGlyphs]

/-- What follows a connective, which may be doubled. -/
def afterConnective (mark : Char) : List Glyph → List Glyph
  | [] => []
  | second :: rest => if second.char == mark then rest else second :: rest

theorem length_afterConnective_le (mark : Char) (gs : List Glyph) :
    (afterConnective mark gs).length ≤ gs.length := by
  cases gs with
  | nil => exact Nat.le_refl _
  | cons g gs =>
      rw [afterConnective]
      split
      · exact Nat.le_succ _
      · exact Nat.le_refl _

theorem Connective.ofChar?_word {c : Char} (word : isWordChar c) : ofChar? c = none := by
  unfold ofChar?
  split
  · cases word
  · cases word
  · rfl

theorem Connective.ne_dot_of_ofChar? {c : Char} {connective : Connective}
    (joins : ofChar? c = some connective) : c ≠ '.' := by
  rintro rfl
  cases joins

theorem splitConnectives_connective {g : Glyph} {rest : List Glyph} {connective : Connective}
    (top : g.isTop) (joins : Connective.ofChar? g.char = some connective) :
    splitConnectives [] (g :: rest) =
      ([], (connective, (splitConnectives [] (afterConnective g.char rest)).1) ::
        (splitConnectives [] (afterConnective g.char rest)).2) := by
  rw [splitConnectives.eq_def]
  simp only [top, if_true, joins]
  cases rest with
  | nil => rfl
  | cons second rest =>
      by_cases doubled : second.char == g.char
      · simp only [afterConnective, doubled, if_true]
        rfl
      · simp only [afterConnective, doubled, Bool.false_eq_true, if_false]
        rfl

theorem splitConnectives_other {g : Glyph} {rest : List Glyph}
    (other : (if g.isTop then Connective.ofChar? g.char else none) = none) :
    splitConnectives [] (g :: rest) =
      (g.char :: (splitConnectives [] rest).1, (splitConnectives [] rest).2) := by
  rw [splitConnectives.eq_def]
  simp only [other]
  rw [splitConnectives_piece]
  rfl

/-- There is no connective within the run. -/
theorem splitConnectives_append {run : List Glyph} (plain : ∀ g ∈ run, Connective.ofChar? g.char = none)
    (gs : List Glyph) :
    splitConnectives [] (run ++ gs) =
      (Text.ofGlyphs run ++ (splitConnectives [] gs).1, (splitConnectives [] gs).2) := by
  induction run with
  | nil => rfl
  | cons g run ih =>
      obtain ⟨first, others⟩ := List.forall_mem_cons.mp plain
      rw [List.cons_append, splitConnectives_other (by rw [first, ite_self]), ih others]
      rfl

namespace Renamed

variable {ρ : Renaming} {afterDot : Bool} {s t : Text} {gs gt : List Glyph}

/-- Pieces joined by the same connectives. -/
structure ConnectivesAlike (ρ : Renaming) (afterDot : Bool) (gs : List Glyph)
    (x y : Text × List (Connective × Text)) : Prop where
  first : Renamed ρ afterDot x.1 y.1
  starts : startsWord gs = false → startsWord x.1 = false
  rest : List.Forall₂ (fun a b => a.1 = b.1 ∧ Renamed ρ false a.2 b.2) x.2 y.2

theorem afterConnective (related : Renamed ρ false gs gt) {mark : Char}
    (between : isWordChar mark = false) (plain : mark ≠ '.') :
    Renamed ρ false (MissionScript.afterConnective mark gs)
      (MissionScript.afterConnective mark gt) := by
  cases related with
  | nil => exact .nil
  | mark outside rest =>
      rename_i g gs gt
      rw [MissionScript.afterConnective, MissionScript.afterConnective]
      split
      · rename_i same
        have other : (letter g == '.') = false := by
          rw [show letter g = mark from beq_iff_eq.mp same, beq_eq_false_iff_ne]
          exact plain
        rwa [other] at rest
      · exact .mark outside rest
  | word g filled letters maximal rest =>
      have kept {word : Text} (filled : word ≠ []) (letters : ∀ c ∈ word, isWordChar c)
          (rest : List Glyph) : MissionScript.afterConnective mark (writeWord g word ++ rest) =
            writeWord g word ++ rest := by
        obtain ⟨c, word, rfl⟩ := List.exists_cons_of_ne_nil filled
        have other : (c == mark) = false := by
          rw [beq_eq_false_iff_ne]
          rintro rfl
          rw [letters c (List.mem_cons_self ..)] at between
          cases between
        change (if c == mark then _ else _) = _
        rw [other, if_neg Bool.false_ne_true]
        rfl
      rw [kept filled letters, kept (Renaming.word_ne_nil filled) (Renaming.letters_word letters)]
      exact .word g filled letters maximal rest

theorem splitConnectives (related : Renamed ρ afterDot gs gt) :
    ConnectivesAlike ρ afterDot gs (MissionScript.splitConnectives [] gs)
      (MissionScript.splitConnectives [] gt) := by
  induction length : gs.length using Nat.strongRecOn generalizing gs gt afterDot with
  | ind n ih =>
      subst length
      cases related with
      | nil => exact ⟨.nil, fun _ => rfl, .nil⟩
      | mark between rest =>
          rename_i g gs gt
          cases joins : if g.isTop then Connective.ofChar? g.char else none with
          | none =>
              rw [splitConnectives_other joins, splitConnectives_other joins]
              obtain ⟨first, -, others⟩ := ih _ (Nat.lt_succ_self _) rest rfl
              exact ⟨.mark between first, fun _ => between, others⟩
          | some connective =>
              obtain ⟨top, joins⟩ := Option.ite_none_right_eq_some.mp joins
              have plain := Connective.ne_dot_of_ofChar? joins
              have following : Renamed ρ false gs gt := by
                rwa [show (letter g == '.') = false from beq_eq_false_iff_ne.mpr plain] at rest
              have shorter := length_afterConnective_le g.char gs
              obtain ⟨first, -, others⟩ := ih _ (Nat.lt_succ_of_le shorter)
                (following.afterConnective between plain) rfl
              rw [splitConnectives_connective top joins, splitConnectives_connective top joins]
              exact ⟨.nil, fun _ => rfl, .cons ⟨rfl, first⟩ others⟩
      | word g filled letters maximal rest =>
          rename_i gs gt word
          have shorter : gs.length < (writeWord g word ++ gs).length := by
            simp [writeWord, List.length_pos_iff.mpr filled]
          obtain ⟨first, starts, others⟩ := ih _ shorter rest rfl
          have plain {word : Text} (letters : ∀ c ∈ word, isWordChar c) :
              ∀ h ∈ writeWord g word, Connective.ofChar? h.char = none :=
            fun h member => Connective.ofChar?_word (inWord_of_mem_writeWord letters member)
          rw [splitConnectives_append (plain letters),
            splitConnectives_append (plain (Renaming.letters_word letters)), ofGlyphs_writeWord,
            ofGlyphs_writeWord]
          refine ⟨.word g.char filled letters (starts maximal) first, fun outside => ?_, others⟩
          rw [startsWord_writeWord filled letters] at outside
          cases outside

end Renamed

section Readings

variable {ρ : Renaming} {s t : Text}

theorem Comparison.parse_renamed {c : Comparison} (read : Comparison.parse s = .ok c)
    (left : c.left.Renamable ρ) (right : c.right.Renamable ρ) (related : Renamed ρ false s t) :
    Comparison.parse t = .ok (c.rename ρ.old ρ.new) := by
  unfold Comparison.parse at read ⊢
  have cut := related.stripParens.glyphs.splitRelation
  cases found : splitRelation (stripParens s).glyphs with
  | none =>
      simp only [found] at read
      cases read
  | some x =>
      obtain ⟨first, relation, second⟩ := x
      obtain ⟨⟨first', _, second'⟩, found', before, rfl, after⟩ := exists_of_rel cut found
      simp only [found] at read
      simp only [found']
      dsimp only at before after
      rw [before.trim.isEmpty_eq, after.trim.isEmpty_eq]
      split at read
      · cases read
      · rename_i complete
        rw [if_neg complete]
        obtain ⟨l, readLeft, read⟩ := Outcome.bind_eq_ok_iff.mp read
        obtain ⟨r, readRight, read⟩ := Outcome.bind_eq_ok_iff.mp read
        cases read
        rw [Outcome.mapError_eq_ok_iff] at readLeft readRight
        rw [(Expression.parse_renamed readLeft left before.trim).1,
          (Expression.parse_renamed readRight right after.trim).1]
        rfl

/-- Every comparison of the condition can be renamed. -/
def Condition.Renamable (ρ : Renaming) (c : Condition) : Prop :=
  ∀ e ∈ c.expressions, e.Renamable ρ

/-- The joined comparison of a joined piece. -/
def Condition.readJoined (joined : Connective × Text) :
    Except ArgumentError (Connective × Comparison) := do
  return (joined.1, ← Comparison.parse joined.2)

theorem Condition.parse_eq (text : Text) :
    Condition.parse text = (do
      let first ← Comparison.parse (splitConnectives [] (stripParens text).glyphs).1
      let rest ← (splitConnectives [] (stripParens text).glyphs).2.mapM readJoined
      return { first, rest }) :=
  rfl

theorem Condition.readJoined_renamed {pieces pieces' : List (Connective × Text)}
    {rest : List (Connective × Comparison)} (read : pieces.mapM readJoined = .ok rest)
    (renamable : ∀ c ∈ rest, c.2.left.Renamable ρ ∧ c.2.right.Renamable ρ)
    (related : List.Forall₂ (fun a b => a.1 = b.1 ∧ Renamed ρ false a.2 b.2) pieces pieces') :
    pieces'.mapM readJoined = .ok (rest.map fun c => (c.1, c.2.rename ρ.old ρ.new)) := by
  induction related generalizing rest with
  | nil =>
      cases read
      rfl
  | cons head tail ih =>
      rw [List.mapM_cons] at read ⊢
      obtain ⟨joined, first, read⟩ := Outcome.bind_eq_ok_iff.mp read
      obtain ⟨others, second, read⟩ := Outcome.bind_eq_ok_iff.mp read
      cases read
      obtain ⟨comparison, inner, made⟩ := Outcome.bind_eq_ok_iff.mp first
      cases made
      have ⟨left, right⟩ := renamable _ (List.mem_cons_self ..)
      have first' := Comparison.parse_renamed inner left right head.2
      have second' := ih second fun c member => renamable c (List.mem_cons_of_mem _ member)
      rw [second', readJoined, first', head.1]
      rfl

/-- A renamed text reads as the renamed condition. -/
theorem Condition.parse_renamed {c : Condition} (read : Condition.parse s = .ok c)
    (renamable : c.Renamable ρ) (related : Renamed ρ false s t) :
    Condition.parse t = .ok (c.rename ρ.old ρ.new) := by
  rw [Condition.parse_eq] at read ⊢
  have ⟨first, _, rest⟩ := related.stripParens.glyphs.splitConnectives
  obtain ⟨comparison, readFirst, read⟩ := Outcome.bind_eq_ok_iff.mp read
  obtain ⟨others, readRest, read⟩ := Outcome.bind_eq_ok_iff.mp read
  cases read
  have among (c : Comparison) (member : c ∈ comparison :: others.map (·.2)) :
      c.left.Renamable ρ ∧ c.right.Renamable ρ := by
    constructor
    · exact renamable _ (List.mem_flatMap.mpr ⟨c, member, List.mem_cons_self ..⟩)
    · exact renamable _ (List.mem_flatMap.mpr ⟨c, member, List.mem_cons_of_mem _
        (List.mem_singleton_self _)⟩)
  have ⟨left, right⟩ := among comparison (List.mem_cons_self ..)
  have readRest' := readJoined_renamed readRest (fun c member => among c.2
    (List.mem_cons_of_mem _ (List.mem_map_of_mem member))) rest
  rw [Comparison.parse_renamed readFirst left right first, readRest']
  rfl

end Readings

end MissionScript
