import MissionScript.Proofs.Bytewise.Expression
import MissionScript.Proofs.Renaming.Condition

/-!
# Conditions by offsets

A connective is one byte, and where it is doubled, the second of the two is the next character outside
literals. A relation is as wide as its symbol.
-/

namespace MissionScript

/-- Behind a character outside literals no literal is open. -/
theorem Text.Read.outside {text : Text} {done piece rest : List Glyph} {g : Glyph}
    (read : text.Read done piece (g :: rest)) (free : g.isFree) : Outside rest := by
  have whole := outside_glyphs text
  rw [read.whole, ← List.append_assoc] at whole
  exact whole.behind free

namespace Bytewise

variable {text : Text} {done piece : List Glyph} {depth : Nat}

/-! ### Parentheses -/

/-- Take off the parentheses around a whole text. -/
def stripParens (source : Text) : Option Text := do
  let text := source.trim
  match ← scan .paren text 0 with
  | .matched first last true =>
    match _inner : text.slice? ⟨first + 1, last⟩ with
    | none => none
    | some inside => stripParens inside
  | _ => return text
termination_by source.length
decreasing_by
  have inner := Text.length_of_slice? _inner (Nat.succ_pos _)
  have outer : text.length ≤ source.length := Text.length_trim_le source
  omega

theorem stripParens_eq (source : Text) : stripParens source = some (MissionScript.stripParens source) := by
  rw [stripParens, scan_eq]
  dsimp only [Option.bind_eq_bind, Option.bind_some]
  cases found : Bracket.paren.scan source.trim 0 with
  | notFound =>
      rw [stripParens_of_no_group (by rw [found]; nofun)]
      rfl
  | unmatched before =>
      rw [stripParens_of_no_group (by rw [found]; nofun)]
      rfl
  | matched group =>
      have inner := slice_content found
      have shorter := Bracket.length_content_of_scan found
      have outer := Text.length_trim_le source
      rw [stripParens_of_scan found]
      dsimp only [Scan.offsets]
      cases group.isOuter with
      | false => rfl
      | true =>
          dsimp only
          generalize source.trim.slice? _ = cut at inner
          subst inner
          exact stripParens_eq group.content
termination_by source.length
decreasing_by omega

/-! ### Connectives -/

/-- Go on with cutting a text at its connectives. `start` is where the piece starts, `depth` counts the open
groups, and `skip` says that a connective is doubled and its second character is still to come. -/
def cutConnectives (text : Text) : (start depth : Nat) → (skip : Bool) → List (Nat × Char) →
    Option (Text × List (Connective × Text))
  | start, _, _, [] => do return (← text.slice? ⟨start, text.bytes⟩, [])
  | _, depth, true, (i, _) :: rest => cutConnectives text (i + 1) depth false rest
  | start, depth, false, (i, c) :: rest =>
    match if isTopAt depth c then Connective.ofChar? c else none with
    | none => cutConnectives text start (depthAfter depth c) false rest
    | some connective => do
      let piece ← text.slice? ⟨start, i⟩
      let behind ← text.slice? ⟨i + 1, text.bytes⟩
      let (next, more) ← cutConnectives text (i + 1) depth (behind.head? == some c) rest
      return (piece, (connective, next) :: more)

/-- Cut a text at its top-level connectives. -/
def splitConnectives (text : Text) : Option (Text × List (Connective × Text)) :=
  cutConnectives text 0 0 false text.free

theorem eq_of_ofChar? {c : Char} {connective : Connective} (joins : Connective.ofChar? c = some connective) :
    c = '&' ∨ c = '|' := by
  unfold Connective.ofChar? at joins
  split at joins
  · exact .inl rfl
  · exact .inr rfl
  · cases joins

theorem utf8Size_of_ofChar? {c : Char} {connective : Connective} (joins : Connective.ofChar? c = some connective) :
    c.utf8Size = 1 := by
  rcases eq_of_ofChar? joins with rfl | rfl <;> rfl

/-- Behind a connective the second character of a doubled one is passed over, if going on behind either gives
what is to come. -/
theorem cutConnectives_behind {mark : Char} {connective : Connective} {rest : List Glyph}
    (joins : Connective.ofChar? mark = some connective) (top : isTopAt depth mark)
    (counted : Counted depth rest) (outside : Outside rest) (read : text.Read done [] rest)
    (goesOn : ∀ {front behind : List Glyph}, behind.length ≤ rest.length → Counted depth behind →
      text.Read front [] behind →
        cutConnectives text (Text.ofGlyphs front).bytes depth false
            (placesOf Glyph.isFree (Text.ofGlyphs front).bytes behind) =
          some (MissionScript.splitConnectives [] behind)) :
    cutConnectives text (Text.ofGlyphs done).bytes depth ((Text.ofGlyphs rest).head? == some mark)
        (placesOf Glyph.isFree (Text.ofGlyphs done).bytes rest) =
      some (MissionScript.splitConnectives [] (afterConnective mark rest)) := by
  cases counted with
  | nil => exact goesOn (Nat.le_refl 0) (.nil depth) read
  | @cons second rest counted =>
      rw [Text.ofGlyphs_cons, List.head?_cons]
      by_cases doubled : second.char = mark
      · subst doubled
        have unquoted : second.char ≠ '\'' := by
          rcases eq_of_ofChar? joins with same | same <;> rw [same] <;> decide
        have free := outside.free unquoted
        have plain : second.quoted = false := by simpa [Glyph.isFree] using free
        rw [plain, if_neg Bool.false_ne_true, depthAfter_of_isTopAt top] at counted
        have further := goesOn (Nat.le_succ _) counted read.next.cut
        rw [List.nil_append, Text.bytes_ofGlyphs_concat, utf8Size_of_ofChar? joins] at further
        rw [placesOf_cons, if_pos free, beq_self_eq_true, cutConnectives, utf8Size_of_ofChar? joins,
          afterConnective, if_pos (beq_self_eq_true second.char)]
        exact further
      · have other : (some second.char == some mark) = false := by simpa using doubled
        rw [other, afterConnective, if_neg (by simpa using doubled)]
        exact goesOn (Nat.le_refl _) (.cons counted) read

theorem cutConnectives_eq {done piece gs : List Glyph} {depth : Nat} (counted : Counted depth gs)
    (read : text.Read done piece gs) :
    cutConnectives text (Text.ofGlyphs done).bytes depth false
        (placesOf Glyph.isFree ((Text.ofGlyphs done).bytes + (Text.ofGlyphs piece).bytes) gs) =
      some (Text.ofGlyphs piece ++ (MissionScript.splitConnectives [] gs).1,
        (MissionScript.splitConnectives [] gs).2) := by
  cases counted with
  | nil depth =>
      have last := read.slice_rest
      rw [placesOf_nil, cutConnectives, last, Text.ofGlyphs_append]
      rfl
  | @cons g rest counted =>
      -- behind a glyph that is no connective, the piece goes on
      have goesOn (other : (if g.isTop then Connective.ofChar? g.char else none) = none) {level : Nat}
          (counted : Counted level rest) :
          cutConnectives text (Text.ofGlyphs done).bytes level false
              (placesOf Glyph.isFree ((Text.ofGlyphs done).bytes + (Text.ofGlyphs piece).bytes +
                g.char.utf8Size) rest) =
            some (Text.ofGlyphs piece ++ (MissionScript.splitConnectives [] (g :: rest)).1,
              (MissionScript.splitConnectives [] (g :: rest)).2) := by
        have further := cutConnectives_eq counted read.next
        rw [Text.bytes_ofGlyphs_concat, ← Nat.add_assoc] at further
        rw [further, splitConnectives_other other, Text.ofGlyphs_append, List.append_assoc]
        rfl
      rw [placesOf_cons]
      cases free : g.isFree with
      | false =>
          have quoted : g.quoted = true := by simpa [Glyph.isFree] using free
          rw [quoted, if_pos rfl] at counted
          exact goesOn (by rw [Glyph.isTop_eq, free]; rfl) counted
      | true =>
          have unquoted : g.quoted = false := by simpa [Glyph.isFree] using free
          have same : g.isTop = isTopAt g.depth g.char := by rw [Glyph.isTop_eq, free, Bool.true_and]
          rw [unquoted, if_neg Bool.false_ne_true] at counted
          rw [if_pos rfl, cutConnectives, ← same]
          cases joins : (if g.isTop then Connective.ofChar? g.char else none) with
          | none => exact goesOn joins counted
          | some connective =>
              obtain ⟨top, joins⟩ := Option.ite_none_right_eq_some.mp joins
              have level := depthAfter_of_isTopAt (same ▸ top)
              have behind := read.next.cut
              have cut := behind.slice_rest
              have further := cutConnectives_behind joins (same ▸ top) (level ▸ counted) (read.outside free) behind
                fun _ counted read => cutConnectives_eq counted read
              rw [Text.bytes_ofGlyphs_cut, utf8Size_of_ofChar? joins] at cut further
              rw [splitConnectives_connective top joins]
              dsimp only
              rw [read.slice, cut, List.nil_append, utf8Size_of_ofChar? joins, Option.bind_eq_bind,
                Option.bind_some, Option.bind_eq_bind, Option.bind_some, further, List.append_nil]
              rfl
termination_by gs.length
decreasing_by
  all_goals
    subst_vars
    simp only [List.length_cons]
    omega

theorem splitConnectives_eq (text : Text) :
    splitConnectives text = some (MissionScript.splitConnectives [] text.glyphs) :=
  cutConnectives_eq (counted_glyphs text) (.start text)

/-! ### Relations -/

/-- The first way to write a relation that the text starts with. -/
def leadingSymbol? (text : Text) : Option (Text × Relation) :=
  Relation.symbols.find? fun entry => entry.1.isPrefixOf text

/-- Cut a text at the first of these characters that starts a relation. -/
def cutRelation (text : Text) : List (Nat × Char) → Option (Option (Text × Relation × Text))
  | [] => some none
  | (i, _) :: rest => do
    match leadingSymbol? (← text.slice? ⟨i, text.bytes⟩) with
    | some (symbol, relation) =>
      return some (← text.slice? ⟨0, i⟩, relation, ← text.slice? ⟨i + symbol.bytes, text.bytes⟩)
    | none => cutRelation text rest

/-- Cut a text at its first top-level relation. -/
def splitRelation (text : Text) : Option (Option (Text × Relation × Text)) :=
  cutRelation text text.top

theorem leading?_eq_none (text : Text) (none : leadingSymbol? text = none) :
    Relation.leading? text = .none := by
  rw [Relation.leading?_eq, List.findSome?_eq_none_iff]
  intro entry member
  have other := List.find?_eq_none.mp none entry member
  rw [Option.map_eq_none_iff, Text.after?_eq_none_iff]
  rintro rest rfl
  have starts := List.isPrefixOf_iff_prefix.mpr (List.prefix_append entry.1 rest)
  exact other starts

theorem exists_of_leadingSymbol? {symbol : Text} {relation : Relation}
    (found : leadingSymbol? text = some (symbol, relation)) :
    ∃ right, text = symbol ++ right ∧ Relation.leading? text = some (relation, right) := by
  obtain ⟨leads, before, after, listed, others⟩ := List.find?_eq_some_iff_append.mp found
  obtain ⟨right, rfl⟩ := List.isPrefixOf_iff_prefix.mp leads
  refine ⟨right, rfl, ?_⟩
  rw [Relation.leading?_eq, List.findSome?_eq_some_iff]
  refine ⟨before, (symbol, relation), after, listed, ?_, fun entry member => ?_⟩
  · rw [Text.after?_eq_some_iff.mpr rfl]
    rfl
  · have other := others entry member
    rw [Option.map_eq_none_iff, Text.after?_eq_none_iff]
    intro rest same
    rw [same] at other
    have starts := List.isPrefixOf_iff_prefix.mpr (List.prefix_append entry.1 rest)
    rw [starts] at other
    cases other

theorem cutRelation_eq {gs : List Glyph} (read : text.Read done [] gs) :
    cutRelation text (placesOf Glyph.isTop (Text.ofGlyphs done).bytes gs) =
      some ((MissionScript.splitRelation gs).map fun x => (Text.ofGlyphs done ++ x.1, x.2)) := by
  induction gs generalizing done with
  | nil => rfl
  | cons g rest ih =>
      have further := ih read.next.cut
      rw [List.nil_append, Text.bytes_ofGlyphs_concat] at further
      have goesOn : (MissionScript.splitRelation rest).map (fun x => (Text.ofGlyphs (done ++ [g]) ++ x.1, x.2)) =
          ((MissionScript.splitRelation rest).map fun x => (g.char :: x.1, x.2)).map fun x =>
            (Text.ofGlyphs done ++ x.1, x.2) := by
        rw [Option.map_map]
        simp [Text.ofGlyphs, Function.comp_def]
      rw [placesOf_cons, MissionScript.splitRelation]
      cases g.isTop with
      | false =>
          rw [if_neg Bool.false_ne_true, if_neg Bool.false_ne_true, further, goesOn]
      | true =>
          rw [if_pos rfl, if_pos rfl, cutRelation, read.slice_rest, Option.bind_eq_bind, Option.bind_some,
            List.nil_append]
          cases found : leadingSymbol? (Text.ofGlyphs (g :: _)) with
          | none =>
              dsimp only
              rw [leading?_eq_none _ found, further, goesOn]
          | some entry =>
              obtain ⟨symbol, relation⟩ := entry
              obtain ⟨right, whole, leads⟩ := exists_of_leadingSymbol? found
              have parts : text = Text.ofGlyphs done ++ Text.ofGlyphs (g :: _) := read.text_eq
              rw [whole] at parts
              have front := Text.slice?_front (Text.ofGlyphs done) (symbol ++ right)
              have back := @Text.slice?_behind (Text.ofGlyphs done) symbol right _ rfl
              rw [← parts] at front back
              dsimp only
              rw [leads, front, back]
              simp

theorem splitRelation_eq (text : Text) :
    splitRelation text = some (MissionScript.splitRelation text.glyphs) := by
  have cut := cutRelation_eq (.start text)
  rw [splitRelation, Text.top_eq]
  refine cut.trans (congrArg some ?_)
  exact congrFun Option.map_id _

/-! ### Comparisons -/

/-- Read a comparison. -/
def comparison (source : Text) : ExceptT ArgumentError Option Comparison := do
  let text ← stripParens source
  match ← splitRelation text with
  | none => throw (.noRelation text)
  | some (left, relation, right) =>
    if left.trim.isEmpty || right.trim.isEmpty then throw (.incompleteComparison text)
    else
      let left ← ExceptT.adapt .expression (expression left.trim)
      let right ← ExceptT.adapt .expression (expression right.trim)
      return { left, relation, right }

theorem comparison_eq (source : Text) : comparison source = given (Comparison.parse source) := by
  rw [comparison, Comparison.parse, stripParens_eq, lift_some, given_ok_bind, splitRelation_eq, lift_some,
    given_ok_bind]
  cases MissionScript.splitRelation (MissionScript.stripParens source).glyphs with
  | none => rfl
  | some parts =>
      obtain ⟨left, relation, right⟩ := parts
      dsimp only
      split
      · rfl
      · rw [expression_eq, expression_eq, adapt_given, adapt_given]
        exact given_bind _ fun _ _ => given_bind _ fun _ _ => rfl

/-- Read a condition. -/
def condition (text : Text) : ExceptT ArgumentError Option Condition := do
  let (first, rest) ← splitConnectives (← stripParens text)
  let first ← comparison first
  let rest ← rest.mapM fun (connective, piece) => return (connective, ← comparison piece)
  return { first, rest }

theorem condition_eq (text : Text) : condition text = given (Condition.parse text) := by
  have joined (piece : Connective × Text) :
      (do return (piece.1, ← comparison piece.2)) = given (Condition.readJoined piece) := by
    rw [comparison_eq]
    exact given_bind _ fun _ _ => rfl
  rw [condition, Condition.parse_eq, stripParens_eq, lift_some, given_ok_bind, splitConnectives_eq, lift_some,
    given_ok_bind]
  dsimp only
  rw [comparison_eq]
  refine given_bind _ fun first _ => ?_
  rw [given_mapM joined]
  exact given_bind _ fun _ _ => rfl

end Bytewise

end MissionScript
