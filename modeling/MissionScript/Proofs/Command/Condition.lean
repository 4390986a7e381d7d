import MissionScript.Proofs.Command.Parentheses
import MissionScript.Proofs.Expression.Accepted
import MissionScript.Proofs.Expression.Printed

/-!
# The grammar of conditions

A condition is spelled by its comparisons with symbols of its connectives between them, and a comparison by
the texts of its two expressions with a symbol of its relation between them. The whole and each comparison may
stand in parentheses. The texts of expressions have no characters of these symbols and close the parentheses
that they open, so every symbol stands outside all groups: it is found by the cuts, and the parentheses in
front of it and behind it are not taken for a pair.
-/

namespace MissionScript

/-- The ways to write the connectives. -/
def Connective.symbols : List (Text × Connective) :=
  [(['&'], and), (['&', '&'], and), (['|'], or), (['|', '|'], or)]

/-- The texts of both expressions with a symbol of the relation between them, in parentheses or without. -/
def Comparison.IsSpelled (c : Comparison) (text : Text) : Prop :=
  ∃ left symbol right : Text, Expression.parse left = .ok c.left ∧ (symbol, c.relation) ∈ Relation.symbols ∧
    Expression.parse right = .ok c.right ∧ Text.InParens (left ++ (symbol ++ right)) text

/-- Comparisons, with a symbol of its connective in front of each. -/
inductive Condition.Joined : List (Connective × Comparison) → Text → Prop
  | nil : Joined [] []
  | cons {symbol text more : Text} {connective : Connective} {comparison : Comparison}
      {rest : List (Connective × Comparison)} (joins : (symbol, connective) ∈ Connective.symbols)
      (first : comparison.IsSpelled text) (others : Joined rest more) :
      Joined ((connective, comparison) :: rest) (symbol ++ (text ++ more))

/-- The first comparison with the others behind it, in parentheses or without. -/
def Condition.IsSpelled (c : Condition) (text : Text) : Prop :=
  ∃ first joined : Text, c.first.IsSpelled first ∧ Condition.Joined c.rest joined ∧
    Text.InParens (first ++ joined) text

/-! ### Symbols -/

namespace Relation

variable {symbol right : Text} {relation : Relation}

theorem isSymbol_and_unjoined (listed : (symbol, relation) ∈ symbols) :
    symbol.IsSymbol ∧ ∀ c ∈ symbol, Connective.ofChar? c = none := by
  have all : symbols.all fun entry => entry.1 ≠ [] && entry.1.all fun c =>
      isFlat c && !isBlank c && (Connective.ofChar? c).isNone := by decide
  have entry := List.all_eq_true.mp all _ listed
  simp only [ne_eq, decide_not, Bool.and_eq_true, Bool.not_eq_true', decide_eq_false_iff_not,
    List.all_eq_true, Option.isNone_iff_eq_none] at entry
  obtain ⟨filled, chars⟩ := entry
  exact ⟨⟨filled, fun c member => (chars c member).1.1, fun c member => (chars c member).1.2⟩,
    fun c member => (chars c member).2⟩

/-- A relation is found with the longest of its symbols. -/
theorem leading?_symbol (listed : (symbol, relation) ∈ symbols) (next : right.head? ≠ some '=') :
    leading? (symbol ++ right) = some (relation, right) := by
  -- The equations for '<' and '>' hold only where no '=' follows.
  have single : ∀ rest, right ≠ '=' :: rest := by
    rintro rest rfl
    exact next rfl
  simp only [symbols, List.mem_cons, Prod.mk.injEq, List.not_mem_nil, or_false] at listed
  rcases listed with ⟨rfl, rfl⟩ | ⟨rfl, rfl⟩ | ⟨rfl, rfl⟩ | ⟨rfl, rfl⟩ | ⟨rfl, rfl⟩ | ⟨rfl, rfl⟩ | ⟨rfl, rfl⟩
  all_goals simp [leading?]

theorem text_of_leading? {text : Text} (leads : leading? text = some (relation, right)) :
    ∃ symbol, (symbol, relation) ∈ symbols ∧ text = symbol ++ right := by
  rw [leading?_eq, List.findSome?_eq_some_iff] at leads
  obtain ⟨before, entry, after, listed, found, -⟩ := leads
  obtain ⟨rest, cut, made⟩ := Option.map_eq_some_iff.mp found
  cases made
  refine ⟨entry.1, ?_, Text.after?_eq_some_iff.mp cut⟩
  rw [listed]
  exact List.mem_append_right _ (List.mem_cons_self ..)

end Relation

namespace Connective

variable {symbol : Text} {connective : Connective}

/-- A symbol is one character, which may be doubled. -/
theorem mem_symbols_iff : (symbol, connective) ∈ symbols ↔
    ∃ mark, ofChar? mark = some connective ∧ (symbol = [mark] ∨ symbol = [mark, mark]) := by
  have listed : (symbol, connective) ∈ symbols ↔
      (connective = and ∧ (symbol = ['&'] ∨ symbol = ['&', '&'])) ∨
        (connective = or ∧ (symbol = ['|'] ∨ symbol = ['|', '|'])) := by
    simp only [symbols, List.mem_cons, Prod.mk.injEq, List.not_mem_nil, or_false]
    tauto
  have known {mark : Char} : ofChar? mark = some connective ↔
      (connective = and ∧ mark = '&') ∨ (connective = or ∧ mark = '|') := by
    unfold ofChar?
    split <;> simp_all [eq_comm]
  simp only [listed, known]
  constructor
  · rintro (⟨rfl, both⟩ | ⟨rfl, both⟩)
    · exact ⟨'&', .inl ⟨rfl, rfl⟩, both⟩
    · exact ⟨'|', .inr ⟨rfl, rfl⟩, both⟩
  · rintro ⟨mark, ⟨rfl, rfl⟩ | ⟨rfl, rfl⟩, both⟩
    · exact .inl ⟨rfl, both⟩
    · exact .inr ⟨rfl, both⟩

theorem isFlat_of_ofChar? {mark : Char} (joins : ofChar? mark = some connective) :
    isFlat mark ∧ isBlank mark = false := by
  unfold ofChar? at joins
  split at joins
  · decide
  · decide
  · cases joins

theorem isSymbol (listed : (symbol, connective) ∈ symbols) : symbol.IsSymbol := by
  obtain ⟨mark, known, written⟩ := mem_symbols_iff.mp listed
  obtain ⟨flat, unblank⟩ := isFlat_of_ofChar? known
  rcases written with rfl | rfl
  · exact ⟨List.cons_ne_nil _ _, by simp [Text.IsFlat, flat], by simp [unblank]⟩
  · exact ⟨List.cons_ne_nil _ _, by simp [Text.IsFlat, flat], by simp [unblank]⟩

end Connective

/-! ### The texts of expressions -/

/-- No relation and no connective has a character of an expression. -/
theorem not_symbol_of_isArithmeticChar {c : Char} (arithmetic : isArithmeticChar c) :
    Relation.starts c = false ∧ Connective.ofChar? c = none := by
  constructor
  · rw [Bool.eq_false_iff]
    intro starts
    have other : "=~!<>".toList.all fun d => !isArithmeticChar d := by decide
    have not := List.all_eq_true.mp other c (List.contains_iff_mem.mp starts)
    rw [arithmetic] at not
    cases not
  · unfold Connective.ofChar?
    split
    · cases arithmetic
    · cases arithmetic
    · rfl

namespace Expression

variable {text : Text} {e : Expression}

theorem not_isBlankText_of_parse (read : parse text = .ok e) : ¬text.isBlankText := by
  intro blank
  have nothing : text.trim = [] := by
    rw [Text.trim, Text.trimStart_eq_nil_iff.mpr blank]
    rfl
  have empty : tokenize [] = .ok [] := @tokensFrom_of_isBlank [] (fun _ member => absurd member List.not_mem_nil) [] none
  rw [← parse_trim_iff, nothing] at read
  cases reads_of_parse read with
  | whole cut inner =>
      rw [empty] at cut
      cases cut
      cases inner with
      | operators first _ => cases first

theorem parse_trimStart (read : parse text = .ok e) : parse text.trimStart = .ok e := by
  rw [← parse_trim_iff] at read ⊢
  rwa [Text.trim_trimStart]

theorem parse_trimEnd (read : parse text = .ok e) : parse text.trimEnd = .ok e := by
  rw [← parse_trim_iff] at read ⊢
  rwa [Text.trim_trimEnd]

end Expression

/-! ### Comparisons -/

section Cut

variable {left symbol right : Text} {relation : Relation}

/-- The symbol between the texts of two expressions is where the comparison is cut. -/
theorem splitRelation_symbol (first : Arithmetic left) (listed : (symbol, relation) ∈ Relation.symbols)
    (second : Arithmetic right) :
    splitRelation (Text.glyphs (left ++ (symbol ++ right))) = some (left, relation, right) := by
  obtain ⟨isSymbol, -⟩ := Relation.isSymbol_and_unjoined listed
  obtain ⟨c, tail, rfl, glyphs⟩ := first.isEven.glyphs_append_symbol isSymbol second.isEven
  have flat := isSymbol.flat c (List.mem_cons_self ..)
  have next : right.head? ≠ some '=' := by
    intro same
    exact second.not_mem (by decide) (List.mem_of_head? same)
  have plain : ∀ g ∈ left.glyphs, Relation.starts g.char = false := by
    intro g member
    exact (not_symbol_of_isArithmeticChar (first.chars g.char (char_mem_of_mem_glyphsFrom member))).1
  have leads : Relation.leading? (Text.ofGlyphs (⟨c, false, 0⟩ :: Text.glyphs (tail ++ right))) =
      some (relation, right) := by
    rw [Text.ofGlyphs_cons, Text.ofGlyphs_glyphs]
    exact Relation.leading?_symbol listed next
  rw [glyphs, splitRelation_append plain, splitRelation, if_pos (isTop_of_isFlat flat), leads]
  simp

theorem text_of_splitRelation {gs : List Glyph} (cut : splitRelation gs = some (left, relation, right)) :
    ∃ symbol, (symbol, relation) ∈ Relation.symbols ∧ Text.ofGlyphs gs = left ++ (symbol ++ right) := by
  induction gs generalizing left with
  | nil => cases cut
  | cons g rest ih =>
      rw [splitRelation] at cut
      split at cut
      · rename_i leads
        cases cut
        obtain ⟨-, leads⟩ := Option.ite_none_right_eq_some.mp leads
        exact Relation.text_of_leading? leads
      · obtain ⟨⟨left', relation', right'⟩, inner, made⟩ := Option.map_eq_some_iff.mp cut
        cases made
        obtain ⟨symbol, listed, whole⟩ := ih inner
        exact ⟨symbol, listed, congrArg (g.char :: ·) whole⟩

end Cut

namespace Comparison

variable {c : Comparison} {text text' : Text}

/-- Neither blanks nor parentheses around the text matter. -/
theorem parse_of_stripParens_eq (same : stripParens text = stripParens text') : parse text = parse text' := by
  rw [parse, parse, same]

theorem parse_of_isSpelled (spelled : c.IsSpelled text) : parse text = .ok c := by
  obtain ⟨left, symbol, right, readLeft, listed, readRight, within⟩ := spelled
  have first := Expression.arithmetic_of_parse readLeft
  have second := Expression.arithmetic_of_parse readRight
  obtain ⟨isSymbol, -⟩ := Relation.isSymbol_and_unjoined listed
  have stripped : stripParens text = left.trimStart ++ (symbol ++ right.trimEnd) := by
    have ends : Text.trimEnd (symbol ++ right) = symbol ++ right.trimEnd :=
      Text.dropEndWhile_append isSymbol.filled isSymbol.unblank right
    have filledRight : ¬Text.isBlankText (symbol ++ right) := by
      rw [Text.isBlankText_append, Bool.and_eq_true]
      exact fun blank => Expression.not_isBlankText_of_parse readRight blank.2
    rw [within.stripParens (first.isEven.append_symbol isSymbol second.isEven),
      stripParens_symbol first.isEven isSymbol second.isEven,
      Text.trim_append (Expression.not_isBlankText_of_parse readLeft) filledRight, ends]
  have readLeft' := Expression.parse_trimStart readLeft
  have readRight' := Expression.parse_trimEnd readRight
  have cut := splitRelation_symbol (Expression.arithmetic_of_parse readLeft') listed
    (Expression.arithmetic_of_parse readRight')
  have complete {text : Text} {e : Expression} (read : Expression.parse text = .ok e) :
      text.trim.isEmpty = false := by
    rw [List.isEmpty_eq_false_iff]
    intro none
    have read' := Expression.parse_trim_iff.mpr read
    rw [none] at read'
    exact Expression.not_isBlankText_of_parse read' rfl
  rw [parse]
  simp only [stripped, cut, complete readLeft', complete readRight', Bool.or_self, Bool.false_eq_true,
    if_false, Expression.parse_trim_iff.mpr readLeft', Expression.parse_trim_iff.mpr readRight']
  rfl

theorem isSpelled_of_parse (read : parse text = .ok c) : c.IsSpelled text := by
  unfold parse at read
  cases cut : splitRelation (stripParens text).glyphs with
  | none =>
      simp only [cut] at read
      cases read
  | some parts =>
      obtain ⟨left, relation, right⟩ := parts
      simp only [cut] at read
      split at read
      · cases read
      · obtain ⟨e, readLeft, read⟩ := Outcome.bind_eq_ok_iff.mp read
        obtain ⟨f, readRight, read⟩ := Outcome.bind_eq_ok_iff.mp read
        cases read
        rw [Outcome.mapError_eq_ok_iff, Expression.parse_trim_iff] at readLeft readRight
        obtain ⟨symbol, listed, whole⟩ := text_of_splitRelation cut
        refine ⟨left, symbol, right, readLeft, listed, readRight, ?_⟩
        rw [← whole, Text.ofGlyphs_glyphs]
        exact inParens_stripParens text

/-- The texts that are read as a comparison are those that spell it. -/
theorem parse_eq_ok_iff_isSpelled : parse text = .ok c ↔ c.IsSpelled text :=
  ⟨isSpelled_of_parse, parse_of_isSpelled⟩

namespace IsSpelled

theorem of_stripParens_eq (spelled : c.IsSpelled text) (same : stripParens text' = stripParens text) :
    c.IsSpelled text' := by
  rw [← parse_eq_ok_iff_isSpelled] at spelled ⊢
  rwa [parse_of_stripParens_eq same]

theorem of_trim_eq (spelled : c.IsSpelled text) (same : text'.trim = text.trim) : c.IsSpelled text' :=
  spelled.of_stripParens_eq (stripParens_of_trim_eq same)

/-- A pair of parentheses around the text does not matter. -/
theorem parens {front back : Text} (spelled : c.IsSpelled text) (blankFront : front.isBlankText)
    (blankBack : back.isBlankText) : c.IsSpelled (front ++ '(' :: (text ++ ')' :: back)) := by
  obtain ⟨left, symbol, right, readLeft, listed, readRight, within⟩ := spelled
  exact ⟨left, symbol, right, readLeft, listed, readRight, within.parens blankFront blankBack⟩

theorem isEven (spelled : c.IsSpelled text) : text.IsEven := by
  obtain ⟨left, symbol, right, readLeft, listed, readRight, within⟩ := spelled
  have first := Expression.arithmetic_of_parse readLeft
  have second := Expression.arithmetic_of_parse readRight
  obtain ⟨isSymbol, -⟩ := Relation.isSymbol_and_unjoined listed
  exact within.isEven (first.isEven.append_symbol isSymbol second.isEven)

/-- A comparison has no connectives. -/
theorem unjoined (spelled : c.IsSpelled text) : ∀ d ∈ text, Connective.ofChar? d = none := by
  obtain ⟨left, symbol, right, readLeft, listed, readRight, within⟩ := spelled
  have operand {text : Text} {e : Expression} (read : Expression.parse text = .ok e) :
      ∀ d ∈ text, Connective.ofChar? d = none := fun d member =>
    (not_symbol_of_isArithmeticChar ((Expression.arithmetic_of_parse read).chars d member)).2
  obtain ⟨-, between⟩ := Relation.isSymbol_and_unjoined listed
  refine within.forall_mem ?_ (fun d blank => ?_) rfl rfl
  · exact List.forall_mem_append.mpr
      ⟨operand readLeft, List.forall_mem_append.mpr ⟨between, operand readRight⟩⟩
  · exact (not_symbol_of_isArithmeticChar (by simp [isArithmeticChar, isQuietChar, blank])).2

theorem not_isBlankText (spelled : c.IsSpelled text) : ¬text.isBlankText := by
  obtain ⟨left, symbol, right, readLeft, -, -, within⟩ := spelled
  intro blank
  have inside : left ⊆ text := fun d member => within.subset (List.mem_append_left _ member)
  exact Expression.not_isBlankText_of_parse readLeft (Text.isBlankText_of_subset inside blank)

end IsSpelled

/-- Expressions over names are printed with a symbol between them and blanks around it. -/
theorem isSpelled_print {symbol front back : Text} (left : c.left.operands.all (·.isSymbolic))
    (listed : (symbol, c.relation) ∈ Relation.symbols) (right : c.right.operands.all (·.isSymbolic))
    (s t : Spacing) (blankFront : front.isBlankText) (blankBack : back.isBlankText) :
    c.IsSpelled (c.left.print s ++ front ++ (symbol ++ (back ++ c.right.print t))) := by
  have read {e : Expression} (symbolic : e.operands.all (·.isSymbolic)) (s : Spacing) :
      Expression.parse (e.print s) = .ok e :=
    Expression.Reads.parse (.whole (e.tokenize_print symbolic s) (e.readsIn_tokens symbolic s).whole)
  refine ⟨_, symbol, _, ?_, listed, ?_, .refl _⟩
  · rw [← Expression.parse_trim_iff, Text.trim_append_blank _ blankFront, Expression.parse_trim_iff]
    exact read left s
  · rw [← Expression.parse_trim_iff, Text.trim_blank_append blankBack, Expression.parse_trim_iff]
    exact read right t

end Comparison

/-! ### Conditions -/

/-- A connective takes the rest of its symbol with it. -/
theorem afterConnective_symbol {symbol text : Text} {connective : Connective}
    (joins : (symbol, connective) ∈ Connective.symbols) (even : text.IsEven)
    (next : ∀ c ∈ text.head?, Connective.ofChar? c = none) :
    ∃ mark tail, symbol = mark :: tail ∧ Connective.ofChar? mark = some connective ∧
      afterConnective mark (Text.glyphs (tail ++ text)) = text.glyphs := by
  obtain ⟨mark, known, single | doubled⟩ := Connective.mem_symbols_iff.mp joins
  · refine ⟨mark, [], single, known, ?_⟩
    rw [List.nil_append]
    cases text with
    | nil => rfl
    | cons c text =>
        have other : (c == mark) = false := by
          rw [beq_eq_false_iff_ne]
          rintro rfl
          rw [next c rfl] at known
          cases known
        rw [Text.glyphs, glyphsFrom, afterConnective, if_neg (by simp [other])]
  · refine ⟨mark, [mark], doubled, known, ?_⟩
    have nothing : Text.IsEven [] := .of_isBlankText rfl
    have glyphs : Text.glyphs (mark :: text) = ⟨mark, false, 0⟩ :: text.glyphs :=
      nothing.glyphs_append_cons (Connective.isFlat_of_ofChar? known).1 even
    rw [List.singleton_append, glyphs, afterConnective, if_pos (beq_self_eq_true mark)]

/-- The rest of the symbol stands in front of what follows a connective. -/
theorem exists_symbol_append {mark : Char} {connective : Connective}
    (joins : Connective.ofChar? mark = some connective) (gs : List Glyph) :
    ∃ symbol, (symbol, connective) ∈ Connective.symbols ∧
      mark :: Text.ofGlyphs gs = symbol ++ Text.ofGlyphs (afterConnective mark gs) := by
  cases gs with
  | nil => exact ⟨[mark], Connective.mem_symbols_iff.mpr ⟨mark, joins, .inl rfl⟩, rfl⟩
  | cons second rest =>
      rw [afterConnective]
      split
      · rename_i doubled
        refine ⟨[mark, mark], Connective.mem_symbols_iff.mpr ⟨mark, joins, .inr rfl⟩, ?_⟩
        rw [Text.ofGlyphs_cons, beq_iff_eq.mp doubled]
        rfl
      · exact ⟨[mark], Connective.mem_symbols_iff.mpr ⟨mark, joins, .inl rfl⟩, rfl⟩

namespace Condition

variable {c : Condition} {rest : List (Connective × Comparison)} {first joined text : Text}

namespace Joined

theorem isEven (others : Joined rest joined) : joined.IsEven := by
  induction others with
  | nil => exact .of_isBlankText rfl
  | cons joins spelled _ ih =>
      exact (Text.IsEven.of_isFlat (Connective.isSymbol joins).flat).append (spelled.isEven.append ih)

theorem trimEnd (others : Joined rest joined) : Joined rest joined.trimEnd := by
  induction others with
  | nil => exact .nil
  | @cons symbol text more connective comparison rest joins spelled others ih =>
      have isSymbol := Connective.isSymbol joins
      rw [Text.trimEnd, Text.dropEndWhile_append isSymbol.filled isSymbol.unblank,
        Text.dropEndWhile_append_eq]
      split
      · rename_i blank
        rw [Text.trimEnd, blank] at ih
        have last := Joined.cons joins (spelled.of_trim_eq text.trim_trimEnd) ih
        rwa [List.append_nil] at last
      · exact .cons joins spelled ih

/-- The cuts at the connectives give back the comparisons. -/
theorem splitConnectives (others : Joined rest joined) (even : first.IsEven)
    (unjoined : ∀ d ∈ first, Connective.ofChar? d = none) :
    ∃ pieces, MissionScript.splitConnectives [] (Text.glyphs (first ++ joined)) = (first, pieces) ∧
      pieces.mapM readJoined = .ok rest := by
  have plain {first : Text} (unjoined : ∀ d ∈ first, Connective.ofChar? d = none) :
      ∀ g ∈ first.glyphs, Connective.ofChar? g.char = none :=
    fun g member => unjoined g.char (char_mem_of_mem_glyphsFrom member)
  induction others generalizing first with
  | nil =>
      refine ⟨[], ?_, rfl⟩
      have cut := splitConnectives_append (plain unjoined) []
      rw [List.append_nil] at cut ⊢
      simpa [MissionScript.splitConnectives, show Text.ofGlyphs [] = [] from rfl] using cut
  | @cons symbol text more connective comparison rest joins spelled others ih =>
      obtain ⟨pieces, cut, read⟩ := ih spelled.isEven spelled.unjoined
      obtain ⟨c, text, rfl⟩ : ∃ c tail, text = c :: tail := by
        refine List.exists_cons_of_ne_nil ?_
        rintro rfl
        exact spelled.not_isBlankText rfl
      have next : ∀ d ∈ (c :: text ++ more).head?, Connective.ofChar? d = none := by
        rintro d ⟨⟩
        exact spelled.unjoined c (List.mem_cons_self ..)
      have behind := spelled.isEven.append others.isEven
      obtain ⟨mark, tail, rfl, known, following⟩ := afterConnective_symbol joins behind next
      have isSymbol := Connective.isSymbol joins
      obtain ⟨_, _, same, glyphs⟩ := even.glyphs_append_symbol isSymbol behind
      cases same
      have top := isTop_of_isFlat (isSymbol.flat mark (List.mem_cons_self ..))
      refine ⟨(connective, c :: text) :: pieces, ?_, ?_⟩
      · rw [glyphs, splitConnectives_append (plain unjoined), splitConnectives_connective top known,
          following, cut]
        simp
      · rw [List.mapM_cons, readJoined, Comparison.parse_of_isSpelled spelled, read]
        rfl

/-- The symbol of a connective is in no parentheses around the whole. -/
theorem stripParens (others : Joined rest joined) (filled : rest ≠ []) (even : first.IsEven) :
    MissionScript.stripParens (first ++ joined) = Text.trim (first ++ joined) := by
  cases others with
  | nil => exact absurd rfl filled
  | cons joins spelled others =>
      exact stripParens_symbol even (Connective.isSymbol joins) (spelled.isEven.append others.isEven)

theorem not_isBlankText (others : Joined rest joined) (filled : rest ≠ []) : ¬joined.isBlankText := by
  cases others with
  | nil => exact absurd rfl filled
  | @cons symbol text more _ _ _ joins spelled others =>
      intro blank
      have inside : text ⊆ symbol ++ (text ++ more) := fun d member =>
        List.mem_append_right _ (List.mem_append_left _ member)
      exact spelled.not_isBlankText (Text.isBlankText_of_subset inside blank)

end Joined

/-- Without the parentheses around the whole, the text still consists of the comparisons: what is taken off
are blanks at its ends, or the parentheses around its only comparison. -/
theorem stripParens_of_joined (spelled : c.first.IsSpelled first) (others : Joined c.rest joined) :
    ∃ first' joined', c.first.IsSpelled first' ∧ Joined c.rest joined' ∧
      stripParens (first ++ joined) = first' ++ joined' := by
  by_cases single : c.rest = []
  · rw [single] at others ⊢
    cases others with
    | nil =>
        refine ⟨stripParens first, [], spelled.of_stripParens_eq (stripParens_stripParens first), .nil, ?_⟩
        rw [List.append_nil, List.append_nil]
  · refine ⟨first.trimStart, joined.trimEnd, spelled.of_trim_eq (Text.trim_trimStart first),
      others.trimEnd, ?_⟩
    rw [others.stripParens single spelled.isEven,
      Text.trim_append spelled.not_isBlankText (others.not_isBlankText single)]

theorem parse_of_isSpelled (spelled : c.IsSpelled text) : parse text = .ok c := by
  obtain ⟨first, joined, spelled, others, within⟩ := spelled
  have even := spelled.isEven.append others.isEven
  obtain ⟨first', joined', spelled', others', same⟩ := stripParens_of_joined spelled others
  obtain ⟨pieces, cut, read⟩ := others'.splitConnectives spelled'.isEven spelled'.unjoined
  rw [parse_eq, within.stripParens even, same, cut]
  simp only [Comparison.parse_of_isSpelled spelled', read]
  rfl

/-- The pieces that are cut at the connectives make up the text. -/
theorem exists_joined {gs : List Glyph} (read : (splitConnectives [] gs).2.mapM readJoined = .ok rest) :
    ∃ joined, Joined rest joined ∧ Text.ofGlyphs gs = (splitConnectives [] gs).1 ++ joined := by
  induction length : gs.length using Nat.strongRecOn generalizing gs rest with
  | ind n ih =>
      subst length
      cases gs with
      | nil =>
          cases read
          exact ⟨[], .nil, rfl⟩
      | cons g gs =>
          cases joins : if g.isTop then Connective.ofChar? g.char else none with
          | none =>
              rw [splitConnectives_other joins] at read ⊢
              obtain ⟨joined, others, whole⟩ := ih gs.length (Nat.lt_succ_self _) read rfl
              exact ⟨joined, others, congrArg (g.char :: ·) whole⟩
          | some connective =>
              obtain ⟨top, known⟩ := Option.ite_none_right_eq_some.mp joins
              rw [splitConnectives_connective top known] at read ⊢
              rw [List.mapM_cons] at read
              obtain ⟨comparison, first, read⟩ := Outcome.bind_eq_ok_iff.mp read
              obtain ⟨rest, further, read⟩ := Outcome.bind_eq_ok_iff.mp read
              cases read
              obtain ⟨comparison, inner, made⟩ := Outcome.bind_eq_ok_iff.mp first
              cases made
              have shorter := Nat.lt_succ_of_le (length_afterConnective_le g.char gs)
              obtain ⟨joined, others, whole⟩ := ih _ shorter further rfl
              obtain ⟨symbol, listed, taken⟩ := exists_symbol_append known gs
              rw [whole] at taken
              exact ⟨_, .cons listed (Comparison.isSpelled_of_parse inner) others, taken⟩

theorem isSpelled_of_parse (read : parse text = .ok c) : c.IsSpelled text := by
  rw [parse_eq] at read
  obtain ⟨first, readFirst, read⟩ := Outcome.bind_eq_ok_iff.mp read
  obtain ⟨rest, readRest, read⟩ := Outcome.bind_eq_ok_iff.mp read
  cases read
  obtain ⟨joined, others, whole⟩ := exists_joined readRest
  rw [Text.ofGlyphs_glyphs] at whole
  refine ⟨_, joined, Comparison.isSpelled_of_parse readFirst, others, ?_⟩
  rw [← whole]
  exact inParens_stripParens text

/-- The texts that are read as a condition are those that spell it: its comparisons, the texts of whose
expressions are read as these, with symbols of the relations in them and of the connectives between them, and
with any number of parentheses around each comparison and around the whole. -/
theorem parse_iff_isSpelled : parse text = .ok c ↔ c.IsSpelled text :=
  ⟨isSpelled_of_parse, parse_of_isSpelled⟩

/-- The outer parentheses are those around the whole, those of the first comparison stay with its expressions,
and those of the second are its own. -/
theorem parse_iff_isSpelled_enclosed :
    let var (name : String) : Expression := .operand (.var name.toList)
    let first : Comparison :=
      { left := .binary .multiply (.binary .add (var "a") (var "b")) (var "c"), relation := .greater
        right := .binary .multiply (var "d") (.binary .subtract (var "a") (var "b")) }
    let second : Comparison :=
      { left := var "x", relation := .notEqual, right := .operand (.parameter "Sat".toList "X".toList) }
    let third : Comparison :=
      { left := .operand (.element "A".toList (.var "i".toList)), relation := .lessOrEqual, right := var "y" }
    let c : Condition := { first, rest := [(.and, second), (.or, third)] }
    let text := "((a + b) * c > d * (a - b)&&(( x != Sat.X)) | A(i)<=y )".toList
    c.IsSpelled text ∧ Condition.parse text = .ok c := by
  intro var first second third c text
  let wide := Spacing.uniform [' '] rfl
  have spelledFirst : first.IsSpelled "(a + b) * c > d * (a - b)".toList :=
    @Comparison.isSpelled_print first ['>'] [' '] [' '] (by decide) (by decide) (by decide) wide wide rfl rfl
  have bare : second.IsSpelled "x != Sat.X".toList :=
    @Comparison.isSpelled_print second ['!', '='] [' '] [' '] rfl (by decide) rfl wide wide rfl rfl
  have padded : second.IsSpelled " x != Sat.X".toList := bare.of_trim_eq rfl
  have once : second.IsSpelled "( x != Sat.X)".toList :=
    @Comparison.IsSpelled.parens second " x != Sat.X".toList [] [] padded rfl rfl
  have twice : second.IsSpelled "(( x != Sat.X)) ".toList :=
    @Comparison.IsSpelled.parens second "( x != Sat.X)".toList [] [' '] once rfl rfl
  have tight : third.IsSpelled "A(i)<=y".toList :=
    @Comparison.isSpelled_print third ['<', '='] [] [] (by decide) (by decide) rfl wide wide rfl rfl
  have spelledThird : third.IsSpelled " A(i)<=y ".toList := tight.of_trim_eq rfl
  have behind : Joined [(.or, third)] "| A(i)<=y ".toList :=
    @Joined.cons ['|'] " A(i)<=y ".toList [] .or third [] (by decide) spelledThird .nil
  have others : Joined c.rest "&&(( x != Sat.X)) | A(i)<=y ".toList :=
    @Joined.cons ['&', '&'] "(( x != Sat.X)) ".toList _ .and second _ (by decide) twice behind
  have spelled : c.IsSpelled text :=
    ⟨_, _, spelledFirst, others, @Text.InParens.parens _ _ [] [] (.refl _) rfl rfl⟩
  exact ⟨spelled, parse_iff_isSpelled.mpr spelled⟩

end Condition

end MissionScript
