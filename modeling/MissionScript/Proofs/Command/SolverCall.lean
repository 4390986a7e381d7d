import MissionScript.Command.Result
import MissionScript.Proofs.Command.Argument

/-!
# The grammar of objectives and constraints

Both are spelled as a solver with one argument in parentheses. The splitters take a comma between two words
for a separator like a blank and drop it, so runs of both may stand around the solver, and around the argument
in its parentheses. An argument itself has no comma outside the parentheses that it opens, so there is one way
to cut a call into its parts.
-/

namespace MissionScript

/-! ### Calls of solvers -/

/-- A solver and one argument in parentheses, with runs of the characters that separate around the solver and
around the argument. -/
def SolverCall (separates : Char → Bool) (solver argument text : Text) : Prop :=
  ∃ front between left right back : Text,
    (∀ run ∈ [front, between, left, right, back], ∀ c ∈ run, separates c) ∧ solver.isIdentifier ∧
      text = front ++ (solver ++ (between ++ '(' :: (left ++ (argument ++ right) ++ ')' :: back)))

/-- The spelling of an objective: its solver with the text of an operand, which is not a number. -/
def Objective.IsSpelled (separates : Char → Bool) (o : Objective) (text : Text) : Prop :=
  ∃ argument : Text, SolverCall separates o.solver argument text ∧
    Operand.parse argument = .ok o.operand ∧ o.operand.isNumber = false ∧ o.name = argument.trim ∧
      o.state = .unregistered

/-- The ways to write the relations of constraints. -/
def ConstraintKind.symbols : List (Text × ConstraintKind) :=
  [(['<', '='], lessOrEqual), (['>', '='], greaterOrEqual), (['='], equality), (['=', '='], equality)]

/-- The spelling of a constraint: its solver with the text of an operand, which is not a number, a symbol of
the relation and the text of an expression. -/
def Constraint.IsSpelled (separates : Char → Bool) (c : Constraint) (text : Text) : Prop :=
  ∃ left symbol right : Text, SolverCall separates c.solver (left ++ (symbol ++ right)) text ∧
    Operand.parse left = .ok c.operand ∧ c.operand.isNumber = false ∧
      (symbol, c.kind) ∈ ConstraintKind.symbols ∧ Expression.parse right = .ok c.bound ∧
        c.name = left.trim ∧ c.boundName = right.trim ∧ c.state = .unregistered

/-! ### Cutting a call into its parts -/

section Split

variable {text solver argument : Text}

theorem splitSolverCall_eq_ok_iff : splitSolverCall text = .ok (solver, argument) ↔
    text.trim.any "[]\x7b\x7d".toList.contains = false ∧ checkBalance text.trim = .ok () ∧
      ∃ group, decompose .paren false false text.trim = .ok [solver, group] ∧ solver.isIdentifier ∧
        separateGroup .paren [','] true group = .ok [argument] := by
  unfold splitSolverCall
  dsimp only
  constructor
  · intro cut
    split at cut
    · cases cut
    rename_i plain
    obtain ⟨⟨⟩, balanced, cut⟩ := Outcome.bind_eq_ok_iff.mp cut
    obtain ⟨tokens, decomposed, cut⟩ := Outcome.bind_eq_ok_iff.mp cut
    rw [Outcome.mapError_eq_ok_iff] at balanced decomposed
    refine ⟨Bool.eq_false_iff.mpr plain, balanced, ?_⟩
    split at cut
    · rename_i name group
      split at cut
      · cases cut
      rename_i identifier
      obtain ⟨arguments, separated, cut⟩ := Outcome.bind_eq_ok_iff.mp cut
      rw [Outcome.mapError_eq_ok_iff] at separated
      split at cut
      · cases cut
        exact ⟨group, decomposed, by simpa using identifier, separated⟩
      · cases cut
      · cases cut
    · cases cut
  · rintro ⟨plain, balanced, group, decomposed, identifier, separated⟩
    rw [if_neg (Bool.eq_false_iff.mp plain)]
    refine Outcome.bind_eq_ok_iff.mpr ⟨(), Outcome.mapError_eq_ok_iff.mpr balanced, ?_⟩
    refine Outcome.bind_eq_ok_iff.mpr ⟨_, Outcome.mapError_eq_ok_iff.mpr decomposed, ?_⟩
    dsimp only
    rw [if_neg (by simp [identifier])]
    exact Outcome.bind_eq_ok_iff.mpr ⟨_, Outcome.mapError_eq_ok_iff.mpr separated, rfl⟩

theorem separateGroup_eq_ok_iff {family : Bracket} {delimiters group : Text} {tokens : List Text} :
    separateGroup family delimiters true group = .ok tokens ↔
      ∃ outer, family.scan group.trim 0 = .matched outer ∧ outer.isOuter ∧
        splitTop (isDelimiter delimiters) outer.content = tokens := by
  rw [separateGroup]
  cases found : family.scan group.trim 0 with
  | unmatched before => simp
  | notFound => simp
  | matched outer => by_cases outermost : outer.isOuter <;> simp [outermost]

/-- A decomposition of a text without options is the tokens with runs around them. -/
theorem spread_of_decompose {tokens : List Text} (plain : text.trim.any "[]\x7b\x7d".toList.contains = false)
    (cut : decompose .paren false false text.trim = .ok tokens) : Spread tokens text.trim := by
  obtain ⟨-, pieces, parted, -, rfl⟩ := exists_of_decompose cut
  have readied : text.trim.readied false = text.trim := text.trim_trim
  rw [readied] at parted ⊢
  rw [splitOptions?_eq_none, Option.getD_none]
  · simpa using parted.spread
  · intro g member
    rw [Bool.eq_false_iff]
    intro opens
    have inside := List.any_eq_false.mp plain g.char (char_mem_of_mem_glyphsFrom member)
    rw [Glyph.char_of_opens opens] at inside
    exact inside (by decide)

/-- What a call is cut into stands in it, with runs of separators around it. -/
theorem solverCall_of_splitSolverCall (cut : splitSolverCall text = .ok (solver, argument)) :
    SolverCall isSeparator solver argument text ∧ argument.trim = argument := by
  obtain ⟨plain, -, group, decomposed, identifier, separated⟩ := splitSolverCall_eq_ok_iff.mp cut
  obtain ⟨outer, found, outermost, single⟩ := separateGroup_eq_ok_iff.mp separated
  obtain ⟨blankBefore, blankAfter⟩ := Bool.and_eq_true_iff.mp outermost
  have comma : ∀ c, isDelimiter [','] c → isSeparator c := by
    intro c delimits
    rw [isDelimiter_comma] at delimits
    rw [isSeparator, delimits, Bool.or_true]
  -- The call within the text, its group within the call, and the argument within the group.
  obtain ⟨front, back, blankFront, blankBack, whole⟩ := text.exists_trim
  obtain ⟨first, behind, separatesFirst, spread, call⟩ :=
    Spread.cons_iff.mp (spread_of_decompose plain decomposed)
  obtain ⟨second, third, separatesSecond, spread, behind⟩ := Spread.cons_iff.mp spread
  obtain ⟨before, after, blankBefore', blankAfter', padded⟩ := group.exists_trim
  have inner := spread_splitTop comma outer.content
  rw [single] at inner
  obtain ⟨left, right, separatesLeft, separatesRight, content⟩ := Spread.cons_iff.mp inner
  refine ⟨⟨front ++ first, second ++ (before ++ Text.ofGlyphs outer.before), left, right,
    Text.ofGlyphs outer.after ++ (after ++ (third ++ back)), ?_, identifier, ?_⟩, ?_⟩
  · have blank {text : Text} (blank : text.isBlankText) : ∀ c ∈ text, isSeparator c :=
      isSeparator_of_isBlankText blank
    simp only [List.forall_mem_cons, List.forall_mem_append, Spread.nil_iff] at *
    exact ⟨⟨blank blankFront, separatesFirst⟩, ⟨separatesSecond, blank blankBefore', blank blankBefore⟩,
      separatesLeft, separatesRight, ⟨blank blankAfter, blank blankAfter', spread, blank blankBack⟩,
      List.forall_mem_nil _⟩
  · rw [whole, call, behind, padded, text_of_scan found, content]
    simp [Bracket.opening, Bracket.closing]
  · have member : argument ∈ splitTop (isDelimiter [',']) outer.content := by simp [single]
    exact (trimmed_of_mem_tidy member).trim

section Runs

variable {front between left right back : Text}

theorem isEven_of_separators {run : Text} (separates : ∀ c ∈ run, isSeparator c) : run.IsEven :=
  .of_isFlat (isFlat_of_separators separates)

/-- The runs around an argument are dropped. -/
theorem separateGroup_argument (isArgument : argument.IsArgument) (inLeft : ∀ c ∈ left, isSeparator c)
    (inRight : ∀ c ∈ right, isSeparator c) :
    separateGroup .paren [','] true ('(' :: (left ++ (argument ++ right) ++ [')'])) = .ok [argument.trim] := by
  have evenRight := isEven_of_separators inRight
  have behind := isArgument.toIsEven.append evenRight
  have inside := (isEven_of_separators inLeft).append behind
  obtain ⟨group, found, outer, content⟩ := Bracket.scan_enclosed inside.isComplete .paren
  have solid : ∀ g ∈ argument.glyphs, (g.isTop && isDelimiter [','] g.char) = false := by
    intro g member
    rw [Bool.and_eq_false_imp, isDelimiter_comma]
    exact fun top => beq_eq_false_iff_ne.mpr (isArgument.unbroken g member top)
  have filled : argument.trim.isEmpty = false :=
    List.isEmpty_eq_false_iff.mpr (mt Text.trim_eq_nil_iff.mp isArgument.filled)
  have trimmed : Text.trim ('(' :: (left ++ (argument ++ right) ++ [')'])) = _ :=
    (Bracket.paren.trimmed_enclosed (left ++ (argument ++ right))).trim
  refine separateGroup_eq_ok_iff.mpr ⟨group, ?_, outer, ?_⟩
  · rw [trimmed]
    exact found
  · rw [content, splitTop, (isEven_of_separators inLeft).glyphs_append behind.unquoted,
      isArgument.glyphs_append evenRight.unquoted, tidy_run_append inLeft, tidy_append_run solid inRight,
      tidy_cons, Text.ofGlyphs_glyphs, filled]
    rfl

/-- The pieces of a call, made from the last to the first: nothing is left of the runs. -/
theorem exists_parted_call {group : Text} (dotted : solver.IsDotted) (trimmed : group.Trimmed)
    (inFront : ∀ c ∈ front, isSeparator c) (inBetween : ∀ c ∈ between, isSeparator c)
    (inBack : ∀ c ∈ back, isSeparator c)
    (cutsOff : ∀ after pieces, Parted .paren false [] after pieces → ∀ piece,
      Parted .paren false piece (group.glyphs ++ after) (piece.reverse :: group.glyphs :: pieces)) :
    ∃ pieces, Parted .paren false [] (front.glyphs ++ (solver.glyphs ++ (between.glyphs ++
      (group.glyphs ++ back.glyphs)))) pieces ∧ tidy pieces = [solver, group] := by
  obtain ⟨last, parted, nothing⟩ := Parted.run_append inBack (@Parted.done .paren false [])
  rw [List.append_nil] at parted
  obtain ⟨more, parted, same⟩ :=
    Parted.run_between solver.glyphs.reverse inBetween (cutsOff back.glyphs last parted)
  rw [List.reverse_reverse, ← List.append_nil solver.glyphs.reverse] at parted
  have plain : ∀ g ∈ solver.glyphs, g.mark? = none := by
    rw [glyphs_eq_unquotedFrom dotted.isFlat.unquoted]
    exact dotted.isFlat.mark?_eq_none 0
  have unseparated : ∀ g ∈ solver.glyphs, isSeparator g.char = false :=
    fun g member => isSeparator_of_isDotted dotted g.char (char_mem_of_mem_glyphsFrom member)
  obtain ⟨pieces, parted, whole⟩ := (parted.others plain unseparated).run_append inFront
  refine ⟨pieces, parted, ?_⟩
  rw [whole, tidy_cons_of_trimmed dotted.trimmed, same, tidy_cons_of_trimmed trimmed, nothing]
  rfl

/-- The runs around a solver and behind its group are dropped. -/
theorem decompose_call {inside : Text} (identifier : solver.isIdentifier) (even : inside.IsEven)
    (inFront : ∀ c ∈ front, isSeparator c) (inBetween : ∀ c ∈ between, isSeparator c)
    (inBack : ∀ c ∈ back, isSeparator c)
    (whole : text.trim = front ++ (solver ++ (between ++ ('(' :: (inside ++ [')']) ++ back)))) :
    text.trim.IsEven ∧ decompose .paren false false text.trim = .ok [solver, '(' :: (inside ++ [')'])] := by
  have dotted : solver.IsDotted := ⟨[solver], by simp, by simpa using identifier, by simp⟩
  have name := Text.IsEven.of_isFlat dotted.isFlat
  have fromGroup := even.parens.append (isEven_of_separators inBack)
  have fromBetween := (isEven_of_separators inBetween).append fromGroup
  have fromName := name.append fromBetween
  have call := (isEven_of_separators inFront).append fromName
  rw [← whole] at call
  have balanced := call.isComplete.balanced
  have readied : text.trim.readied false = text.trim := text.trim_trim
  have options : splitOptions? text.trim = none := by
    refine splitOptions?_eq_none fun g member => Bool.eq_false_iff.mpr fun opens => ?_
    have brace : g.char = '\x7b' := Glyph.char_of_opens opens
    exact call.not_mem (by decide) (brace ▸ char_mem_of_mem_glyphsFrom member)
  obtain ⟨pieces, parted, tokens⟩ := @exists_parted_call solver front between back ('(' :: (inside ++ [')']))
    dotted (Bracket.paren.trimmed_enclosed inside) inFront inBetween inBack
    fun _ _ parted => parted.enclosed even.isComplete
  obtain ⟨others, -, cut, done⟩ := exists_cutUp balanced .paren false
  have glyphs : text.trim.glyphs = front.glyphs ++ (solver.glyphs ++ (between.glyphs ++
      (Text.glyphs ('(' :: (inside ++ [')'])) ++ back.glyphs))) := by
    rw [whole, (isEven_of_separators inFront).glyphs_append fromName.unquoted,
      name.glyphs_append fromBetween.unquoted,
      (isEven_of_separators inBetween).glyphs_append fromGroup.unquoted, even.parens.glyphs_append (isEven_of_separators inBack).unquoted]
  rw [glyphs, parted.splitGroups_eq] at cut
  cases cut
  refine ⟨call, ?_⟩
  rw [decompose_eq, Text.stripped_false, readied, balanced, done, options, Option.getD_none, tokens]
  rfl

end Runs

/-- A solver with an argument in parentheses is cut into both, wherever runs of separators stand. -/
theorem splitSolverCall_of_solverCall (call : SolverCall isSeparator solver argument text)
    (isArgument : argument.IsArgument) : splitSolverCall text = .ok (solver, argument.trim) := by
  obtain ⟨front, between, left, right, back, separates, identifier, rfl⟩ := call
  simp only [List.forall_mem_cons] at separates
  obtain ⟨inFront, inBetween, inLeft, inRight, inBack, -⟩ := separates
  have inside := (isEven_of_separators inLeft).append (isArgument.append (isEven_of_separators inRight))
  -- The blanks at the ends are trimmed off the runs there.
  have core : Text.Trimmed (solver ++ (between ++ '(' :: (left ++ (argument ++ right) ++ [')']))) := by
    have name : solver.IsDotted := ⟨[solver], by simp, by simpa using identifier, by simp⟩
    exact name.trimmed.around (Bracket.paren.trimmed_enclosed _) between
  have whole : Text.trim (front ++ (solver ++ (between ++ '(' :: (left ++ (argument ++ right) ++
      ')' :: back)))) = front.trimStart ++ (solver ++ (between ++ ('(' :: (left ++ (argument ++ right) ++ [')']) ++
        back.trimEnd))) := by
    simpa using core.trim_around front back
  have inStart : ∀ c ∈ front.trimStart, isSeparator c :=
    fun c member => inFront c ((List.dropWhile_suffix _).subset member)
  have inEnd : ∀ c ∈ back.trimEnd, isSeparator c :=
    fun c member => inBack c ((Text.dropEndWhile_prefix _ _).subset member)
  obtain ⟨even, decomposed⟩ := decompose_call identifier inside inStart inBetween inEnd whole
  refine splitSolverCall_eq_ok_iff.mpr ⟨?_, even.isComplete.balanced, _, decomposed, identifier,
    separateGroup_argument isArgument inLeft inRight⟩
  refine List.any_eq_false.mpr fun c member bracket => ?_
  have other : ∀ d ∈ "[]\x7b\x7d".toList, isFlat d = false ∧ d ≠ '(' ∧ d ≠ ')' :=
    List.all_iff_forall_prop.mp (by decide)
  exact even.not_mem (other c (List.contains_iff_mem.mp bracket)) member

end Split

/-! ### Objectives -/

theorem Operand.parse_trim (text : Text) : Operand.parse text.trim = Operand.parse text := by
  rw [Operand.parse, Operand.parse, Text.trim_trim]

namespace Objective

variable {text : Text} {o : Objective}

theorem parse_of_isSpelled (spelled : o.IsSpelled isSeparator text) : parse text = .ok o := by
  obtain ⟨argument, call, read, named, name, state⟩ := spelled
  have cut := splitSolverCall_of_solverCall call (.of_operand read)
  rw [← Operand.parse_trim] at read
  unfold parse
  refine Outcome.bind_eq_ok_iff.mpr ⟨_, cut, ?_⟩
  refine Outcome.bind_eq_ok_iff.mpr ⟨_, Outcome.mapError_eq_ok_iff.mpr read, ?_⟩
  rw [if_neg (Bool.eq_false_iff.mp named), ← name, ← state]
  rfl

theorem isSpelled_of_parse (read : parse text = .ok o) : o.IsSpelled isSeparator text := by
  unfold parse at read
  obtain ⟨⟨solver, name⟩, cut, read⟩ := Outcome.bind_eq_ok_iff.mp read
  obtain ⟨operand, readOperand, read⟩ := Outcome.bind_eq_ok_iff.mp read
  obtain ⟨call, trimmed⟩ := solverCall_of_splitSolverCall cut
  split at read
  · cases read
  · rename_i named
    cases read
    rw [Outcome.mapError_eq_ok_iff] at readOperand
    exact ⟨name, call, readOperand, Bool.eq_false_iff.mpr named, trimmed.symm, rfl⟩

end Objective

/-! ### Constraints -/

section Relation

variable {whole left symbol right : Text} {kind : ConstraintKind}

theorem ConstraintKind.isSymbol_and_plain (listed : (symbol, kind) ∈ ConstraintKind.symbols) :
    symbol.IsSymbol ∧ ',' ∉ symbol := by
  have all : ConstraintKind.symbols.all fun entry => entry.1 ≠ [] && entry.1.all fun c =>
      isFlat c && !isBlank c && c != ',' := by decide
  have entry := List.all_eq_true.mp all _ listed
  simp only [ne_eq, decide_not, Bool.and_eq_true, Bool.not_eq_true', decide_eq_false_iff_not,
    List.all_eq_true, bne_iff_ne] at entry
  obtain ⟨filled, chars⟩ := entry
  exact ⟨⟨filled, fun c member => (chars c member).1.1, fun c member => (chars c member).1.2⟩,
    fun member => (chars ',' member).2 rfl⟩

/-- A character that no relation starts with stands on the left. -/
theorem splitConstraint_append {gs : List Glyph} (plain : ∀ g ∈ gs, g.char ∉ ['<', '>', '='])
    (rest : List Glyph) :
    splitConstraint whole (gs ++ rest) =
      (splitConstraint whole rest).map fun (left, kind, right) => (Text.ofGlyphs gs ++ left, kind, right) := by
  induction gs with
  | nil =>
      rw [List.nil_append]
      cases splitConstraint whole rest <;> rfl
  | cons g gs ih =>
      obtain ⟨here, others⟩ := List.forall_mem_cons.mp plain
      simp only [List.mem_cons, List.not_mem_nil, or_false, not_or] at here
      rw [List.cons_append, splitConstraint, ih others]
      simp only [here, beq_iff_eq, Bool.and_eq_true, and_false, if_false]
      cases splitConstraint whole rest <;> rfl

/-- No further `=` follows in the text of an expression. -/
theorem find?_isFree_eq_false (plain : '=' ∉ right) :
    (right.glyphs.find? Glyph.isFree).any (·.char == '=') = false := by
  rw [Bool.eq_false_iff]
  intro follows
  obtain ⟨g, found, same⟩ := (Option.any_eq_true ..).mp follows
  rw [beq_iff_eq] at same
  exact plain (same ▸ char_mem_of_mem_glyphsFrom (List.mem_of_find?_eq_some found))

/-- The symbol between two texts without its characters is where a constraint is cut. -/
theorem splitConstraint_symbol (first : Arithmetic left) (listed : (symbol, kind) ∈ ConstraintKind.symbols)
    (second : Arithmetic right) :
    splitConstraint whole (Text.glyphs (left ++ (symbol ++ right))) = .ok (left, kind, right) := by
  have unrelated : ∀ g ∈ left.glyphs, g.char ∉ ['<', '>', '='] := by
    intro g member related
    have other : ∀ c ∈ ['<', '>', '='], isArithmeticChar c = false :=
      List.all_iff_forall_prop.mp (by decide)
    exact first.not_mem (other g.char related) (char_mem_of_mem_glyphsFrom member)
  have unfollowed := find?_isFree_eq_false (second.not_mem (by decide : isArithmeticChar '=' = false))
  have nothing : Text.IsEven [] := .of_isBlankText rfl
  have doubled : Text.glyphs ('=' :: right) = ⟨'=', false, 0⟩ :: right.glyphs :=
    nothing.glyphs_append_cons (by decide) second.isEven
  obtain ⟨c, tail, rfl, glyphs⟩ := first.isEven.glyphs_append_symbol
    (ConstraintKind.isSymbol_and_plain listed).1 second.isEven
  rw [glyphs, splitConstraint_append unrelated, Text.ofGlyphs_glyphs]
  simp only [ConstraintKind.symbols, List.mem_cons, Prod.mk.injEq, List.cons.injEq, List.not_mem_nil,
    or_false] at listed
  rcases listed with ⟨⟨rfl, rfl⟩, rfl⟩ | ⟨⟨rfl, rfl⟩, rfl⟩ | ⟨⟨rfl, rfl⟩, rfl⟩ | ⟨⟨rfl, rfl⟩, rfl⟩
  all_goals simp [splitConstraint, Glyph.isFree, doubled, unfollowed, Except.map]

/-- A `=` that is part of a symbol stands directly behind its first character, or it is still there on the
right. -/
theorem ofGlyphs_eq_cons_of_followed {rest : List Glyph}
    (followed : (rest.find? Glyph.isFree).any (·.char == '=') = true)
    (plain : '=' ∉ Text.ofGlyphs (rest.drop 1)) :
    Text.ofGlyphs rest = '=' :: Text.ofGlyphs (rest.drop 1) := by
  obtain ⟨g, found, same⟩ := (Option.any_eq_true ..).mp followed
  rw [beq_iff_eq] at same
  cases rest with
  | nil => cases found
  | cons h rest =>
      rw [List.drop_succ_cons, List.drop_zero] at plain ⊢
      by_cases free : h.isFree
      · rw [List.find?_cons_of_pos free] at found
        cases found
        rw [Text.ofGlyphs_cons, same]
      · rw [List.find?_cons_of_neg free] at found
        exact absurd (same ▸ List.mem_map_of_mem (List.mem_of_find?_eq_some found)) plain

theorem text_of_splitConstraint {gs : List Glyph} (cut : splitConstraint whole gs = .ok (left, kind, right))
    (plain : '=' ∉ right) :
    ∃ symbol, (symbol, kind) ∈ ConstraintKind.symbols ∧ Text.ofGlyphs gs = left ++ (symbol ++ right) := by
  induction gs generalizing left with
  | nil => cases cut
  | cons g rest ih =>
      rw [splitConstraint] at cut
      dsimp only at cut
      have doubled {c : Char} (starts : (g.isFree && g.char == c) = true)
          (followed : (rest.find? Glyph.isFree).any (·.char == '=') = true)
          (same : Text.ofGlyphs (rest.drop (2 - 1)) = right) :
          Text.ofGlyphs (g :: rest) = [c, '='] ++ right := by
        subst same
        rw [Text.ofGlyphs_cons, beq_iff_eq.mp (Bool.and_eq_true_iff.mp starts).2,
          ofGlyphs_eq_cons_of_followed followed plain]
        rfl
      split at cut
      · rename_i less
        split at cut
        · rename_i followed
          cases cut
          exact ⟨['<', '='], by decide, doubled less followed rfl⟩
        · cases cut
      split at cut
      · rename_i greater
        split at cut
        · rename_i followed
          cases cut
          exact ⟨['>', '='], by decide, doubled greater followed rfl⟩
        · cases cut
      split at cut
      · rename_i equal
        split at cut
        · rename_i followed
          cases cut
          exact ⟨['=', '='], by decide, doubled equal followed rfl⟩
        · cases cut
          refine ⟨['='], by decide, ?_⟩
          rw [Text.ofGlyphs_cons, beq_iff_eq.mp (Bool.and_eq_true_iff.mp equal).2]
          rfl
      · obtain ⟨⟨left, kind, right⟩, inner, made⟩ := Outcome.map_eq_ok_iff.mp cut
        cases made
        obtain ⟨symbol, listed, split⟩ := ih inner
        exact ⟨symbol, listed, congrArg (g.char :: ·) split⟩

end Relation

namespace Constraint

variable {text : Text} {c : Constraint}

theorem parse_of_isSpelled (spelled : c.IsSpelled isSeparator text) : parse text = .ok c := by
  obtain ⟨left, symbol, right, call, readLeft, named, listed, readRight, name, boundName, state⟩ := spelled
  obtain ⟨isSymbol, plain⟩ := ConstraintKind.isSymbol_and_plain listed
  have first := Text.IsArgument.of_operand readLeft
  have second := Text.IsArgument.of_expression readRight
  have cut := splitSolverCall_of_solverCall call (first.append_symbol isSymbol plain second)
  have filled : ¬Text.isBlankText (symbol ++ right) := by
    rw [Text.isBlankText_append, Bool.and_eq_true]
    exact fun blank => second.filled blank.2
  have ends : Text.trimEnd (symbol ++ right) = symbol ++ right.trimEnd :=
    Text.dropEndWhile_append isSymbol.filled isSymbol.unblank right
  rw [Text.trim_append first.filled filled, ends] at cut
  have arithmetic : Arithmetic left.trimStart := by
    rw [← Operand.parse_trim, ← Text.trim_trimStart, Operand.parse_trim] at readLeft
    exact Arithmetic.of_quiet (Operand.quiet_of_parse readLeft)
  have relation := @splitConstraint_symbol (left.trimStart ++ (symbol ++ right.trimEnd)) left.trimStart symbol
    right.trimEnd c.kind arithmetic listed
    (Expression.arithmetic_of_parse (Expression.parse_trimEnd readRight))
  have complete : ¬(left.trimStart.trim.isEmpty || right.trimEnd.trim.isEmpty) := by
    rw [Text.trim_trimStart, Text.trim_trimEnd, Bool.or_eq_true, List.isEmpty_iff, List.isEmpty_iff,
      Text.trim_eq_nil_iff, Text.trim_eq_nil_iff]
    exact not_or.mpr ⟨first.filled, second.filled⟩
  rw [← Operand.parse_trim] at readLeft
  rw [← Expression.parse_trim_iff] at readRight
  unfold parse
  refine Outcome.bind_eq_ok_iff.mpr ⟨_, cut, ?_⟩
  refine Outcome.bind_eq_ok_iff.mpr ⟨_, relation, ?_⟩
  dsimp only
  rw [if_neg complete, Text.trim_trimStart, Text.trim_trimEnd]
  refine Outcome.bind_eq_ok_iff.mpr ⟨_, Outcome.mapError_eq_ok_iff.mpr readLeft, ?_⟩
  rw [if_neg (Bool.eq_false_iff.mp named)]
  refine Outcome.bind_eq_ok_iff.mpr ⟨_, Outcome.mapError_eq_ok_iff.mpr readRight, ?_⟩
  rw [← name, ← boundName, ← state]
  rfl

theorem isSpelled_of_parse (read : parse text = .ok c) : c.IsSpelled isSeparator text := by
  unfold parse at read
  obtain ⟨⟨solver, argument⟩, cut, read⟩ := Outcome.bind_eq_ok_iff.mp read
  obtain ⟨⟨left, kind, right⟩, relation, read⟩ := Outcome.bind_eq_ok_iff.mp read
  dsimp only at relation read
  split at read
  · cases read
  obtain ⟨operand, readLeft, read⟩ := Outcome.bind_eq_ok_iff.mp read
  split at read
  · cases read
  rename_i named
  obtain ⟨bound, readRight, read⟩ := Outcome.bind_eq_ok_iff.mp read
  cases read
  rw [Outcome.mapError_eq_ok_iff, Operand.parse_trim] at readLeft
  rw [Outcome.mapError_eq_ok_iff, Expression.parse_trim_iff] at readRight
  have plain : '=' ∉ right := (Expression.arithmetic_of_parse readRight).not_mem (by decide)
  obtain ⟨symbol, listed, whole⟩ := text_of_splitConstraint relation plain
  rw [Text.ofGlyphs_glyphs] at whole
  obtain ⟨call, -⟩ := solverCall_of_splitSolverCall cut
  rw [whole] at call
  exact ⟨left, symbol, right, call, readLeft, Bool.eq_false_iff.mpr named, listed, readRight, rfl, rfl, rfl⟩

end Constraint

/-- The texts that are read as an objective or as a constraint are those that spell it, with runs of blanks
and commas wherever one word may stand apart from the next. -/
theorem result_parse_iff_isSpelled :
    (∀ text o, Objective.parse text = .ok o ↔ Objective.IsSpelled isSeparator o text) ∧
      ∀ text c, Constraint.parse text = .ok c ↔ Constraint.IsSpelled isSeparator c text :=
  ⟨fun _ _ => ⟨Objective.isSpelled_of_parse, Objective.parse_of_isSpelled⟩,
    fun _ _ => ⟨Constraint.isSpelled_of_parse, Constraint.parse_of_isSpelled⟩⟩

/-- A comma may stand between the solver and its argument, so blanks alone do not make the grammar. -/
theorem objective_parse_comma :
    (∃ o, Objective.parse "O,(x)".toList = .ok o) ∧ ¬∃ o, Objective.IsSpelled isBlank o "O,(x)".toList := by
  constructor
  · have call : SolverCall isSeparator ['O'] ['x'] "O,(x)".toList :=
      ⟨[], [','], [], [], [], by simp [isSeparator], by decide, rfl⟩
    have read : Operand.parse ['x'] = .ok (.var ['x']) := Operand.parse_of_isIdentifier (by decide)
    exact ⟨⟨['O'], ['x'], .var ['x'], .unregistered⟩,
      Objective.parse_of_isSpelled ⟨['x'], call, read, rfl, by decide, rfl⟩⟩
  · rintro ⟨o, argument, ⟨front, between, left, right, back, blank, identifier, whole⟩, -⟩
    simp only [List.forall_mem_cons, ← List.all_eq_true] at blank
    have plain {run : Text} (blank : run.isBlankText) : ',' ∉ run ∧ '(' ∉ run :=
      ⟨Text.not_mem_of_isBlankText (by decide) blank, Text.not_mem_of_isBlankText (by decide) blank⟩
    have letters := (isWordChar_of_isIdentifier identifier).2
    have name : ',' ∉ o.solver ∧ '(' ∉ o.solver := by
      constructor
      · exact fun member => absurd (letters _ member) (by decide)
      · exact fun member => absurd (letters _ member) (by decide)
    -- The comma stands in front of the first parenthesis, where there are only blanks and the solver.
    have absent : ',' ∉ front ++ o.solver ++ between ∧ '(' ∉ front ++ o.solver ++ between := by
      simp [plain blank.1, name, plain blank.2.1]
    have cut : Text.cutAt '(' "O,(x)".toList = some (['O', ','], ['x', ')']) := by decide
    rw [whole, ← List.append_assoc, ← List.append_assoc, Text.cutAt_eq_some_iff.mpr ⟨rfl, absent.2⟩] at cut
    rw [(Prod.mk.inj (Option.some.inj cut)).1] at absent
    exact absent.1 (by decide)

end MissionScript
