import MissionScript.Proofs.Bracket.Even
import MissionScript.Proofs.Expression.Grammar
import MissionScript.Proofs.Renaming.Expression
import MissionScript.Proofs.Script.Target

/-!
# Texts that are read as expressions

The tokens of a text hold all of its characters but the blanks, in order. Where the tokens are read to their
end, each of them is an operand, a call or a mark that the grammar has a place for. So a text that is read as
an expression has no other characters than those of its operands, its functions and its operators, and it
closes every parenthesis that it opens. The blanks at its ends do not matter.
-/

namespace MissionScript

/-! ### The texts of tokens -/

/-- The characters that a token is made of. -/
def Token.text : Token → Text
  | operand text => text
  | call f argument => f.name ++ '(' :: (argument ++ [')'])
  | operator op => [op.symbol]
  | minus => ['-']
  | openParen => ['(']
  | closeParen => [')']

/-- The characters of some tokens. -/
def Token.texts (tokens : List Token) : Text := tokens.flatMap Token.text

@[simp] theorem Token.texts_nil : Token.texts [] = [] := rfl

@[simp] theorem Token.texts_cons (token : Token) (tokens : List Token) :
    Token.texts (token :: tokens) = token.text ++ Token.texts tokens :=
  List.flatMap_cons ..

@[simp] theorem Token.texts_append (front after : List Token) :
    Token.texts (front ++ after) = Token.texts front ++ Token.texts after :=
  List.flatMap_append

theorem Token.text_of_ofChar? {c : Char} {token : Token} (made : ofChar? c = some token) :
    token.text = [c] := by
  unfold ofChar? at made
  split at made <;> cases made <;> rfl

theorem Token.text_of_between? {token : Token} {op : MathOperator} (between : token.between? = some op) :
    token.text = [op.symbol] := by
  cases token <;> cases between <;> rfl

theorem text_groupToken (name argument : Text) :
    (groupToken name argument).text = name ++ '(' :: (argument ++ [')']) := by
  unfold groupToken
  split
  · rename_i f known
    rw [Token.text, name_of_ofName? known]
  · simp [Token.text]

/-- Behind the characters of the first token stand those of the others. -/
theorem dense_of_map {token : Token} {result : Except ExpressionError (List Token)} {tokens : List Token}
    {text behind : Text} (cut : result.map (token :: ·) = .ok tokens)
    (following : ∀ found, result = .ok found → behind.dense = (Token.texts found).dense)
    (whole : text = token.text ++ behind) : text.dense = (Token.texts tokens).dense := by
  obtain ⟨found, same, rfl⟩ := Outcome.map_eq_ok_iff.mp cut
  rw [whole, Token.texts_cons, Text.dense_append, Text.dense_append, following found same]

/-- The characters of a name and those behind it. -/
theorem ofGlyphs_eq_name_append (rest : List Glyph) : Text.ofGlyphs rest =
    Text.ofGlyphs (rest.takeWhile fun g => isNameChar g.char) ++
      Text.ofGlyphs (rest.dropWhile fun g => isNameChar g.char) := by
  rw [← Text.ofGlyphs_append, List.takeWhile_append_dropWhile]

/-- Blanks aside, the tokens hold every character of the text, in order. -/
theorem dense_of_tokensFrom {whole : Text} {previous : Option Char} {glyphs : List Glyph}
    {tokens : List Token} (cut : tokensFrom whole previous glyphs = .ok tokens) :
    (Text.ofGlyphs glyphs).dense = (Token.texts tokens).dense := by
  fun_induction tokensFrom whole previous glyphs generalizing tokens with
  | case1 =>
      cases cut
      rfl
  | case2 => cases cut
  | case3 previous g rest c _ blank =>
      rename_i ih
      have separates : isSeparator c := by simp [isSeparator, blank]
      exact (Text.dense_cons_of_separates separates _).trans (ih cut)
  | case4 previous g rest c _ _ token made =>
      rename_i ih
      refine dense_of_map cut (fun _ found => ih found) ?_
      rw [Token.text_of_ofChar? made]
      rfl
  | case5 previous g rest c _ _ _ length text _ =>
      rename_i ih
      refine dense_of_map cut (fun _ found => ih found) ?_
      change _ = (c :: Text.ofGlyphs (rest.take length)) ++ Text.ofGlyphs (rest.drop length)
      rw [List.cons_append, ← Text.ofGlyphs_append, List.take_append_drop]
      rfl
  | case6 previous g rest c _ _ _ _ name nothing =>
      cases cut
      have ends := ofGlyphs_eq_name_append rest
      rw [nothing, show Text.ofGlyphs [] = [] from rfl, List.append_nil] at ends
      rw [Token.texts_cons, Token.texts_nil, List.append_nil]
      exact congrArg (fun text => Text.dense (c :: text)) ends
  | case7 => cases cut
  | case8 previous g rest c _ _ _ _ name next after within opens inside behind found =>
      rename_i ih
      refine dense_of_map cut (fun _ found => ih found) ?_
      obtain ⟨close, closes, joined⟩ := Bracket.append_of_splitClosing found
      have closing : close.char = ')' := Glyph.char_of_closes closes
      have opening : next.char = '(' := beq_iff_eq.mp opens
      rw [text_groupToken]
      refine (congrArg (c :: ·) (ofGlyphs_eq_name_append rest)).trans ?_
      simp [name, within, joined, Text.ofGlyphs, opening, closing]
  | case9 previous g rest c _ _ _ _ name next after within _ =>
      rename_i ih
      refine dense_of_map cut (fun _ found => ih found) ?_
      rw [← within]
      exact congrArg (c :: ·) (ofGlyphs_eq_name_append rest)
  | case10 => cases cut

theorem dense_of_tokenize {text : Text} {tokens : List Token} (cut : tokenize text = .ok tokens) :
    text.dense = (Token.texts tokens).dense := by
  simpa using dense_of_tokensFrom cut

/-! ### Arithmetic texts -/

/-- A character of an operand, a function, an operator or a parenthesis, or a blank. -/
def isArithmeticChar (c : Char) : Bool := isQuietChar c || "*/^".toList.contains c

/-- A text of such characters that closes the parentheses which it opens. -/
structure Arithmetic (text : Text) : Prop where
  chars : ∀ c ∈ text, isArithmeticChar c
  level : ∀ depth, text.foldl depthAfter depth = depth

theorem isFlat_of_isArithmeticChar {c : Char} (arithmetic : isArithmeticChar c) :
    isFlat c ∨ c = '(' ∨ c = ')' := by
  have marks : ∀ d ∈ "+-.,*/^".toList, isFlat d := List.all_iff_forall_prop.mp (by decide)
  have flat (plain : isWordChar c ∨ isBlank c) : isFlat c :=
    isFlat_of_plain (by rcases plain with word | blank <;> simp [*])
  simp only [isArithmeticChar, isQuietChar, Bool.or_eq_true, List.contains_iff_mem] at arithmetic
  rcases arithmetic with ((word | blank) | quiet) | mark
  · exact .inl (flat (.inl word))
  · exact .inl (flat (.inr blank))
  · rw [show "+-.(),".toList = ['+', '-', '.', '(', ')', ','] from rfl] at quiet
    simp only [List.mem_cons, List.not_mem_nil, or_false] at quiet
    rcases quiet with rfl | rfl | rfl | rfl | rfl | rfl <;> decide
  · exact .inl (marks c (List.mem_append_right "+-.,".toList mark))

namespace Arithmetic

variable {text left right : Text}

theorem isEven (arithmetic : Arithmetic text) : text.IsEven where
  chars c member := isFlat_of_isArithmeticChar (arithmetic.chars c member)
  level := arithmetic.level

theorem not_mem (arithmetic : Arithmetic text) {c : Char} (other : isArithmeticChar c = false) :
    c ∉ text := by
  intro member
  rw [arithmetic.chars c member] at other
  cases other

theorem append (first : Arithmetic left) (second : Arithmetic right) : Arithmetic (left ++ right) where
  chars := List.forall_mem_append.mpr ⟨first.chars, second.chars⟩
  level depth := by rw [List.foldl_append, first.level, second.level]

theorem nil : Arithmetic [] := ⟨List.forall_mem_nil _, fun _ => rfl⟩

theorem of_quiet (quiet : Quiet text) : Arithmetic text where
  chars c member := by simp [isArithmeticChar, quiet.chars c member]
  level := quiet.level

theorem of_symbol (op : MathOperator) : Arithmetic [op.symbol] where
  chars := List.forall_mem_singleton.mpr (by cases op <;> decide)
  level depth := by cases op <;> rfl

theorem parens (inside : Arithmetic text) : Arithmetic ('(' :: (text ++ [')'])) where
  chars := by
    have brackets : isArithmeticChar '(' ∧ isArithmeticChar ')' := by decide
    simpa [brackets, or_imp, forall_and] using inside.chars
  level := inside.isEven.parens.level

/-- Blanks and commas change nothing. -/
theorem dense_iff : Arithmetic text.dense ↔ Arithmetic text := by
  have plain {c : Char} (separates : isSeparator c) : isArithmeticChar c ∧ isFlat c := by
    simp only [isSeparator, Bool.or_eq_true, beq_iff_eq] at separates
    rcases separates with blank | rfl
    · exact ⟨by simp [isArithmeticChar, isQuietChar, blank], isFlat_of_plain (by simp [blank])⟩
    · decide
  have level (depth : Nat) : text.dense.foldl depthAfter depth = text.foldl depthAfter depth := by
    induction text generalizing depth with
    | nil => rfl
    | cons c text ih =>
        by_cases separates : isSeparator c
        · rw [Text.dense_cons_of_separates separates, List.foldl_cons,
            depthAfter_of_isFlat (plain separates).2, ih]
        · rw [Text.dense, List.filter_cons_of_pos (by simpa using separates)]
          exact ih _
  constructor
  · intro dense
    refine ⟨fun c member => ?_, fun depth => (level depth).symm.trans (dense.level depth)⟩
    by_cases separates : isSeparator c
    · exact (plain separates).1
    · exact dense.chars c (List.mem_filter.mpr ⟨member, by simpa using separates⟩)
  · intro arithmetic
    refine ⟨fun c member => ?_, fun depth => (level depth).trans (arithmetic.level depth)⟩
    exact arithmetic.chars c (List.mem_filter.mp member).1

theorem of_dense_eq (arithmetic : Arithmetic left) (same : right.dense = left.dense) :
    Arithmetic right := by
  rw [← dense_iff] at arithmetic ⊢
  rwa [same]

end Arithmetic

/-! ### What is read is arithmetic -/

mutual

theorem Expression.Reads.arithmetic {text : Text} {e : Expression} :
    Expression.Reads text e → Arithmetic text
  | .whole cut read => by
      obtain ⟨front, same, arithmetic⟩ := read.arithmetic
      rw [List.append_nil] at same
      subst same
      exact arithmetic.of_dense_eq (dense_of_tokenize cut)

theorem ReadsAt.arithmetic {least : Nat} {tokens after : List Token} {e : Expression} :
    ReadsAt least tokens e after → ∃ front, tokens = front ++ after ∧ Arithmetic (Token.texts front)
  | .operators first others => by
      obtain ⟨front, rfl, left⟩ := first.arithmetic
      obtain ⟨more, rfl, right⟩ := others.arithmetic
      exact ⟨front ++ more, (List.append_assoc ..).symm, by simpa using left.append right⟩

theorem ReadsOperand.arithmetic {tokens after : List Token} {e : Expression} :
    ReadsOperand tokens e after → ∃ front, tokens = front ++ after ∧ Arithmetic (Token.texts front)
  | @ReadsOperand.operand text _ _ read =>
      ⟨[.operand text], rfl, by simpa [Token.text] using Arithmetic.of_quiet (Operand.quiet_of_parse read)⟩
  | @ReadsOperand.call f argument _ _ read => by
      have name := Arithmetic.of_quiet (.of_identifier (isIdentifier_name f))
      exact ⟨[.call f argument], rfl, by simpa [Token.text] using name.append read.arithmetic.parens⟩
  | .minus read => by
      obtain ⟨front, rfl, arithmetic⟩ := read.arithmetic
      exact ⟨.minus :: front, rfl, (Arithmetic.of_symbol .subtract).append arithmetic⟩
  | .plus read => by
      obtain ⟨front, rfl, arithmetic⟩ := read.arithmetic
      exact ⟨.operator .add :: front, rfl, (Arithmetic.of_symbol .add).append arithmetic⟩
  | .group read => by
      obtain ⟨front, rfl, arithmetic⟩ := read.arithmetic
      exact ⟨.openParen :: (front ++ [.closeParen]), by simp, by simpa [Token.text] using arithmetic.parens⟩

theorem ReadsOperators.arithmetic {least : Nat} {left : Expression} {tokens after : List Token}
    {e : Expression} : ReadsOperators least left tokens e after →
      ∃ front, tokens = front ++ after ∧ Arithmetic (Token.texts front)
  | .stop _ => ⟨[], rfl, .nil⟩
  | @ReadsOperators.step _ _ _ _ token op _ _ _ between _ read others => by
      obtain ⟨front, rfl, right⟩ := read.arithmetic
      obtain ⟨more, rfl, further⟩ := others.arithmetic
      have sign : Arithmetic token.text := by
        rw [Token.text_of_between? between]
        exact .of_symbol op
      exact ⟨token :: (front ++ more), by simp, by simpa using sign.append (right.append further)⟩

end

/-- The text of an expression is arithmetic. -/
theorem Expression.arithmetic_of_parse {text : Text} {e : Expression} (read : Expression.parse text = .ok e) :
    Arithmetic text :=
  (Expression.reads_of_parse read).arithmetic

/-! ### Blanks at the ends -/

section Blanks

variable {whole whole' : Text} {previous previous' : Option Char} {gs front back : List Glyph}
  {tokens : List Token}

theorem exists_tokensFrom_blank_append (blank : ∀ g ∈ front, isBlank g.char) (whole : Text)
    (previous : Option Char) (gs : List Glyph) :
    ∃ previous', tokensFrom whole previous (front ++ gs) = tokensFrom whole previous' gs := by
  induction front generalizing previous with
  | nil => exact ⟨previous, rfl⟩
  | cons g front ih =>
      obtain ⟨first, others⟩ := List.forall_mem_cons.mp blank
      rw [List.cons_append, tokensFrom_blank first]
      exact ih others (some g.char)

theorem tokensFrom_of_isBlank (blank : ∀ g ∈ back, isBlank g.char) (whole : Text)
    (previous : Option Char) : tokensFrom whole previous back = .ok [] := by
  obtain ⟨previous', same⟩ := exists_tokensFrom_blank_append blank whole previous []
  rw [List.append_nil, tokensFrom] at same
  exact same

theorem numberLength_append_blank (blank : ∀ g ∈ back, isBlank g.char) (c : Char) (gs : List Glyph) :
    numberLength c (gs ++ back) = numberLength c gs := by
  induction gs generalizing c with
  | nil =>
      cases back with
      | nil => rfl
      | cons g back =>
          have first := blank g (List.mem_cons_self ..)
          have plain : g.char.isAlphanum = false ∧ g.char ≠ '_' ∧ g.char ≠ '.' := by
            simpa [isNameChar, isWordChar, and_assoc] using isNameChar_of_isBlank first
          have unsigned : g.char ≠ '+' ∧ g.char ≠ '-' :=
            ⟨ne_of_isBlank first (by decide), ne_of_isBlank first (by decide)⟩
          simp [numberLength, plain, unsigned]
  | cons g gs ih => simp only [List.cons_append, numberLength, ih]

theorem splitClosing_append_blank (blank : ∀ g ∈ back, isBlank g.char) (depth : Nat) (gs : List Glyph) :
    Bracket.paren.splitClosing depth (gs ++ back) =
      (Bracket.paren.splitClosing depth gs).map fun (inside, after) => (inside, after ++ back) := by
  induction gs generalizing depth with
  | nil =>
      have sound : wordFault [] (marksOf back) = none := by
        rw [marksOf_of_isBlank blank]
        rfl
      have passed := Bracket.splitClosing_append sound .paren depth []
      rwa [List.append_nil, List.count_nil] at passed
  | cons g gs ih =>
      rw [List.cons_append]
      by_cases opens : g.opens .paren
      · rw [Bracket.splitClosing_opening _ _ opens, Bracket.splitClosing_opening _ _ opens, ih,
          Option.map_map, Option.map_map]
        rfl
      by_cases closes : g.closes .paren
      · cases depth with
        | zero =>
            rw [Bracket.splitClosing_closing _ closes, Bracket.splitClosing_closing _ closes]
            rfl
        | succ depth =>
            rw [Bracket.splitClosing_inner _ _ closes, Bracket.splitClosing_inner _ _ closes, ih,
              Option.map_map, Option.map_map]
            rfl
      · rw [Bool.not_eq_true] at opens closes
        rw [Bracket.splitClosing_other _ _ opens closes, Bracket.splitClosing_other _ _ opens closes, ih,
          Option.map_map, Option.map_map]
        rfl

/-- A name takes its group with it, so blanks behind the text stay behind what follows the name. -/
theorem tokensFrom_name_append_blank_iff {g : Glyph} {fields after : List Glyph}
    (blank : ∀ g ∈ back, isBlank g.char) (name : startsName g.char) (named : ∀ h ∈ fields, isNameChar h.char)
    (ends : ∀ h ∈ after.head?, isNameChar h.char = false)
    (further : ∀ behind, behind <:+ after → ∀ (p p' : Option Char) (token : Token),
      (tokensFrom whole p (behind ++ back)).map (token :: ·) = .ok tokens ↔
        (tokensFrom whole' p' behind).map (token :: ·) = .ok tokens) :
    tokensFrom whole previous (g :: (fields ++ (after ++ back))) = .ok tokens ↔
      tokensFrom whole' previous' (g :: (fields ++ after)) = .ok tokens := by
  cases after with
  | nil =>
      rw [List.nil_append, List.append_nil, tokensFrom_end name named]
      cases back with
      | nil => rw [List.append_nil, tokensFrom_end name named]
      | cons next more =>
          have first := blank next (List.mem_cons_self ..)
          rw [tokensFrom_name name named (isNameChar_of_isBlank first) (ne_of_isBlank first (by decide)),
            tokensFrom_of_isBlank blank]
          rfl
  | cons next more =>
      rw [List.cons_append]
      by_cases opens : next.char = '('
      · have behind := splitClosing_append_blank blank 0 more
        cases closes : Bracket.paren.splitClosing 0 more with
        | none =>
            rw [closes] at behind
            rw [tokensFrom_unclosed name named opens closes, tokensFrom_unclosed name named opens behind]
            simp
        | some cut =>
            obtain ⟨inside, after⟩ := cut
            rw [closes] at behind
            obtain ⟨close, -, rfl⟩ := Bracket.append_of_splitClosing closes
            rw [tokensFrom_group name named opens closes, tokensFrom_group name named opens behind]
            refine further after ?_ _ _ _
            exact ((List.suffix_cons close after).trans (List.suffix_append ..)).trans (List.suffix_cons ..)
      · rw [tokensFrom_name name named (ends next rfl) opens,
          tokensFrom_name name named (ends next rfl) opens]
        exact further _ List.suffix_rfl _ _ _

/-- Which tokens are found depends neither on what stands in front of the glyphs nor on blanks behind them. -/
theorem tokensFrom_append_blank_iff (blank : ∀ g ∈ back, isBlank g.char) :
    tokensFrom whole previous (gs ++ back) = .ok tokens ↔ tokensFrom whole' previous' gs = .ok tokens := by
  induction length : gs.length using Nat.strongRecOn generalizing gs previous previous' tokens with
  | ind n ih =>
      subst length
      cases gs with
      | nil => rw [List.nil_append, tokensFrom_of_isBlank blank, tokensFrom]
      | cons g rest =>
          have shorter {behind : List Glyph} (suffix : behind <:+ rest) (p p' : Option Char)
              (found : List Token) : tokensFrom whole p (behind ++ back) = .ok found ↔
                tokensFrom whole' p' behind = .ok found :=
            ih behind.length (Nat.lt_succ_of_le suffix.length_le) rfl
          have further {behind : List Glyph} (suffix : behind <:+ rest) (p p' : Option Char) (token : Token) :
              (tokensFrom whole p (behind ++ back)).map (token :: ·) = .ok tokens ↔
                (tokensFrom whole' p' behind).map (token :: ·) = .ok tokens := by
            simp only [Outcome.map_eq_ok_iff, shorter suffix p p']
          rw [List.cons_append]
          by_cases filled : isBlank g.char
          · rw [tokensFrom_blank filled, tokensFrom_blank filled]
            exact shorter List.suffix_rfl _ _ _
          cases made : Token.ofChar? g.char with
          | some token =>
              rw [tokensFrom_char made, tokensFrom_char made]
              exact further List.suffix_rfl _ _ token
          | none =>
              by_cases number : startsNumber g.char
              · rw [tokensFrom_number number, tokensFrom_number number, numberLength_append_blank blank,
                  List.drop_append_of_le_length (numberLength_le _ _),
                  List.take_append_of_le_length (numberLength_le _ _)]
                exact further (List.drop_suffix _ _) _ _ _
              by_cases name : startsName g.char
              · obtain ⟨fields, after, rfl, named, ends⟩ := exists_name rest
                rw [List.append_assoc]
                refine tokensFrom_name_append_blank_iff blank name named ends fun behind suffix => ?_
                exact further (suffix.trans (List.suffix_append ..))
              · rw [Bool.not_eq_true] at filled number name
                obtain ⟨error, fails⟩ := tokensFrom_other filled made number name
                obtain ⟨error', fails'⟩ := tokensFrom_other filled made number name
                rw [fails, fails']
                simp

end Blanks

theorem tokenize_trim_iff {text : Text} {tokens : List Token} :
    tokenize text.trim = .ok tokens ↔ tokenize text = .ok tokens := by
  obtain ⟨front, back, blankFront, blankBack, split⟩ := exists_glyphs_trim text
  obtain ⟨previous, same⟩ :=
    exists_tokensFrom_blank_append blankFront text none (text.trim.glyphs ++ back)
  rw [tokenize, tokenize, split, List.append_assoc, same, tokensFrom_append_blank_iff blankBack]

/-- Blanks around an expression do not matter. -/
theorem Expression.parse_trim_iff {text : Text} {e : Expression} :
    Expression.parse text.trim = .ok e ↔ Expression.parse text = .ok e := by
  simp only [Expression.parse_eq_ok_iff, tokenize_trim_iff]

end MissionScript
