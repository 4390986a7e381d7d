import MissionScript.Proofs.Expression.Grammar
import MissionScript.Proofs.Expression.Tokens
import MissionScript.Proofs.Command.Value

/-!
# Renaming and expressions

A renamed text is cut into the same tokens, with the words of the operands renamed, and spells the
renamed expression. Two things can go wrong, and both have to do with the names of functions: the text
of a call is renamed where the expression keeps its function, and an array that gets the name of a
function reads as a call.
-/

namespace MissionScript

open Lettered

namespace Expression

/-- The functions that an expression calls. -/
def functions : Expression → List MathFunction
  | operand _ => []
  | negate e => e.functions
  | call f e => f :: e.functions
  | binary _ left right => left.functions ++ right.functions

/-- The renaming touches no name of a function: the old name is not one that the expression calls,
and the new one is no function at all. -/
structure Renamable (ρ : Renaming) (e : Expression) : Prop where
  uncalled : ∀ f ∈ e.functions, f.name ≠ ρ.old
  unlike : MathFunction.ofName? ρ.new = none

end Expression

namespace Token

/-- Operands and operators alternate in the tokens, every operand can be read, and the functions that
are called do not have the old name. `expected` says that an operand comes next. -/
def Fits (ρ : Renaming) : (expected : Bool) → List Token → Prop
  | true, operand text :: rest => (∃ o, Operand.parse text = .ok o) ∧ Fits ρ false rest
  | true, call f _ :: rest => f.name ≠ ρ.old ∧ Fits ρ false rest
  | true, minus :: rest => Fits ρ true rest
  | true, operator _ :: rest => Fits ρ true rest
  | true, openParen :: rest => Fits ρ true rest
  | false, minus :: rest => Fits ρ true rest
  | false, operator _ :: rest => Fits ρ true rest
  | false, closeParen :: rest => Fits ρ false rest
  | false, [] => True
  | _, _ => False

end Token

section Fits

variable {ρ : Renaming}

open Token

theorem fits_of_between {token : Token} {op : MathOperator} {rest : List Token}
    (between : token.between? = some op) (fits : Fits ρ true rest) : Fits ρ false (token :: rest) := by
  cases token with
  | minus => exact fits
  | operator => exact fits
  | operand => cases between
  | call => cases between
  | openParen => cases between
  | closeParen => cases between

/-- The expression is made of what stands in front of the operators. -/
theorem ReadsOperators.extends {least : Nat} {after : List Token} {e : Expression} :
    ∀ {left : Expression} {tokens : List Token}, ReadsOperators least left tokens e after →
      left.functions ⊆ e.functions ∧ left.operands ⊆ e.operands
  | _, _, .stop _ => ⟨List.Subset.refl _, List.Subset.refl _⟩
  | _, _, .step _ _ _ others => by
      obtain ⟨functions, operands⟩ := others.extends
      exact ⟨List.Subset.trans (List.subset_append_left ..) functions,
        List.Subset.trans (List.subset_append_left ..) operands⟩

mutual

theorem ReadsAt.fits {least : Nat} {tokens after : List Token} {e : Expression} :
    ReadsAt least tokens e after → (∀ f ∈ e.functions, f.name ≠ ρ.old) → Fits ρ false after →
      Fits ρ true tokens
  | .operators first others, uncalled, ends =>
      first.fits (fun f member => uncalled f (others.extends.1 member)) (others.fits uncalled ends)

theorem ReadsOperand.fits {tokens after : List Token} {e : Expression} :
    ReadsOperand tokens e after → (∀ f ∈ e.functions, f.name ≠ ρ.old) → Fits ρ false after →
      Fits ρ true tokens
  | .operand read, _, ends => ⟨⟨_, read⟩, ends⟩
  | .call _, uncalled, ends => ⟨uncalled _ (List.mem_cons_self ..), ends⟩
  | .minus read, uncalled, ends => read.fits uncalled ends
  | .plus read, uncalled, ends => read.fits uncalled ends
  | .group read, uncalled, ends => read.fits uncalled ends

theorem ReadsOperators.fits {least : Nat} {left : Expression} {tokens after : List Token}
    {e : Expression} : ReadsOperators least left tokens e after →
      (∀ f ∈ e.functions, f.name ≠ ρ.old) → Fits ρ false after → Fits ρ false tokens
  | .stop _, _, ends => ends
  | .step between _ read others, uncalled, ends => by
      have inner := fun f member => uncalled f (others.extends.1 (List.mem_append_right _ member))
      exact fits_of_between between (read.fits inner (others.fits uncalled ends))

end

end Fits

/-- A token of the renamed text. -/
inductive RenamedToken (ρ : Renaming) : Token → Token → Prop
  | operand {text text' : Text} (related : Renamed ρ false text text') :
      RenamedToken ρ (.operand text) (.operand text')
  | call {f : MathFunction} {argument argument' : Text}
      (related : Renamed ρ false argument argument') :
      RenamedToken ρ (.call f argument) (.call f argument')
  | operator {op : MathOperator} : RenamedToken ρ (.operator op) (.operator op)
  | minus : RenamedToken ρ .minus .minus
  | openParen : RenamedToken ρ .openParen .openParen
  | closeParen : RenamedToken ρ .closeParen .closeParen

namespace RenamedToken

variable {ρ : Renaming}

theorem between?_eq {token token' : Token} (related : RenamedToken ρ token token') :
    token'.between? = token.between? := by
  cases related <;> rfl

theorem eq_of_between {token token' : Token} {op : MathOperator}
    (related : RenamedToken ρ token token') (between : token.between? = some op) :
    token' = token := by
  cases related with
  | operand => cases between
  | call => cases between
  | operator => rfl
  | minus => rfl
  | openParen => rfl
  | closeParen => rfl

theorem head?_between? {tokens tokens' : List Token}
    (related : List.Forall₂ (RenamedToken ρ) tokens tokens') :
    tokens'.head?.bind Token.between? = tokens.head?.bind Token.between? := by
  cases related with
  | nil => rfl
  | cons head tail => exact head.between?_eq

end RenamedToken

section Tokens

variable {ρ : Renaming} {whole : Text} {previous : Option Char} {gs gt : List Glyph}
  {tokens : List Token}

theorem not_fits_groupToken {name argument : Text} {rest : List Token} :
    ¬ Token.Fits ρ false (groupToken name argument :: rest) := by
  unfold groupToken
  intro fits
  split at fits
  · exact fits
  · exact fits

/-- A name with what follows it. -/
theorem exists_name (rest : List Glyph) :
    ∃ fields after, rest = fields ++ after ∧ (∀ h ∈ fields, isNameChar h.char) ∧
      ∀ h ∈ after.head?, isNameChar h.char = false := by
  refine ⟨rest.takeWhile fun h => isNameChar h.char, rest.dropWhile fun h => isNameChar h.char,
    List.takeWhile_append_dropWhile.symm, List.all_eq_true.mp List.all_takeWhile, ?_⟩
  intro h first
  have stops := List.head?_dropWhile_not (fun h : Glyph => isNameChar h.char) rest
  rw [Option.mem_def.mp first] at stops
  exact stops

/-- After an operand there is no word. -/
theorem startsWord_of_fits (cut : tokensFrom whole previous gs = .ok tokens)
    (fits : Token.Fits ρ false tokens) : startsWord gs = false := by
  cases gs with
  | nil => rfl
  | cons g rest =>
      rw [startsWord_cons, Bool.eq_false_iff]
      intro word
      rcases startsNumber_or_startsName (c := g.char) word with number | name
      · rw [tokensFrom_number number] at cut
        obtain ⟨_, _, rfl⟩ := Outcome.map_eq_ok_iff.mp cut
        exact fits
      · obtain ⟨fields, after, rfl, named, ends⟩ := exists_name rest
        cases after with
        | nil =>
            rw [List.append_nil, tokensFrom_end name named] at cut
            cases cut
            exact fits
        | cons next more =>
            by_cases opens : next.char = '('
            · cases closes : Bracket.paren.splitClosing 0 more with
              | none =>
                  rw [tokensFrom_unclosed name named opens closes] at cut
                  cases cut
              | some x =>
                  rw [tokensFrom_group name named opens closes] at cut
                  obtain ⟨_, _, rfl⟩ := Outcome.map_eq_ok_iff.mp cut
                  exact not_fits_groupToken fits
            · rw [tokensFrom_name name named (ends next rfl) opens] at cut
              obtain ⟨_, _, rfl⟩ := Outcome.map_eq_ok_iff.mp cut
              exact fits

theorem numberLength_append {c : Char} {taken rest rest' : List Glyph}
    (length : numberLength c (taken ++ rest) = taken.length) (same : rest'.head? = rest.head?) :
    numberLength c (taken ++ rest') = taken.length := by
  induction taken generalizing c with
  | nil =>
      cases rest with
      | nil =>
          cases rest' with
          | nil => rfl
          | cons g rest' => cases same
      | cons g rest =>
          cases rest' with
          | nil => cases same
          | cons h rest' =>
              cases same
              simp only [List.nil_append, List.length_nil, numberLength] at length ⊢
              split at length
              · cases length
              · rename_i stops
                rw [if_neg stops]
  | cons g taken ih =>
      simp only [List.cons_append, List.length_cons, numberLength] at length ⊢
      split at length
      · rename_i accepted
        rw [if_pos accepted, ih (Nat.succ.inj length)]
      · cases length

theorem not_blank_of_numberLength {c : Char} {taken rest : List Glyph}
    (length : numberLength c (taken ++ rest) = taken.length) :
    ∀ g ∈ taken, isBlank g.char = false := by
  induction taken generalizing c with
  | nil => simp
  | cons g taken ih =>
      simp only [List.cons_append, List.length_cons, numberLength] at length
      split at length
      · rename_i accepted
        intro h member
        rcases List.mem_cons.mp member with rfl | member
        · simp only [Bool.or_eq_true, Bool.and_eq_true, beq_iff_eq] at accepted
          rcases accepted with (alnum | dot) | ⟨plus | minus, -⟩
          · exact isBlank_of_isWordChar (by simp [isWordChar, alnum])
          · rw [dot]
            decide
          · rw [plus]
            decide
          · rw [minus]
            decide
        · exact ih (Nat.succ.inj length) h member
      · cases length

theorem Text.trim_of_not_blank {text : Text} (none : ∀ c ∈ text, isBlank c = false) :
    text.trim = text := by
  have dropped (text : Text) (none : ∀ c ∈ text, isBlank c = false) :
      text.dropWhile isBlank = text := by
    cases text with
    | nil => rfl
    | cons c text => simp [none c (List.mem_cons_self ..)]
  rw [trim, trimStart, dropped text none, trimEnd, dropEndWhile, dropped, List.reverse_reverse]
  intro c member
  exact none c (List.mem_reverse.mp member)

theorem exists_numberLength (c : Char) (rest : List Glyph) :
    ∃ taken behind, rest = taken ++ behind ∧ numberLength c rest = taken.length :=
  ⟨rest.take (numberLength c rest), rest.drop (numberLength c rest),
    (List.take_append_drop ..).symm, (List.length_take_of_le (numberLength_le _ _)).symm⟩

/-- A number stays where it is. -/
theorem Renamed.exists_number {g : Glyph} {taken behind : List Glyph} {o : Operand}
    (related : Renamed ρ false (g :: (taken ++ behind)) gt) (starts : startsNumber g.char)
    (length : numberLength g.char (taken ++ behind) = taken.length)
    (read : Operand.parse (g.char :: Text.ofGlyphs taken) = .ok o)
    (ends : startsWord behind = false) :
    ∃ behind', gt = g :: (taken ++ behind') ∧
      numberLength g.char (taken ++ behind') = taken.length ∧
      Renamed ρ false (g :: taken) (g :: taken) ∧ Renamed ρ false behind behind' := by
  have none : ∀ c ∈ g.char :: Text.ofGlyphs taken, isBlank c = false := by
    intro c member
    rcases List.mem_cons.mp member with rfl | member
    · exact isBlank_of_isNameChar (isNameChar_of_startsNumber starts)
    · obtain ⟨h, among, rfl⟩ := List.mem_map.mp member
      exact not_blank_of_numberLength length h among
  have reads := Operand.reads_of_parse read
  rw [Text.trim_of_not_blank none] at reads
  obtain ⟨value, number⟩ := reads.read?_of_startsNumber rfl starts
  have numbers := OnlyNumbers.of_read? rfl starts number
  rw [← List.cons_append] at related
  obtain ⟨front, behind', rfl, left, right, same⟩ := related.split ends
  have kept : front = g :: taken := left.eq_of_onlyNumbers (fun _ => rfl) numbers
  subst kept
  exact ⟨behind', rfl, numberLength_append length same, left, right⟩

theorem name_of_ofName? {name : Text} {f : MathFunction}
    (found : MathFunction.ofName? name = some f) : f.name = name := by
  simpa using List.find?_some found

theorem isIdentifier_name (f : MathFunction) : f.name.isIdentifier := by
  cases f <;> decide

/-- A name that becomes the name of a function was one. -/
theorem ofName?_renamed {name name' : Text} (unlike : MathFunction.ofName? ρ.new = none)
    (related : Renamed ρ false name name') (absent : MathFunction.ofName? name = none) :
    MathFunction.ofName? name' = none := by
  cases found : MathFunction.ofName? name' with
  | none => rfl
  | some f =>
      have same := name_of_ofName? found
      have ⟨filled, letters⟩ := isWordChar_of_isIdentifier (isIdentifier_name f)
      rw [same] at filled letters
      have word : ∀ c ∈ name, isWordChar c := fun c member =>
        (related.mem_of_mem member).elim id (letters c)
      have renamed := related.eq_word (fun empty => filled (related.eq_nil_iff.mpr empty)) word
      rw [ρ.word_eq] at renamed
      split at renamed
      · rw [renamed, unlike] at found
        cases found
      · rw [renamed, absent] at found
        cases found

theorem groupToken_renamed {name name' argument argument' : Text} {tokens : List Token}
    (unlike : MathFunction.ofName? ρ.new = none)
    (fits : Token.Fits ρ true (groupToken name argument :: tokens))
    (named : Renamed ρ false name name') (inside : Renamed ρ false argument argument') :
    RenamedToken ρ (groupToken name argument) (groupToken name' argument') := by
  unfold groupToken at fits ⊢
  cases found : MathFunction.ofName? name with
  | none =>
      rw [ofName?_renamed unlike named found]
      refine .operand ?_
      rw [List.append_assoc, List.append_assoc]
      exact named.join rfl (inside.join rfl .nil)
  | some f =>
      rw [found] at fits
      have same := name_of_ofName? found
      have kept : name' = name := by
        rw [named.eq_word_of_isIdentifier (same ▸ isIdentifier_name f)]
        exact Renaming.word_of_ne (same ▸ fits.1)
      rw [kept, found]
      exact .call inside

theorem text_of_groupToken {name name' argument argument' : Text}
    (same : groupToken name' argument' = groupToken name argument) :
    name' ++ '(' :: argument' = name ++ '(' :: argument := by
  unfold groupToken at same
  split at same
  · rename_i f found
    split at same
    · rename_i other found'
      cases same
      rw [← name_of_ofName? found, ← name_of_ofName? found']
    · cases same
  · split at same
    · cases same
    · rw [Token.operand.injEq] at same
      exact List.append_cancel_right same

theorem RenamedToken.of_ofChar? {c : Char} {token : Token} (made : Token.ofChar? c = some token) :
    RenamedToken ρ token token := by
  unfold Token.ofChar? at made
  split at made
  case h_2 => cases made; exact .minus
  case h_6 => cases made; exact .openParen
  case h_7 => cases made; exact .closeParen
  case h_8 => cases made
  all_goals
    cases made
    exact .operator

theorem fits_tail {expected : Bool} {token : Token} (fits : Token.Fits ρ expected (token :: tokens)) :
    ∃ expected, Token.Fits ρ expected tokens := by
  cases expected <;> cases token <;> simp only [Token.Fits] at fits
  all_goals first | exact ⟨_, fits⟩ | exact ⟨_, fits.2⟩

/-- A name stays a name. -/
theorem exists_name_renamed {g : Glyph} {fields renamed : List Glyph}
    (related : Renamed ρ false (g :: fields) renamed) (starts : startsName g.char)
    (named : ∀ h ∈ fields, isNameChar h.char) :
    ∃ g' fields', renamed = g' :: fields' ∧ startsName g'.char ∧
      ∀ h ∈ fields', isNameChar h.char := by
  obtain ⟨g', fields', rfl⟩ := List.exists_cons_of_ne_nil fun empty =>
    List.cons_ne_nil g fields (related.eq_nil_iff.mp empty)
  have all : ∀ h ∈ g' :: fields', isNameChar h.char := by
    apply related.all (p := fun h => isNameChar h.char)
    · intro h word
      simp [isNameChar, show isWordChar h.char = true from word]
    · intro h member
      rcases List.mem_cons.mp member with rfl | member
      · exact isNameChar_of_startsName starts
      · exact named h member
  refine ⟨g', fields', rfl, ?_, fun h member => all h (List.mem_cons_of_mem _ member)⟩
  rcases related.ofGlyphs.head?_eq (c := g.char) rfl with same | ⟨-, new⟩
  · rw [show g'.char = g.char from Option.some.inj same]
    exact starts
  · have identifier := ρ.new_isIdentifier
    obtain ⟨d, name, same⟩ := List.exists_cons_of_ne_nil (isWordChar_of_isIdentifier identifier).1
    rw [same] at new identifier
    rw [show g'.char = d from Option.some.inj new]
    exact startsName_of_isIdentifier identifier

/-- The second glyphs are cut into the renamed tokens of the first ones, and they are the same text
if they have the same tokens. -/
def CutAlike (ρ : Renaming) (whole : Text) (previous : Option Char) (gs gt : List Glyph)
    (tokens : List Token) : Prop :=
  ∃ tokens', tokensFrom whole previous gt = .ok tokens' ∧
    List.Forall₂ (RenamedToken ρ) tokens tokens' ∧
    (tokens' = tokens → Text.ofGlyphs gt = Text.ofGlyphs gs)

/-- One more token in front. -/
theorem CutAlike.cons {token token' : Token} {next : Option Char} {behind behind' : List Glyph}
    {front front' : Text} (following : CutAlike ρ whole next behind behind' tokens)
    (cut : tokensFrom whole previous gt = (tokensFrom whole next behind').map (token' :: ·))
    (related : RenamedToken ρ token token') (split : Text.ofGlyphs gs = front ++ Text.ofGlyphs behind)
    (split' : Text.ofGlyphs gt = front' ++ Text.ofGlyphs behind')
    (same : token' = token → front' = front) :
    CutAlike ρ whole previous gs gt (token :: tokens) := by
  obtain ⟨tokens', cut', both, kept⟩ := following
  refine ⟨token' :: tokens', ?_, .cons related both, fun equal => ?_⟩
  · rw [cut, cut']
    rfl
  · have ⟨head, tail⟩ := List.cons.inj equal
    rw [split, split', same head, kept tail]

/-- Everything that is shorter than `bound` is cut alike. -/
def ShorterCutAlike (ρ : Renaming) (whole whole' : Text) (bound : Nat) : Prop :=
  ∀ {gs gt : List Glyph} {tokens : List Token} {previous previous' : Option Char} {expected : Bool},
    gs.length < bound → tokensFrom whole previous gs = .ok tokens →
      Token.Fits ρ expected tokens → Renamed ρ false gs gt →
        CutAlike ρ whole' previous' gs gt tokens

variable {whole' : Text} {previous' : Option Char} {g : Glyph} {rest : List Glyph} {expected : Bool}

theorem cutAlike_of_number (ih : ShorterCutAlike ρ whole whole' (g :: rest).length)
    (number : startsNumber g.char) (cut : tokensFrom whole previous (g :: rest) = .ok tokens)
    (fits : Token.Fits ρ expected tokens) (related : Renamed ρ false (g :: rest) gt) :
    CutAlike ρ whole' previous' (g :: rest) gt tokens := by
  obtain ⟨taken, behind, rfl, size⟩ := exists_numberLength g.char rest
  rw [tokensFrom_number number, size, List.take_left, List.drop_left] at cut
  obtain ⟨others, further, rfl⟩ := Outcome.map_eq_ok_iff.mp cut
  cases expected with
  | false => exact fits.elim
  | true =>
      obtain ⟨⟨o, read⟩, ends⟩ := fits
      obtain ⟨behind', rfl, size', kept, following⟩ :=
        related.exists_number number size read (startsWord_of_fits further ends)
      have shorter : behind.length < (g :: (taken ++ behind)).length := by
        simp only [List.length_cons, List.length_append]
        omega
      have cut' : tokensFrom whole' previous' (g :: (taken ++ behind')) = _ :=
        tokensFrom_number number
      rw [size', List.take_left, List.drop_left] at cut'
      rw [← List.cons_append, ← List.cons_append]
      exact (ih shorter further ends following).cons cut' (.operand kept.ofGlyphs)
        (Text.ofGlyphs_append ..) (Text.ofGlyphs_append ..) fun _ => rfl

/-- A name with its group. -/
theorem cutAlike_of_group {fields fields' more more' : List Glyph} {g' next : Glyph}
    (ih : ShorterCutAlike ρ whole whole' (g :: (fields ++ next :: more)).length)
    (unlike : MathFunction.ofName? ρ.new = none) (name : startsName g.char)
    (named : ∀ h ∈ fields, isNameChar h.char) (opens : next.char = '(')
    (cut : tokensFrom whole previous (g :: (fields ++ next :: more)) = .ok tokens)
    (fits : Token.Fits ρ expected tokens) (left : Renamed ρ false (g :: fields) (g' :: fields'))
    (name' : startsName g'.char) (named' : ∀ h ∈ fields', isNameChar h.char)
    (right : Renamed ρ false more more') :
    CutAlike ρ whole' previous' (g :: (fields ++ next :: more)) (g' :: (fields' ++ next :: more'))
      tokens := by
  cases closes : Bracket.paren.splitClosing 0 more with
  | none =>
      rw [tokensFrom_unclosed name named opens closes] at cut
      cases cut
  | some x =>
      rw [tokensFrom_group name named opens closes] at cut
      obtain ⟨others, further, rfl⟩ := Outcome.map_eq_ok_iff.mp cut
      obtain ⟨_, tail⟩ := fits_tail fits
      obtain ⟨y, closes', ⟨inside, following⟩, h, -, -, split, split'⟩ :=
        exists_of_rel (right.splitClosing (b := .paren) 0) closes
      have shorter : x.2.length < (g :: (fields ++ next :: more)).length := by
        simp only [split, List.length_cons, List.length_append]
        omega
      have token : RenamedToken ρ
          (groupToken (g.char :: Text.ofGlyphs fields) (Text.ofGlyphs x.1))
          (groupToken (g'.char :: Text.ofGlyphs fields') (Text.ofGlyphs y.1)) := by
        cases expected with
        | false => exact absurd fits not_fits_groupToken
        | true => exact groupToken_renamed unlike fits left.ofGlyphs inside.ofGlyphs
      have text (name inside behind : List Glyph) :
          Text.ofGlyphs (name ++ next :: (inside ++ h :: behind)) =
            (Text.ofGlyphs name ++ '(' :: Text.ofGlyphs inside ++ [h.char]) ++
              Text.ofGlyphs behind := by
        simp [Text.ofGlyphs, opens]
      apply (ih shorter further tail following).cons
        (tokensFrom_group name' named' opens closes') token
      · rw [split, ← List.cons_append, text]
      · rw [split', ← List.cons_append, text]
      · intro same
        exact congrArg (· ++ [h.char]) (text_of_groupToken same)

theorem cutAlike_of_name (ih : ShorterCutAlike ρ whole whole' (g :: rest).length)
    (unlike : MathFunction.ofName? ρ.new = none) (name : startsName g.char)
    (cut : tokensFrom whole previous (g :: rest) = .ok tokens)
    (fits : Token.Fits ρ expected tokens) (related : Renamed ρ false (g :: rest) gt) :
    CutAlike ρ whole' previous' (g :: rest) gt tokens := by
  obtain ⟨fields, after, rfl, named, ends⟩ := exists_name rest
  rw [← List.cons_append] at related
  cases after with
  | nil =>
      rw [List.append_nil] at related cut
      obtain ⟨g', fields', rfl, name', named'⟩ := exists_name_renamed related name named
      rw [tokensFrom_end name named] at cut
      cases cut
      refine ⟨_, tokensFrom_end name' named', .cons (.operand related.ofGlyphs) .nil, ?_⟩
      intro equal
      rw [List.append_nil]
      exact Token.operand.inj (List.cons.inj equal).1
  | cons next more =>
      have outside := ends next rfl
      have ⟨between, notDot⟩ : isWordChar next.char = false ∧ (next.char == '.') = false :=
        Bool.or_eq_false_iff.mp outside
      obtain ⟨front, more', rfl, left, right⟩ := related.cut rfl between
      rw [show (letter next == '.') = false from notDot] at right
      obtain ⟨g', fields', rfl, name', named'⟩ := exists_name_renamed left name named
      rw [← List.cons_append]
      by_cases opens : next.char = '('
      · exact cutAlike_of_group ih unlike name named opens cut fits left name' named' right
      · rw [tokensFrom_name name named outside opens] at cut
        obtain ⟨others, further, rfl⟩ := Outcome.map_eq_ok_iff.mp cut
        obtain ⟨_, tail⟩ := fits_tail fits
        have shorter : (next :: more).length < (g :: (fields ++ next :: more)).length := by
          simp only [List.length_cons, List.length_append]
          omega
        have following : Renamed ρ false (next :: more) (next :: more') :=
          .mark between (by rwa [show (letter next == '.') = false from notDot])
        exact (ih shorter further tail following).cons
          (tokensFrom_name name' named' outside opens) (.operand left.ofGlyphs)
          (Text.ofGlyphs_append ..) (Text.ofGlyphs_append ..) Token.operand.inj

theorem cutAlike_of_mark (ih : ShorterCutAlike ρ whole whole' (g :: rest).length)
    (number : startsNumber g.char = false) (name : startsName g.char = false)
    (cut : tokensFrom whole previous (g :: rest) = .ok tokens)
    (fits : Token.Fits ρ expected tokens) (related : Renamed ρ false (g :: rest) gt) :
    CutAlike ρ whole' previous' (g :: rest) gt tokens := by
  have between : inWord g = false := by
    rw [Bool.eq_false_iff]
    intro word
    rcases startsNumber_or_startsName (c := g.char) word with starts | starts
    · rw [number] at starts
      cases starts
    · rw [name] at starts
      cases starts
  have notDot : (letter g == '.') = false := (Bool.or_eq_false_iff.mp number).2
  obtain ⟨rest', rfl, following⟩ := related.exists_cons between
  rw [notDot] at following
  have shorter : rest.length < (g :: rest).length := Nat.lt_succ_self _
  by_cases blank : isBlank g.char
  · rw [tokensFrom_blank blank] at cut
    obtain ⟨tokens', cut', both, same⟩ := ih shorter cut fits following
    refine ⟨tokens', ?_, both, fun equal => ?_⟩
    · rw [tokensFrom_blank blank, cut']
    · exact congrArg (g.char :: ·) (same equal)
  · rw [Bool.not_eq_true] at blank
    cases made : Token.ofChar? g.char with
    | none =>
        obtain ⟨error, failed⟩ : ∃ error, tokensFrom whole previous (g :: rest) = .error error :=
          tokensFrom_other blank made number name
        rw [failed] at cut
        cases cut
    | some token =>
        rw [tokensFrom_char made] at cut
        obtain ⟨others, further, rfl⟩ := Outcome.map_eq_ok_iff.mp cut
        obtain ⟨_, tail⟩ := fits_tail fits
        have split (behind : List Glyph) :
            Text.ofGlyphs (g :: behind) = [g.char] ++ Text.ofGlyphs behind := rfl
        exact (ih shorter further tail following).cons (tokensFrom_char made)
          (.of_ofChar? made) (split rest) (split rest') fun _ => rfl

theorem shorterCutAlike (unlike : MathFunction.ofName? ρ.new = none) (whole whole' : Text)
    (bound : Nat) : ShorterCutAlike ρ whole whole' bound := by
  induction bound with
  | zero => exact fun shorter => absurd shorter (Nat.not_lt_zero _)
  | succ bound ih =>
      intro gs gt tokens previous previous' expected shorter cut fits related
      cases gs with
      | nil =>
          rw [related.eq_nil_iff.mpr rfl]
          rw [tokensFrom] at cut
          cases cut
          exact ⟨[], by rw [tokensFrom], .nil, fun _ => rfl⟩
      | cons g rest =>
          have ih : ShorterCutAlike ρ whole whole' (g :: rest).length := fun inner =>
            ih (Nat.lt_of_lt_of_le inner (Nat.le_of_lt_succ shorter))
          by_cases number : startsNumber g.char
          · exact cutAlike_of_number ih number cut fits related
          · by_cases name : startsName g.char
            · exact cutAlike_of_name ih unlike name cut fits related
            · rw [Bool.not_eq_true] at number name
              exact cutAlike_of_mark ih number name cut fits related

end Tokens

/-- The renamed text is cut into the renamed tokens, and it is the same text if they are the same
tokens. -/
theorem tokenize_renamed {ρ : Renaming} {text text' : Text} {tokens : List Token}
    (unlike : MathFunction.ofName? ρ.new = none) (cut : tokenize text = .ok tokens)
    (fits : Token.Fits ρ true tokens) (related : Renamed ρ false text text') :
    ∃ tokens', tokenize text' = .ok tokens' ∧ List.Forall₂ (RenamedToken ρ) tokens tokens' ∧
      (tokens' = tokens → text' = text) := by
  obtain ⟨tokens', cut', both, same⟩ :=
    shorterCutAlike unlike text text' _ (Nat.lt_succ_self _) cut fits related.glyphs
  rw [Text.ofGlyphs_glyphs, Text.ofGlyphs_glyphs] at same
  exact ⟨tokens', cut', both, same⟩

section Readings

variable {ρ : Renaming}

theorem Expression.Renamable.of_subset {e e' : Expression} (renamable : e.Renamable ρ)
    (functions : e'.functions ⊆ e.functions) : e'.Renamable ρ :=
  ⟨fun f member => renamable.uncalled f (functions member), renamable.unlike⟩

theorem Expression.not_mem_names_of_subset {e e' : Expression} {name : Text}
    (operands : e'.operands ⊆ e.operands) (absent : name ∉ e.names) : name ∉ e'.names := by
  rw [Expression.mem_names] at absent ⊢
  rintro ⟨o, member, inside⟩
  exact absent ⟨o, operands member, inside⟩

mutual

theorem Expression.Reads.renamed {text text' : Text} {e : Expression} :
    Expression.Reads text e → e.Renamable ρ → Renamed ρ false text text' →
      Expression.Reads text' (e.rename ρ.old ρ.new) ∧ (ρ.old ∉ e.names → text' = text)
  | .whole cut read, renamable, related => by
      have fits := read.fits renamable.uncalled (ρ := ρ) trivial
      obtain ⟨tokens', cut', both, same⟩ := tokenize_renamed renamable.unlike cut fits related
      obtain ⟨after', read', ends, unchanged⟩ := read.renamed renamable both
      cases ends
      exact ⟨.whole cut' read', fun absent => same (unchanged absent rfl)⟩

theorem ReadsAt.renamed {least : Nat} {tokens tokens' after : List Token} {e : Expression} :
    ReadsAt least tokens e after → e.Renamable ρ →
      List.Forall₂ (RenamedToken ρ) tokens tokens' →
        ∃ after', ReadsAt least tokens' (e.rename ρ.old ρ.new) after' ∧
          List.Forall₂ (RenamedToken ρ) after after' ∧
          (ρ.old ∉ e.names → after' = after → tokens' = tokens)
  | .operators first others, renamable, both => by
      have ⟨functions, operands⟩ := others.extends
      obtain ⟨rest', read, middle, same⟩ := first.renamed (renamable.of_subset functions) both
      obtain ⟨after', further, ends, unchanged⟩ := others.renamed renamable middle
      refine ⟨after', .operators read further, ends, fun absent equal => ?_⟩
      exact same (Expression.not_mem_names_of_subset operands absent) (unchanged absent equal)

theorem ReadsOperand.renamed {tokens tokens' after : List Token} {e : Expression} :
    ReadsOperand tokens e after → e.Renamable ρ → List.Forall₂ (RenamedToken ρ) tokens tokens' →
      ∃ after', ReadsOperand tokens' (e.rename ρ.old ρ.new) after' ∧
        List.Forall₂ (RenamedToken ρ) after after' ∧
        (ρ.old ∉ e.names → after' = after → tokens' = tokens)
  | .operand read, renamable, .cons (.operand related) tail => by
      obtain ⟨read', same⟩ := Operand.parse_renamed read related
      refine ⟨_, .operand read', tail, fun absent equal => ?_⟩
      rw [same fun member => absent (Expression.mem_names.mpr ⟨_, List.mem_singleton_self _, member⟩),
        equal]
  | .call read, renamable, .cons (.call related) tail => by
      obtain ⟨read', same⟩ := read.renamed
        (renamable.of_subset (List.subset_cons_self ..)) related
      refine ⟨_, .call read', tail, fun absent equal => ?_⟩
      rw [same absent, equal]
  | .minus read, renamable, .cons .minus tail => by
      obtain ⟨after', read', ends, same⟩ := read.renamed (renamable.of_subset fun _ => id) tail
      refine ⟨after', .minus read', ends, fun absent equal => ?_⟩
      rw [same absent equal]
  | .plus read, renamable, .cons .operator tail => by
      obtain ⟨after', read', ends, same⟩ := read.renamed renamable tail
      refine ⟨after', .plus read', ends, fun absent equal => ?_⟩
      rw [same absent equal]
  | .group read, renamable, .cons .openParen tail => by
      obtain ⟨_, read', closing, same⟩ := read.renamed renamable tail
      cases closing with
      | cons head ends =>
          cases head
          refine ⟨_, .group read', ends, fun absent equal => ?_⟩
          rw [same absent (by rw [equal])]

theorem ReadsOperators.renamed {least : Nat} {left : Expression} {tokens tokens' after : List Token}
    {e : Expression} : ReadsOperators least left tokens e after → e.Renamable ρ →
      List.Forall₂ (RenamedToken ρ) tokens tokens' →
        ∃ after', ReadsOperators least (left.rename ρ.old ρ.new) tokens'
            (e.rename ρ.old ρ.new) after' ∧
          List.Forall₂ (RenamedToken ρ) after after' ∧
          (ρ.old ∉ e.names → after' = after → tokens' = tokens)
  | .stop weak, _, both => by
      refine ⟨tokens', .stop ?_, both, fun _ equal => equal⟩
      rw [RenamedToken.head?_between? both]
      exact weak
  | .step between strong read others, renamable, .cons head tail => by
      have ⟨functions, operands⟩ := others.extends
      have inner := List.Subset.trans (List.subset_append_right _ _) functions
      obtain ⟨following', read', middle, same⟩ := read.renamed (renamable.of_subset inner) tail
      obtain ⟨after', further, ends, unchanged⟩ := others.renamed renamable middle
      refine ⟨after', .step (head.between?_eq.trans between) strong read' further, ends, ?_⟩
      intro absent equal
      have rightAbsent := Expression.not_mem_names_of_subset
        (List.Subset.trans (List.subset_append_right _ _) operands) absent
      rw [head.eq_of_between between, same rightAbsent (unchanged absent equal)]

end

/-- The renamed text of an expression spells the renamed expression. If the renaming touches no name
of it, the text stays. -/
theorem Expression.parse_renamed {text text' : Text} {e : Expression}
    (read : Expression.parse text = .ok e) (renamable : e.Renamable ρ)
    (related : Renamed ρ false text text') :
    Expression.parse text' = .ok (e.rename ρ.old ρ.new) ∧ (ρ.old ∉ e.names → text' = text) := by
  rw [parse_eq_ok_iff_reads] at read ⊢
  exact read.renamed renamable related

end Readings

end MissionScript
