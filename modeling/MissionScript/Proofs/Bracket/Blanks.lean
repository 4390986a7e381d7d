import MissionScript.Bracket.Subscript
import MissionScript.Proofs.Script.Literal

/-!
# Closing up groups

When the blanks inside groups go, a quote behind them moves up to the character in front of them. Where a
quote is the transpose operator behind that character, the literal that it opened is lost. Everywhere else a
text keeps its literals and what is not blank outside them.
-/

namespace MissionScript

/-! ### Texts without their blanks -/

/-- What a character is to the literals of its text. -/
inductive Role where
  | outside
  /-- It is the quote that a literal starts with. -/
  | opening
  /-- It belongs to a literal that a quote in front of it has opened. -/
  | within
deriving DecidableEq, Repr

namespace Text

def substanceFrom (p : Literal) : Text → List (Char × Role)
  | [] => []
  | c :: text =>
    if p.covers c then
      (c, if p.inside then .within else .opening) :: substanceFrom (p.step c) text
    else if isBlank c then substanceFrom (p.step c) text
    else (c, .outside) :: substanceFrom (p.step c) text

/-- The characters of a text without the blanks outside its literals. Two texts have the same ones if they
have the same literals, and in front of, between and behind them the same characters that are not blank. -/
def substance (text : Text) : List (Char × Role) := substanceFrom {} text

end Text

variable {families : List Bracket} {p q : Literal} {groups : Nat} {c : Char} {text : Text}

/-! ### One character after the other -/

/-- The count of open groups of the families behind a character. -/
def groupsAfter (families : List Bracket) (groups : Nat) (quoted : Bool) (c : Char) : Nat :=
  if quoted then groups
  else if families.any (c == ·.opening) then groups + 1
  else if families.any (c == ·.closing) then groups - 1
  else groups

/-- The count of open groups of the families behind a text that is read on from a known position. -/
def groupsFrom (families : List Bracket) : (p : Literal) → (groups : Nat) → Text → Nat
  | _, groups, [] => groups
  | p, groups, c :: text =>
    groupsFrom families (p.step c) (groupsAfter families groups (p.covers c) c) text

/-- A blank that stands outside literals and inside a group. -/
def isInnerBlank (groups : Nat) (quoted : Bool) (c : Char) : Bool := groups != 0 && !quoted && isBlank c

theorem isInnerBlank_iff {quoted : Bool} :
    isInnerBlank groups quoted c ↔ groups ≠ 0 ∧ quoted = false ∧ isBlank c := by
  simp [isInnerBlank, and_assoc]

/-- The text without the blanks inside groups, read on from a known position. -/
def closeUp (families : List Bracket) : (p : Literal) → (groups : Nat) → Text → Text
  | _, _, [] => []
  | p, groups, c :: text =>
    if isInnerBlank groups (p.covers c) c then closeUp families (p.step c) groups text
    else c :: closeUp families (p.step c) (groupsAfter families groups (p.covers c) c) text

theorem not_bracket_of_isBlank (blank : isBlank c) (families : List Bracket) :
    families.any (c == ·.opening) = false ∧ families.any (c == ·.closing) = false := by
  constructor
  all_goals
    apply List.any_eq_false.mpr
    intro b _ same
    simp only [beq_iff_eq] at same
    subst same
    cases b <;> revert blank <;> decide

theorem groupsAfter_of_isBlank (blank : isBlank c) (families : List Bracket) (groups : Nat)
    (quoted : Bool) : groupsAfter families groups quoted c = groups := by
  simp [groupsAfter, not_bracket_of_isBlank blank families]

theorem keepOutsideBlanks_cons (families : List Bracket) (groups : Nat) (g : Glyph) (rest : List Glyph) :
    keepOutsideBlanks families groups (g :: rest) =
      if isInnerBlank groups g.quoted g.char then keepOutsideBlanks families groups rest
      else g :: keepOutsideBlanks families (groupsAfter families groups g.quoted g.char) rest := by
  cases quoted : g.quoted with
  | true => simp [keepOutsideBlanks, isInnerBlank, groupsAfter, quoted]
  | false =>
      have opens : g.opens = (g.char == ·.opening) := by
        funext b
        simp [Glyph.opens, Glyph.isFree, quoted]
      have closes : g.closes = (g.char == ·.closing) := by
        funext b
        simp [Glyph.closes, Glyph.isFree, quoted]
      cases blank : isBlank g.char with
      | true =>
          have other := not_bracket_of_isBlank blank families
          simp [keepOutsideBlanks, isInnerBlank, groupsAfter, quoted, opens, closes, other, blank]
      | false =>
          simp only [keepOutsideBlanks, isInnerBlank, groupsAfter, quoted, opens, closes, blank]
          simp only [Bool.false_eq_true, if_false, Bool.and_false]
          split
          · rfl
          · split <;> rfl

theorem ofGlyphs_keepOutsideBlanks (families : List Bracket) (p : Literal) (groups depth : Nat)
    (text : Text) :
    Text.ofGlyphs (keepOutsideBlanks families groups (glyphsFrom p depth text)) =
      closeUp families p groups text := by
  induction text generalizing p groups depth with
  | nil => rfl
  | cons c text ih =>
      simp only [glyphsFrom, keepOutsideBlanks_cons, closeUp]
      split
      · exact ih ..
      · exact congrArg (c :: ·) (ih ..)

theorem removeInnerBlanks_eq_closeUp (families : List Bracket) (text : Text) :
    removeInnerBlanks families text = closeUp families {} 0 text :=
  ofGlyphs_keepOutsideBlanks families {} 0 0 text

/-- What is not blank stays, whatever becomes of the literals. -/
theorem filter_closeUp (families : List Bracket) (p : Literal) (groups : Nat) (text : Text) :
    (closeUp families p groups text).filter (!isBlank ·) = text.filter (!isBlank ·) := by
  induction text generalizing p groups with
  | nil => rfl
  | cons c text ih =>
      simp only [closeUp]
      split
      · next inner =>
          have blank := (isInnerBlank_iff.mp inner).2.2
          simp [ih, blank]
      · simp only [List.filter_cons, ih]

/-! ### Where literals are lost -/

/-- Whether some character is read otherwise in the text that is closed up, where the position is `q` when it
is `p` in the text as it stands. -/
def misreads (families : List Bracket) : (p q : Literal) → (groups : Nat) → Text → Bool
  | _, _, _, [] => false
  | p, q, groups, c :: text =>
    if isInnerBlank groups (p.covers c) c then misreads families (p.step c) q groups text
    else p.covers c != q.covers c ||
      misreads families (p.step c) (q.step c) (groupsAfter families groups (p.covers c) c) text

theorem Literal.inside_of_covers (free : p.covers c = false) : p.inside = false := by
  simp only [covers, Bool.or_eq_false_iff] at free
  exact free.1

/-- What closing up does to the position: blanks may be missing in front of it. -/
structure Trails (p q : Literal) : Prop where
  inside : p.inside = q.inside
  opens : Literal.opensAfter q.previous → Literal.opensAfter p.previous

namespace Trails

theorem refl (p : Literal) : Trails p p := ⟨rfl, id⟩

/-- Behind a character that both have read they are alike. -/
theorem step (trails : Trails p q) (same : p.covers c = q.covers c) : Trails (p.step c) (q.step c) where
  inside := by simp only [Literal.step, same, trails.inside]
  opens := id

theorem blank (trails : Trails p q) (free : p.covers c = false) (blank : isBlank c) :
    Trails (p.step c) q where
  inside := by
    simp only [Literal.step, free, Bool.false_and, ← trails.inside, Literal.inside_of_covers free]
  opens _ := by simp [Literal.step, Literal.opensAfter, blank]

/-- Only a quote can be read otherwise, and only as the transpose operator. -/
theorem misread (trails : Trails p q) (differ : p.covers c ≠ q.covers c) :
    c = '\'' ∧ p.inside = false ∧ p.covers c = true ∧ q.covers c = false := by
  obtain ⟨inside, opens⟩ := trails
  simp only [Literal.covers, inside] at differ ⊢
  cases within : q.inside with
  | true => simp [within] at differ
  | false =>
      by_cases quote : c = '\''
      · subst quote
        simp only [within, Bool.false_or, beq_self_eq_true, Bool.true_and] at differ ⊢
        cases after : Literal.opensAfter q.previous with
        | true => simp [after, opens after] at differ
        | false =>
            cases before : Literal.opensAfter p.previous with
            | true => simp
            | false => simp [after, before] at differ
      · have other : (c == '\'') = false := beq_eq_false_iff_ne.mpr quote
        simp [other] at differ

end Trails

theorem substanceFrom_of_isInnerBlank (inner : isInnerBlank groups (p.covers c) c) (text : Text) :
    Text.substanceFrom p (c :: text) = Text.substanceFrom (p.step c) text := by
  obtain ⟨-, free, blank⟩ := isInnerBlank_iff.mp inner
  simp [Text.substanceFrom, free, blank]

theorem substanceFrom_cons_inj {more more' : Text} (inside : p.inside = q.inside)
    (same : p.covers c = q.covers c) :
    Text.substanceFrom p (c :: more) = Text.substanceFrom q (c :: more') ↔
      Text.substanceFrom (p.step c) more = Text.substanceFrom (q.step c) more' := by
  simp only [Text.substanceFrom, inside, same]
  split
  · simp
  · split <;> simp

/-- A text keeps its substance exactly if everything in it is read as before. -/
theorem substanceFrom_closeUp_iff (trails : Trails p q) (families : List Bracket) (groups : Nat)
    (text : Text) :
    Text.substanceFrom q (closeUp families p groups text) = Text.substanceFrom p text ↔
      misreads families p q groups text = false := by
  induction text generalizing p q groups with
  | nil => simp [closeUp, misreads, Text.substanceFrom]
  | cons c text ih =>
      simp only [closeUp, misreads]
      split
      · next inner =>
          obtain ⟨-, free, blank⟩ := isInnerBlank_iff.mp inner
          rw [substanceFrom_of_isInnerBlank inner]
          exact ih (trails.blank free blank) groups
      · by_cases same : p.covers c = q.covers c
        · rw [substanceFrom_cons_inj trails.inside.symm same.symm, ih (trails.step same)]
          simp [same]
        · have lost := trails.misread same
          obtain ⟨rfl, outside, opens, transposed⟩ := lost
          have quote : isBlank '\'' = false := by decide
          simp [Text.substanceFrom, outside, opens, transposed, quote]

theorem closeUp_closeUp (families : List Bracket) (kept : misreads families p q groups text = false) :
    closeUp families q groups (closeUp families p groups text) = closeUp families p groups text := by
  induction text generalizing p q groups with
  | nil => rfl
  | cons c text ih =>
      simp only [misreads] at kept
      simp only [closeUp]
      split at kept
      · next inner => simp only [inner, if_true, ih kept]
      · next outer =>
          simp only [Bool.or_eq_false_iff, bne_eq_false_iff_eq] at kept
          simp only [outer, Bool.false_eq_true, if_false, closeUp, ← kept.1, ih kept.2]

/-! ### The literals that are lost -/

/-- Read on from `p` with `groups` groups open, the text has a blank inside a group that stands where a quote
would be the transpose operator, and a quote follows it, further blanks apart. -/
def LosesLiteral (families : List Bracket) (p : Literal) (groups : Nat) (text : Text) : Prop :=
  ∃ left blank, ∃ right : Text, text = left ++ blank :: right ∧ isBlank blank ∧
    (left.foldl Literal.step p).covers '\'' = false ∧ groupsFrom families p groups left ≠ 0 ∧
      right.trimStart.head? = some '\''

theorem losesLiteral_cons_iff : LosesLiteral families p groups (c :: text) ↔
    (isBlank c ∧ p.covers '\'' = false ∧ groups ≠ 0 ∧ text.trimStart.head? = some '\'') ∨
      LosesLiteral families (p.step c) (groupsAfter families groups (p.covers c) c) text := by
  constructor
  · intro ⟨left, blank, right, whole, rest⟩
    cases left with
    | nil =>
        cases whole
        exact .inl rest
    | cons d left =>
        cases whole
        exact .inr ⟨left, blank, right, rfl, rest⟩
  · intro lost
    cases lost with
    | inl here => exact ⟨[], c, text, rfl, here⟩
    | inr later =>
        have ⟨left, blank, right, whole, rest⟩ := later
        exact ⟨c :: left, blank, right, congrArg (c :: ·) whole, rest⟩

theorem Text.trimStart_cons (c : Char) (text : Text) :
    trimStart (c :: text) = if isBlank c then text.trimStart else c :: text := by
  simp only [trimStart, List.dropWhile_cons]

/-- A blank belongs to a literal that is open, and it opens none. -/
theorem Literal.covers_of_isBlank (blank : isBlank c) (p : Literal) : p.covers c = p.inside := by
  have other : c ≠ '\'' := by
    intro same
    subst same
    revert blank
    decide
  simp [covers, other]

theorem misreads_iff (trails : Trails p q) (deleted : p.covers '\'' ≠ q.covers '\'' → groups ≠ 0)
    (text : Text) :
    misreads families p q groups text ↔
      (p.covers '\'' ≠ q.covers '\'' ∧ text.trimStart.head? = some '\'') ∨
        LosesLiteral families p groups text := by
  induction text generalizing p q groups with
  | nil => simp [misreads, LosesLiteral, Text.trimStart]
  | cons c text ih =>
      rw [losesLiteral_cons_iff, Text.trimStart_cons, misreads]
      by_cases inner : isInnerBlank groups (p.covers c) c = true
      · obtain ⟨grouped, free, blank⟩ := isInnerBlank_iff.mp inner
        have opens : (p.step c).covers '\'' = true := by
          simp [Literal.covers, Literal.step, Literal.opensAfter, blank]
        have here := ih (trails.blank free blank) fun _ => grouped
        rw [if_pos inner, here, opens, groupsAfter_of_isBlank blank]
        have misread := trails.misread (c := '\'')
        cases atText : p.covers '\'' <;> cases atClosed : q.covers '\'' <;>
          simp_all
      · rw [if_neg inner, Bool.or_eq_true, bne_iff_ne]
        have unbroken : ¬(isBlank c = true ∧ p.inside = false ∧ groups ≠ 0) := by
          rintro ⟨blank, outside, grouped⟩
          have free : p.covers c = false := by rw [Literal.covers_of_isBlank blank, outside]
          exact inner (isInnerBlank_iff.mpr ⟨grouped, free, blank⟩)
        by_cases same : p.covers c = q.covers c
        · have step : p.step c = q.step c := by
            simp only [Literal.step, same, trails.inside]
          have unchanged : (p.step c).covers '\'' ≠ (p.step c).covers '\'' →
              groupsAfter families groups (p.covers c) c ≠ 0 := fun differ => absurd rfl differ
          have behind := ih (.refl (p.step c)) unchanged
          have noQuote : ¬(p.covers '\'' ≠ q.covers '\'' ∧
              (if isBlank c then Text.trimStart text else c :: text).head? = some '\'') := by
            rintro ⟨differ, quote⟩
            split at quote
            · next blank =>
                exact unbroken ⟨blank, (trails.misread differ).2.1, deleted differ⟩
            · cases quote
              exact differ same
          have noBlank : ¬(isBlank c = true ∧ p.covers '\'' = false ∧ groups ≠ 0 ∧
              (Text.trimStart text).head? = some '\'') := by
            rintro ⟨blank, free, grouped, _⟩
            exact unbroken ⟨blank, Literal.inside_of_covers free, grouped⟩
          rw [← step, behind, or_iff_right fun differ => differ same, or_iff_right fun differ => differ.1 rfl,
            or_iff_right noQuote, or_iff_right noBlank]
        · obtain ⟨quote, -⟩ := trails.misread same
          subst quote
          have filled : isBlank '\'' = false := by decide
          simp [same, filled]

/-- Closing up deletes blanks only. It keeps the literals of a text, and what is not blank outside them,
exactly if no blank that it deletes parts a literal from a text behind which its quote is the transpose
operator, and then nothing is left to delete. -/
theorem removeInnerBlanks_keeps (families : List Bracket) (text : Text) :
    (removeInnerBlanks families text).filter (!isBlank ·) = text.filter (!isBlank ·) ∧
      ((removeInnerBlanks families text).substance = text.substance ↔
        ¬LosesLiteral families {} 0 text) ∧
      (¬LosesLiteral families {} 0 text →
        removeInnerBlanks families (removeInnerBlanks families text) = removeInnerBlanks families text) := by
  have start : Trails {} {} := .refl {}
  have lost : ¬LosesLiteral families {} 0 text ↔ misreads families {} {} 0 text = false := by
    rw [← Bool.not_eq_true, misreads_iff start (fun differ => absurd rfl differ)]
    simp
  simp only [removeInnerBlanks_eq_closeUp]
  refine ⟨filter_closeUp .., ?_, fun kept => closeUp_closeUp families (lost.mp kept)⟩
  rw [lost]
  exact substanceFrom_closeUp_iff start families 0 text

/-- Both literals start behind a character after which a quote opens one. -/
theorem removeInnerBlanks_keeps_arguments :
    ¬LosesLiteral [.paren] {} 0 "f( 'a b' , 'c')".toList ∧
      removeInnerBlanks [.paren] "f( 'a b' , 'c')".toList = "f('a b','c')".toList ∧
        Text.substance "f('a b','c')".toList = Text.substance "f( 'a b' , 'c')".toList ∧
          removeInnerBlanks [.paren] "f('a b','c')".toList = "f('a b','c')".toList := by
  have closed : removeInnerBlanks [.paren] "f( 'a b' , 'c')".toList = "f('a b','c')".toList := by decide
  have same : Text.substance "f('a b','c')".toList = Text.substance "f( 'a b' , 'c')".toList := by decide
  have keeps := removeInnerBlanks_keeps [.paren] "f( 'a b' , 'c')".toList
  rw [closed] at keeps
  have kept := keeps.2.1.mp same
  exact ⟨kept, closed, same, keeps.2.2 kept⟩

/-- A name stands in front of the literal, which is lost, and then its blank goes as well. -/
theorem removeInnerBlanks_drops_literal :
    removeInnerBlanks [.paren] "(a 'x y')".toList = "(a'x y')".toList ∧
      Text.substance "(a'x y')".toList ≠ Text.substance "(a 'x y')".toList ∧
        removeInnerBlanks [.paren] "(a'x y')".toList ≠ "(a'x y')".toList := by
  decide

end MissionScript
