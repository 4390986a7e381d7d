import MissionScript.Proofs.Bracket.Steps
import MissionScript.Proofs.Expression.Tokens
import MissionScript.Proofs.Script.Target

/-!
# Texts that are cut in parts

A text without literals is cut into the tokens of its parts, provided that no part goes on with a name or
opens a group of its own where the part before it ends.
-/

namespace MissionScript

/-- The glyphs of a text of which nothing belongs to a literal. -/
def Spells (gs : List Glyph) (text : Text) : Prop :=
  Text.ofGlyphs gs = text ∧ ∀ g ∈ gs, g.isFree

/-- No name goes on with this character, and it opens no group. -/
def endsName (c : Char) : Bool := !isNameChar c && c != '('

section Spells

variable {gs : List Glyph} {text left right : Text} {c : Char}

theorem Spells.nil (spelled : Spells gs []) : gs = [] := List.map_eq_nil_iff.mp spelled.1

theorem Spells.cons (spelled : Spells gs (c :: text)) :
    ∃ g more, gs = g :: more ∧ g.char = c ∧ g.isFree ∧ Spells more text := by
  obtain ⟨same, free⟩ := spelled
  obtain ⟨g, more, rfl, char, behind⟩ := List.map_eq_cons_iff.mp same
  obtain ⟨first, others⟩ := List.forall_mem_cons.mp free
  exact ⟨g, more, rfl, char, first, behind, others⟩

theorem Spells.append (spelled : Spells gs (left ++ right)) :
    ∃ front behind, gs = front ++ behind ∧ Spells front left ∧ Spells behind right := by
  obtain ⟨same, free⟩ := spelled
  obtain ⟨front, behind, rfl, first, second⟩ := List.map_eq_append_iff.mp same
  obtain ⟨freeFront, freeBehind⟩ := List.forall_mem_append.mp free
  exact ⟨front, behind, rfl, ⟨first, freeFront⟩, second, freeBehind⟩

theorem Spells.of_unquoted (unquoted : '\'' ∉ text) : Spells text.glyphs text :=
  ⟨Text.ofGlyphs_glyphs text, (Quiet.glyphsFrom_append rfl unquoted 0 []).2⟩

theorem Spells.forall_char {p : Char → Prop} (spelled : Spells gs text) (holds : ∀ c ∈ text, p c) :
    ∀ g ∈ gs, p g.char := by
  intro g member
  apply holds
  rw [← spelled.1]
  exact List.mem_map_of_mem member

end Spells

/-! ### Groups -/

/-- A text without literals that closes every parenthesis which it opens, and no other. -/
structure Nests (text : Text) : Prop where
  unquoted : '\'' ∉ text
  matched : ∀ {gs : List Glyph}, Spells gs text → ∀ (depth : Nat) (rest : List Glyph),
    Bracket.paren.splitClosing depth (gs ++ rest) =
      (Bracket.paren.splitClosing depth rest).map fun (inside, after) => (gs ++ inside, after)

namespace Nests

variable {text left right : Text}

theorem append (first : Nests left) (second : Nests right) : Nests (left ++ right) where
  unquoted := by simp [first.unquoted, second.unquoted]
  matched spelled depth rest := by
    obtain ⟨front, behind, rfl, spelledFront, spelledBehind⟩ := spelled.append
    rw [List.append_assoc, first.matched spelledFront, second.matched spelledBehind, Option.map_map]
    simp [Function.comp_def]

theorem of_flat (flat : ∀ c ∈ text, c ≠ '\'' ∧ c ≠ '(' ∧ c ≠ ')') : Nests text where
  unquoted member := (flat _ member).1 rfl
  matched {gs} spelled depth rest := by
    have each := spelled.forall_char flat
    clear spelled
    induction gs with
    | nil => simp
    | cons g gs ih =>
        obtain ⟨⟨-, other, closing⟩, behind⟩ := List.forall_mem_cons.mp each
        have opens : g.opens .paren = false := by simp [Glyph.opens, Bracket.opening, other]
        have closes : g.closes .paren = false := by simp [Glyph.closes, Bracket.closing, closing]
        rw [List.cons_append, Bracket.splitClosing_other depth _ opens closes, ih behind, Option.map_map]
        rfl

theorem of_blank (blank : text.isBlankText) : Nests text := by
  refine of_flat fun c member => ?_
  have each := List.all_eq_true.mp blank c member
  exact ⟨ne_of_isBlank each (by decide), ne_of_isBlank each (by decide), ne_of_isBlank each (by decide)⟩

theorem of_named (named : ∀ c ∈ text, isNameChar c) : Nests text := by
  refine of_flat fun c member => ?_
  have each := named c member
  refine ⟨?_, ?_, ?_⟩
  all_goals
    rintro rfl
    revert each
    decide

/-- Two texts with a comma between them. -/
theorem comma (first : Nests left) (second : Nests right) : Nests (left ++ ',' :: right) := by
  have single : Nests [','] := .of_flat (List.forall_mem_singleton.mpr (by decide))
  exact first.append (single.append second)

theorem group (inside : Nests text) : Nests ('(' :: (text ++ [')'])) where
  unquoted := by simp [inside.unquoted]
  matched spelled depth rest := by
    obtain ⟨g, more, rfl, opening, free, spelled⟩ := spelled.cons
    obtain ⟨gs, last, rfl, within, ending⟩ := spelled.append
    obtain ⟨h, nothing, rfl, closing, free', ending⟩ := ending.cons
    obtain rfl := ending.nil
    have opens : g.opens .paren = true := by simp [Glyph.opens, Bracket.opening, free, opening]
    have other : h.opens .paren = false := by simp [Glyph.opens, Bracket.opening, closing]
    have closes : h.closes .paren = true := by simp [Glyph.closes, Bracket.closing, free', closing]
    have further : Bracket.paren.splitClosing (depth + 1) (h :: rest) =
        (Bracket.paren.splitClosing depth rest).map fun (inside, after) => (h :: inside, after) := by
      rw [Bracket.splitClosing, other, closes]
      rfl
    rw [List.cons_append, Bracket.splitClosing_opening depth _ opens, List.append_assoc,
      inside.matched within, List.cons_append, List.nil_append, further]
    simp [Option.map_map, Function.comp_def]

/-- The bracket behind the text closes the group around it. -/
theorem closes (nests : Nests text) {gs rest : List Glyph} {h : Glyph} (spelled : Spells gs text)
    (free : h.isFree) (closing : h.char = ')') :
    Bracket.paren.splitClosing 0 (gs ++ h :: rest) = some (gs, rest) := by
  have other : h.opens .paren = false := by simp [Glyph.opens, Bracket.opening, closing]
  have closes : h.closes .paren = true := by simp [Glyph.closes, Bracket.closing, free, closing]
  rw [nests.matched spelled, Bracket.splitClosing, other, closes]
  simp

end Nests

/-! ### Tokens -/

/-- In front of anything that does not go on with a name, the text is cut into these tokens. -/
def Cuts (text : Text) (tokens : List Token) : Prop :=
  ∀ (whole : Text) (previous : Option Char) {gs : List Glyph} (rest : List Glyph), Spells gs text →
    (∀ g ∈ rest.head?, endsName g.char) →
      ∃ previous', tokensFrom whole previous (gs ++ rest) =
        (tokensFrom whole previous' rest).map (tokens ++ ·)

namespace Cuts

variable {text left right blanks name inside : Text} {tokens first second : List Token} {token : Token}
  {c : Char}

theorem nil : Cuts [] [] := by
  intro whole previous gs rest spelled ends
  obtain rfl := spelled.nil
  refine ⟨previous, ?_⟩
  rw [List.nil_append]
  cases tokensFrom whole previous rest <;> rfl

theorem append (cutsLeft : Cuts left first) (cutsRight : Cuts right second)
    (ends : ∀ c ∈ right.head?, endsName c) : Cuts (left ++ right) (first ++ second) := by
  intro whole previous gs rest spelled follows
  obtain ⟨front, behind, rfl, spelledFront, spelledBehind⟩ := spelled.append
  have seam : ∀ g ∈ (behind ++ rest).head?, endsName g.char := by
    cases behind with
    | nil => exact follows
    | cons g behind =>
        rintro g ⟨⟩
        apply ends
        rw [← spelledBehind.1]
        rfl
  obtain ⟨middle, cutFront⟩ := cutsLeft whole previous _ spelledFront seam
  obtain ⟨last, cutBehind⟩ := cutsRight whole middle rest spelledBehind follows
  refine ⟨last, ?_⟩
  rw [List.append_assoc, cutFront, cutBehind, Outcome.map_map]
  simp [Function.comp_def]

/-- Blanks in front leave the tokens alone. -/
theorem blanks_append (blank : blanks.isBlankText) (cuts : Cuts text tokens) :
    Cuts (blanks ++ text) tokens := by
  induction blanks with
  | nil => exact cuts
  | cons c blanks ih =>
      rw [Text.isBlankText, List.all_cons, Bool.and_eq_true] at blank
      intro whole previous gs rest spelled follows
      obtain ⟨g, more, rfl, char, -, spelled⟩ := spelled.cons
      obtain ⟨last, cut⟩ := ih blank.2 whole (some g.char) rest spelled follows
      exact ⟨last, (tokensFrom_blank (by rw [char]; exact blank.1)).trans cut⟩

/-- An operator or a parenthesis in front is a token of its own. -/
theorem cons (made : Token.ofChar? c = some token) (cuts : Cuts text tokens) :
    Cuts (c :: text) (token :: tokens) := by
  intro whole previous gs rest spelled follows
  obtain ⟨g, more, rfl, rfl, -, spelled⟩ := spelled.cons
  obtain ⟨last, cut⟩ := cuts whole (some g.char) rest spelled follows
  refine ⟨last, ?_⟩
  rw [List.cons_append, tokensFrom_char made, cut, Outcome.map_map]
  rfl

theorem of_name (starts : startsName c) (named : ∀ d ∈ name, isNameChar d) :
    Cuts (c :: name) [.operand (c :: name)] := by
  intro whole previous gs rest spelled follows
  obtain ⟨g, fields, rfl, rfl, -, spelled⟩ := spelled.cons
  have fieldNamed := spelled.forall_char named
  obtain ⟨rfl, -⟩ := spelled
  refine ⟨some g.char, ?_⟩
  cases rest with
  | nil =>
      rw [List.append_nil, tokensFrom_end starts fieldNamed, tokensFrom]
      rfl
  | cons next more =>
      obtain ⟨ends, plain⟩ : isNameChar next.char = false ∧ next.char ≠ '(' := by
        simpa [endsName] using follows next rfl
      rw [List.cons_append, tokensFrom_name starts fieldNamed ends plain]
      rfl

theorem of_group (starts : startsName c) (named : ∀ d ∈ name, isNameChar d) (nests : Nests inside) :
    Cuts (c :: name ++ '(' :: inside ++ [')']) [groupToken (c :: name) inside] := by
  intro whole previous gs rest spelled follows
  rw [List.append_assoc, List.cons_append] at spelled
  obtain ⟨g, more, rfl, rfl, -, spelled⟩ := spelled.cons
  obtain ⟨fields, more, rfl, spelledName, spelled⟩ := spelled.append
  obtain ⟨next, more, rfl, opens, -, spelled⟩ := spelled.cons
  obtain ⟨content, last, rfl, spelledInside, spelled⟩ := spelled.append
  obtain ⟨close, nothing, rfl, closing, free, spelled⟩ := spelled.cons
  obtain rfl := spelled.nil
  have fieldNamed := spelledName.forall_char named
  obtain ⟨rfl, -⟩ := spelledName
  refine ⟨some g.char, ?_⟩
  have shape : g :: (fields ++ next :: (content ++ [close])) ++ rest =
      g :: (fields ++ next :: (content ++ close :: rest)) := by simp
  rw [shape, tokensFrom_group starts fieldNamed opens (nests.closes spelledInside free closing),
    spelledInside.1]
  rfl

/-- Such a text is read as these tokens. -/
theorem tokenize (cuts : Cuts text tokens) (unquoted : '\'' ∉ text) :
    tokenize text = .ok tokens := by
  obtain ⟨last, cut⟩ := cuts text none [] (.of_unquoted unquoted) (by simp)
  rw [List.append_nil, tokensFrom] at cut
  rw [MissionScript.tokenize, cut]
  simp [Except.map]

end Cuts

end MissionScript
