import Mathlib
import MissionScript.Proofs.Renaming.Split
import MissionScript.Proofs.Script.Decompose
import MissionScript.Proofs.Script.Shape

/-!
# What a decomposition keeps

Every character of a chunk that is neither a blank nor a comma stands in one token, at its place: trimming,
closing up groups, cutting the options off and cutting at groups and separators drop blanks and commas only.
-/

namespace MissionScript

namespace Text

/-- The text without its blanks and commas. -/
def dense (text : Text) : Text := text.filter (!isSeparator ·)

variable {text : Text}

theorem dense_append (left right : Text) : dense (left ++ right) = left.dense ++ right.dense :=
  List.filter_append ..

theorem dense_cons_of_separates {c : Char} (separates : isSeparator c) (text : Text) :
    dense (c :: text) = text.dense := by
  rw [dense, dense, List.filter_cons, separates]
  rfl

theorem dense_of_isBlank (blank : ∀ c ∈ text, isBlank c) : text.dense = [] := by
  rw [dense, List.filter_eq_nil_iff]
  intro c member
  simp [isSeparator, blank c member]

theorem dense_trim (text : Text) : text.trim.dense = text.dense := by
  obtain ⟨front, back, blankFront, blankBack, split⟩ := exists_glyphs_trim text
  have whole := congrArg ofGlyphs split
  rw [ofGlyphs_append, ofGlyphs_append, ofGlyphs_glyphs, ofGlyphs_glyphs] at whole
  have blanks {gs : List Glyph} (blank : ∀ g ∈ gs, isBlank g.char) : (ofGlyphs gs).dense = [] :=
    dense_of_isBlank (List.forall_mem_map.mpr blank)
  have dense := congrArg Text.dense whole
  rw [dense_append, dense_append, blanks blankFront, blanks blankBack, List.append_nil,
    List.nil_append] at dense
  exact dense.symm

/-- What is left of a text when it is trimmed neither starts nor ends with a blank. -/
theorem trimmed_trim (filled : text.trim ≠ []) : text.trim.Trimmed where
  filled := filled
  first := (unpadded_trim text).first
  last := (unpadded_trim text).last

end Text

/-! ### Closing up groups -/

/-- Glyphs without brackets lose the blanks outside literals if a group is open, and change nothing behind
them. -/
theorem keepOutsideBlanks_append {left : List Glyph} (plain : ∀ g ∈ left, g.mark? = none)
    (families : List Bracket) (groups : Nat) (rest : List Glyph) :
    keepOutsideBlanks families groups (left ++ rest) =
      left.filter (fun g => g.quoted || groups == 0 || !isBlank g.char) ++
        keepOutsideBlanks families groups rest := by
  induction left with
  | nil => rfl
  | cons g left ih =>
      obtain ⟨none, others⟩ := List.forall_mem_cons.mp plain
      have opens : families.any g.opens = false := by simp [Glyph.opens_of_mark?_eq_none none]
      have closes : families.any g.closes = false := by simp [Glyph.closes_of_mark?_eq_none none]
      rw [List.cons_append, keepOutsideBlanks, ih others, opens, closes, List.filter_cons]
      cases g.quoted <;> cases isBlank g.char <;> cases groups <;> simp

theorem dense_keepOutsideBlanks (families : List Bracket) (depth : Nat) (glyphs : List Glyph) :
    (Text.ofGlyphs (keepOutsideBlanks families depth glyphs)).dense = (Text.ofGlyphs glyphs).dense := by
  induction glyphs generalizing depth with
  | nil => rfl
  | cons g rest ih =>
      have kept (depth : Nat) : (Text.ofGlyphs (g :: keepOutsideBlanks families depth rest)).dense =
          (Text.ofGlyphs (g :: rest)).dense := by
        rw [Text.ofGlyphs_cons, Text.ofGlyphs_cons, ← List.singleton_append, Text.dense_append, ih,
          ← Text.dense_append]
        rfl
      rw [keepOutsideBlanks]
      split
      · exact kept depth
      split
      · exact kept (depth + 1)
      split
      · exact kept (depth - 1)
      split
      · rename_i inner
        have blank : isSeparator g.char = true := by
          rw [isSeparator, (Bool.and_eq_true_iff.mp inner).2, Bool.true_or]
        rw [ih, Text.ofGlyphs_cons, Text.dense_cons_of_separates blank]
      · exact kept depth

theorem Text.dense_readied (subscripts : Bool) (chunk : Text) :
    (chunk.readied subscripts).dense = chunk.dense := by
  rw [readied]
  split
  · rw [removeInnerBlanks, dense_keepOutsideBlanks, ofGlyphs_glyphs, dense_trim]
  · exact dense_trim chunk

/-! ### Pieces -/

theorem Parted.dense {family : Bracket} {subscripts : Bool} {piece glyphs : List Glyph}
    {pieces : List (List Glyph)} (parted : Parted family subscripts piece glyphs pieces) :
    (Text.ofGlyphs pieces.flatten).dense = (Text.ofGlyphs (piece.reverse ++ glyphs)).dense := by
  induction parted with
  | done piece => simp
  | glued _ _ _ _ _ ih =>
      rw [ih]
      simp
  | group _ _ _ _ _ ih =>
      rw [List.flatten_cons, List.flatten_cons, Text.ofGlyphs_append, Text.ofGlyphs_append,
        Text.dense_append, Text.dense_append, ih]
      simp only [← Text.dense_append, ← Text.ofGlyphs_append]
      simp
  | separator _ separates _ ih =>
      rw [List.flatten_cons, Text.ofGlyphs_append, Text.dense_append, ih, List.reverse_nil,
        List.nil_append, Text.ofGlyphs_append, Text.dense_append, Text.ofGlyphs_cons,
        Text.dense_cons_of_separates separates]
  | other _ _ _ ih =>
      rw [ih]
      simp

theorem tidy_cons (piece : List Glyph) (pieces : List (List Glyph)) : tidy (piece :: pieces) =
    (if (Text.ofGlyphs piece).trim.isEmpty then [] else [(Text.ofGlyphs piece).trim]) ++ tidy pieces := by
  rw [tidy, List.map_cons, List.filter_cons]
  split <;> simp_all [tidy]

theorem tidy_cons_of_trimmed {token : Text} (trimmed : token.Trimmed) (pieces : List (List Glyph)) :
    tidy (token.glyphs :: pieces) = token :: tidy pieces := by
  rw [tidy_cons, Text.ofGlyphs_glyphs, trimmed.trim, if_neg (by simpa using trimmed.filled)]
  rfl

theorem dense_tidy (pieces : List (List Glyph)) :
    Text.dense (tidy pieces).flatten = (Text.ofGlyphs pieces.flatten).dense := by
  induction pieces with
  | nil => rfl
  | cons piece pieces ih =>
      rw [tidy_cons, List.flatten_append, Text.dense_append, ih, List.flatten_cons, Text.ofGlyphs_append,
        Text.dense_append]
      congr 1
      split
      · rename_i empty
        rw [← Text.dense_trim (Text.ofGlyphs piece), List.isEmpty_iff.mp empty]
        rfl
      · rw [List.flatten_singleton, Text.dense_trim]

theorem trimmed_of_mem_tidy {pieces : List (List Glyph)} {token : Text} (member : token ∈ tidy pieces) :
    token.Trimmed := by
  obtain ⟨made, filled⟩ := List.mem_filter.mp member
  obtain ⟨piece, -, rfl⟩ := List.mem_map.mp made
  exact Text.trimmed_trim (by simpa using filled)

/-! ### Options -/

/-- Where the options are cut off: at the last comma outside groups in front of the brace that starts them. -/
structure OptionCut (text : Text) (tokens : List Text) (head tail rest : List Glyph)
    (comma brace : Glyph) : Prop where
  glyphs_eq : text.glyphs = head ++ comma :: (tail ++ brace :: rest)
  comma_eq : comma.char = ','
  comma_top : comma.isTop
  opens : brace.opens .brace
  filled : (Text.ofGlyphs head).trim ≠ []
  tokens_eq : tokens = [(Text.ofGlyphs head).trim, (Text.ofGlyphs (tail ++ brace :: rest)).trim]

theorem exists_optionCut {text : Text} {tokens : List Text} (cut : splitOptions? text = some tokens) :
    ∃ head tail rest comma brace, OptionCut text tokens head tail rest comma brace := by
  simp only [splitOptions?, Option.bind_eq_bind, Option.bind_eq_some_iff, Prod.exists] at cut
  obtain ⟨before, brace, rest, first, inside, after, -, ⟨⟩, -, head, tail, last, ⟨⟩, filled, same⟩ := cut
  obtain ⟨whole, opens⟩ := append_of_splitFirst first
  have behind := drop_of_glyphs whole (append_of_splitLast last)
  obtain ⟨comma, top, rfl⟩ := append_of_splitLast last
  rw [Bool.and_eq_true] at opens
  rw [Bool.and_eq_true, beq_iff_eq] at top
  exact ⟨head, tail, rest, comma, brace, {
    glyphs_eq := by rw [whole, List.append_assoc, List.cons_append]
    comma_eq := top.2
    comma_top := top.1
    opens := opens.1
    filled := by simpa using (Option.guard_eq_some' _).mp filled
    tokens_eq := by rw [← Option.some.inj same, behind] }⟩

theorem splitOptions?_eq_none {text : Text} (unopened : ∀ g ∈ text.glyphs, g.opens .brace = false) :
    splitOptions? text = none := by
  cases cut : splitOptions? text with
  | none => rfl
  | some tokens =>
      obtain ⟨head, tail, rest, comma, brace, cut⟩ := exists_optionCut cut
      have member : brace ∈ text.glyphs := by
        rw [cut.glyphs_eq]
        simp
      have opens := cut.opens
      rw [unopened brace member] at opens
      cases opens

namespace OptionCut

variable {text : Text} {tokens : List Text} {head tail rest : List Glyph} {comma brace : Glyph}

theorem text_eq (cut : OptionCut text tokens head tail rest comma brace) :
    text = Text.ofGlyphs head ++ ',' :: Text.ofGlyphs (tail ++ brace :: rest) := by
  have whole := congrArg Text.ofGlyphs cut.glyphs_eq
  rwa [Text.ofGlyphs_glyphs, Text.ofGlyphs_append, Text.ofGlyphs_cons, cut.comma_eq] at whole

theorem dense (cut : OptionCut text tokens head tail rest comma brace) :
    Text.dense tokens.flatten = text.dense := by
  rw [cut.text_eq, cut.tokens_eq, List.flatten_cons, List.flatten_singleton, Text.dense_append,
    Text.dense_append, Text.dense_trim, Text.dense_trim, Text.dense_cons_of_separates (by decide)]

theorem trimmed (cut : OptionCut text tokens head tail rest comma brace) :
    ∀ token ∈ tokens, token.Trimmed := by
  have brace_eq : brace.char = '\x7b' := Glyph.char_of_opens cut.opens
  have stays : '\x7b' ∈ (Text.ofGlyphs (tail ++ brace :: rest)).dense := by
    refine List.mem_filter.mpr ⟨?_, by decide⟩
    rw [Text.ofGlyphs_append, Text.ofGlyphs_cons, brace_eq]
    exact List.mem_append_right _ (List.mem_cons_self ..)
  have filled : (Text.ofGlyphs (tail ++ brace :: rest)).trim ≠ [] := by
    intro empty
    rw [← Text.dense_trim, empty] at stays
    cases stays
  rw [cut.tokens_eq]
  intro token member
  rcases List.mem_pair.mp member with rfl | rfl
  · exact Text.trimmed_trim cut.filled
  · exact Text.trimmed_trim filled

end OptionCut

/-! ### Decomposing -/

section Tokens

variable {family : Bracket} {subscripts : Bool} {chunk : Text} {tokens : List Text}

theorem trimmed_of_decompose (cut : decompose family subscripts false chunk = .ok tokens) :
    ∀ token ∈ tokens, token.Trimmed := by
  obtain ⟨-, pieces, -, -, rfl⟩ := exists_of_decompose cut
  cases options : splitOptions? (chunk.readied subscripts) with
  | some tokens =>
      obtain ⟨head, tail, rest, comma, brace, cut⟩ := exists_optionCut options
      exact cut.trimmed
  | none => exact fun token => trimmed_of_mem_tidy

theorem dense_of_decompose (cut : decompose family subscripts false chunk = .ok tokens) :
    Text.dense tokens.flatten = chunk.dense := by
  obtain ⟨-, pieces, parted, -, rfl⟩ := exists_of_decompose cut
  rw [← Text.dense_readied subscripts chunk]
  cases options : splitOptions? (chunk.readied subscripts) with
  | some tokens =>
      obtain ⟨head, tail, rest, comma, brace, cut⟩ := exists_optionCut options
      exact cut.dense
  | none =>
      rw [Option.getD_none, dense_tidy, parted.dense, List.reverse_nil, List.nil_append,
        Text.ofGlyphs_glyphs]

/-- A decomposition loses and invents nothing: its tokens are trimmed and not empty, and one behind the other
they are the chunk, blanks and commas apart. -/
theorem decompose_keeps (cut : decompose family subscripts false chunk = .ok tokens) :
    (∀ token ∈ tokens, token.Trimmed) ∧ Text.dense tokens.flatten = chunk.dense :=
  ⟨trimmed_of_decompose cut, dense_of_decompose cut⟩

end Tokens

/-- Subscripts are closed up, and the comma in front of the options is gone. -/
theorem decompose_keeps_options :
    decompose .paren true false "v( 1 , 2 ) w, \x7bTolerance = 0.1\x7d".toList =
        .ok ["v(1,2) w".toList, "\x7bTolerance = 0.1\x7d".toList] ∧
      (∀ token ∈ ["v(1,2) w".toList, "\x7bTolerance = 0.1\x7d".toList], Text.Trimmed token) ∧
      Text.dense ["v(1,2) w".toList, "\x7bTolerance = 0.1\x7d".toList].flatten =
        Text.dense "v( 1 , 2 ) w, \x7bTolerance = 0.1\x7d".toList := by
  have cut : decompose .paren true false "v( 1 , 2 ) w, \x7bTolerance = 0.1\x7d".toList =
      .ok ["v(1,2) w".toList, "\x7bTolerance = 0.1\x7d".toList] := by
    cbv
  exact ⟨cut, decompose_keeps cut⟩

end MissionScript
