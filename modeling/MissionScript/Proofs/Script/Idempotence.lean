import MissionScript.Proofs.Script.Conservation

/-!
# Decomposing a token again

A token without brackets is cut at the blanks and commas outside its own literals. It is left whole where it
is read on its own as it was read in its chunk: where it does not start with the transpose operator. In front
of options the text is one token as it stands, so it can come apart when it is decomposed again.
-/

namespace MissionScript

/-! ### Texts without brackets -/

/-- Without brackets the count of open groups stays what it is. -/
theorem depth_of_marksOf_eq_nil {p : Literal} {depth : Nat} {text : Text}
    (plain : marksOf (glyphsFrom p depth text) = []) : ∀ g ∈ glyphsFrom p depth text, g.depth = depth := by
  induction text generalizing p depth with
  | nil => nofun
  | cons c text ih =>
      rw [glyphsFrom] at plain ⊢
      have step := depth_step ⟨c, p.covers c, depth⟩ depth
      dsimp only at step plain ⊢
      rw [marksOf_cons, List.append_eq_nil_iff] at plain
      rw [Option.toList_eq_nil_iff.mp plain.1] at step
      rw [step] at plain ⊢
      exact List.forall_mem_cons.mpr ⟨rfl, ih plain.2⟩

namespace Text

variable {text : Text}

theorem mark?_of_marks_eq_nil (plain : text.marks = []) : ∀ g ∈ text.glyphs, g.mark? = none :=
  List.filterMap_eq_nil_iff.mp plain

theorem opens_of_marks_eq_nil (plain : text.marks = []) (b : Bracket) :
    ∀ g ∈ text.glyphs, g.opens b = false := by
  intro g member
  exact Glyph.opens_of_mark?_eq_none (mark?_of_marks_eq_nil plain g member) b

theorem isTop_of_marks_eq_nil (plain : text.marks = []) : ∀ g ∈ text.glyphs, g.isTop = g.isFree := by
  intro g member
  rw [Bool.eq_iff_iff, Glyph.isTop_iff]
  have depth := depth_of_marksOf_eq_nil plain g member
  have mark := mark?_of_marks_eq_nil plain g member
  exact ⟨And.left, fun free => ⟨free, depth, mark⟩⟩

theorem keepOutsideBlanks_eq_self {families : List Bracket} {glyphs : List Glyph}
    (plain : ∀ g ∈ glyphs, g.mark? = none) : keepOutsideBlanks families 0 glyphs = glyphs := by
  have kept := keepOutsideBlanks_append plain families 0 []
  simpa [keepOutsideBlanks] using kept

theorem readied_of_marks_eq_nil (trimmed : text.Trimmed) (plain : text.marks = []) (subscripts : Bool) :
    text.readied subscripts = text := by
  rw [readied, trimmed.trim, removeInnerBlanks, keepOutsideBlanks_eq_self (mark?_of_marks_eq_nil plain),
    ofGlyphs_glyphs, ite_self]

theorem splitOptions?_of_marks_eq_nil (plain : text.marks = []) : splitOptions? text = none :=
  splitOptions?_eq_none (opens_of_marks_eq_nil plain .brace)

theorem splitOnP_congr {p q : Glyph → Bool} {glyphs : List Glyph} (same : ∀ g ∈ glyphs, p g = q g) :
    glyphs.splitOnP p = glyphs.splitOnP q := by
  induction glyphs with
  | nil => rfl
  | cons g rest ih =>
      obtain ⟨here, others⟩ := List.forall_mem_cons.mp same
      rw [List.splitOnP_cons_eq_if_modifyHead, List.splitOnP_cons_eq_if_modifyHead, here, ih others]

theorem splitTop_of_marks_eq_nil (plain : text.marks = []) (p : Char → Bool) :
    splitTop p text = splitFree p text := by
  rw [splitTop, splitFree]
  refine congrArg tidy (splitOnP_congr fun g member => ?_)
  rw [isTop_of_marks_eq_nil plain g member]

end Text

/-- A trimmed text without brackets is cut at the separators outside its literals. -/
theorem decompose_of_marks_eq_nil {text : Text} (trimmed : text.Trimmed) (plain : text.marks = [])
    (family : Bracket) (subscripts : Bool) :
    decompose family subscripts false text = .ok (splitFree isSeparator text) := by
  have balanced : checkBalance text = .ok () := by
    rw [checkBalance_eq_ok_iff, plain]
    exact .nil
  have absent : family.scan text 0 = .notFound := by
    have unopened := Bracket.splitOpening_zero_eq_none_iff.mpr (Text.opens_of_marks_eq_nil plain family)
    rw [Bracket.scan, Bracket.scanGlyphs, unopened]
  rw [decompose_eq, Text.readied_of_marks_eq_nil trimmed plain, Text.stripped_false, balanced]
  change family.cutUp subscripts text = _
  rw [Bracket.cutUp, Text.splitOptions?_of_marks_eq_nil plain, absent,
    ← Text.splitTop_of_marks_eq_nil plain]

/-- Nothing separates in the text outside its literals. -/
def Text.Unseparated (text : Text) : Prop := ∀ g ∈ text.glyphs, g.isFree → isSeparator g.char = false

theorem splitFree_of_unseparated {text : Text} (trimmed : text.Trimmed) (unseparated : text.Unseparated) :
    splitFree isSeparator text = [text] := by
  have single : text.glyphs.splitOnP (fun g => g.isFree && isSeparator g.char) = [text.glyphs] := by
    refine List.splitOnP_eq_singleton fun g member => ?_
    cases free : g.isFree with
    | false => rfl
    | true => exact unseparated g member free
  have filled : text.isEmpty = false := List.isEmpty_eq_false_iff.mpr trimmed.filled
  rw [splitFree, single, tidy, List.map_singleton, Text.ofGlyphs_glyphs, trimmed.trim]
  simp [filled]

/-! ### Pieces -/

/-- The piece starts with the transpose operator, a quote that opens no literal. -/
def startsTransposed (piece : List Glyph) : Bool := piece.head?.any fun g => g.isFree && g.char == '\''

/-- The piece has been read from outside literals and groups, and nothing separates in it outside them. -/
structure Whole (piece : List Glyph) : Prop where
  reading : ∃ previous, glyphsFrom ⟨false, previous⟩ 0 (Text.ofGlyphs piece) = piece
  unseparated : ∀ g ∈ piece, g.isTop → isSeparator g.char = false

theorem glyphsFrom_congr {p q : Literal} {c : Char} (inside : p.inside = q.inside)
    (covers : p.covers c = q.covers c) (depth : Nat) (text : Text) :
    glyphsFrom p depth (c :: text) = glyphsFrom q depth (c :: text) := by
  have step : p.step c = q.step c := by
    rw [Literal.step, Literal.step, covers, inside]
  rw [glyphsFrom, glyphsFrom, covers, step]

namespace Whole

variable {piece : List Glyph}

/-- A piece that does not start with the transpose operator is read on its own as it was in its text. -/
theorem glyphs_eq (whole : Whole piece) (start : startsTransposed piece = false) :
    (Text.ofGlyphs piece).glyphs = piece := by
  obtain ⟨previous, reading⟩ := whole.reading
  cases piece with
  | nil => rfl
  | cons g rest =>
      rw [Text.ofGlyphs_cons] at reading ⊢
      have first : Literal.covers ⟨false, previous⟩ g.char = g.quoted := by
        rw [glyphsFrom] at reading
        exact congrArg Glyph.quoted (List.cons.inj reading).1
      have same : Literal.covers {} g.char = Literal.covers ⟨false, previous⟩ g.char := by
        rw [first]
        cases quote : g.char == '\'' with
        | false =>
            rw [← first]
            simp [Literal.covers, quote]
        | true =>
            have quoted : g.quoted = true := by simpa [startsTransposed, Glyph.isFree, quote] using start
            rw [quoted]
            simp [Literal.covers, quote, Literal.opensAfter]
      rw [Text.glyphs, glyphsFrom_congr (p := {}) (q := ⟨false, previous⟩) rfl same]
      exact reading

/-- Without brackets nothing separates in it, literals apart. -/
theorem unseparated_trim (whole : Whole piece) (start : startsTransposed piece = false)
    (plain : (Text.ofGlyphs piece).marks = []) : (Text.ofGlyphs piece).trim.Unseparated := by
  have glyphs := whole.glyphs_eq start
  obtain ⟨front, back, -, -, split⟩ := exists_glyphs_trim (Text.ofGlyphs piece)
  intro g member free
  have within : g ∈ (Text.ofGlyphs piece).glyphs := by
    rw [split]
    exact List.mem_append_left _ (List.mem_append_right _ member)
  have top := Text.isTop_of_marks_eq_nil plain g within
  rw [free] at top
  exact whole.unseparated g (glyphs ▸ within) top

end Whole

/-- A text that starts with an opening bracket has a bracket outside its literals. -/
theorem Text.marks_ne_nil_of_opens {g : Glyph} {b : Bracket} (opens : g.opens b) (rest : List Glyph) :
    (ofGlyphs (g :: rest)).marks ≠ [] := by
  have opening := Glyph.char_of_opens opens
  intro none
  have first := mark?_of_marks_eq_nil none ⟨g.char, Literal.covers {} g.char, 0⟩ (List.mem_cons_self ..)
  rw [opening] at first
  cases b <;> revert first <;> decide

theorem reading_behind {p : Literal} {depth : Nat} {text : Text} {before rest : List Glyph} {g : Glyph}
    (split : glyphsFrom p depth text = before ++ g :: rest) (free : g.isFree) (nested : Nested [] rest) :
    ∃ previous, glyphsFrom ⟨false, previous⟩ 0 (Text.ofGlyphs rest) = rest := by
  obtain ⟨level, reading⟩ := exists_reading_behind split free
  refine ⟨some g.char, ?_⟩
  cases rest with
  | nil => rfl
  | cons h rest =>
      have depth : h.depth = level := by
        rw [Text.ofGlyphs_cons, glyphsFrom] at reading
        exact congrArg Glyph.depth (List.cons.inj reading).1
      rw [nested.level] at depth
      subst depth
      exact reading.symm

theorem Nested.eq_nil {opened : List Bracket} {g : Glyph} {rest : List Glyph}
    (nested : Nested opened (g :: rest)) (depth : g.depth = 0) : opened = [] :=
  List.length_eq_zero_iff.mp (nested.level ▸ depth)

theorem Nested.rest_of_top {opened : List Bracket} {g : Glyph} {rest : List Glyph}
    (nested : Nested opened (g :: rest)) (top : g.isTop) : Nested [] rest := by
  obtain ⟨-, depth, mark⟩ := Glyph.isTop_iff.mp top
  cases nested.eq_nil depth
  cases nested with
  | plain _ _ behind => exact behind
  | opening _ other =>
      rw [mark] at other
      cases other

/-- Nothing of a group stands outside groups. -/
theorem Closes.not_isTop {b : Bracket} {outer : List Bracket} {gs inside after : List Glyph} {g h : Glyph}
    (closes : Closes b [] outer gs inside h after) (opens : g.opens b) :
    ∀ x ∈ g :: (inside ++ [h]), ¬x.isTop := by
  intro x member top
  obtain ⟨-, depth, mark⟩ := Glyph.isTop_iff.mp top
  rw [List.mem_cons, List.mem_append, List.mem_singleton] at member
  rcases member with rfl | member | rfl
  · rw [Glyph.mark?_opening.mpr opens] at mark
    cases mark
  · have deeper := closes.deeper x member
    omega
  · rw [Glyph.mark?_closing.mpr closes.closes] at mark
    cases mark

/-- What is in front of a place makes a whole piece. -/
theorem whole_front {front rest : List Glyph}
    (reading : ∃ previous, glyphsFrom ⟨false, previous⟩ 0 (Text.ofGlyphs (front.reverse ++ rest)) =
      front.reverse ++ rest)
    (unseparated : ∀ g ∈ front, g.isTop → isSeparator g.char = false) : Whole front.reverse := by
  obtain ⟨previous, reading⟩ := reading
  exact ⟨⟨previous, glyphsFrom_front reading⟩, fun g member => unseparated g (List.mem_reverse.mp member)⟩

/-- Every piece is whole, or it is a group. -/
theorem Parted.whole {family : Bracket} {subscripts : Bool} {front glyphs : List Glyph}
    {pieces : List (List Glyph)} (parted : Parted family subscripts front glyphs pieces)
    {opened : List Bracket} (nested : Nested opened glyphs)
    (reading : ∃ previous, glyphsFrom ⟨false, previous⟩ 0 (Text.ofGlyphs (front.reverse ++ glyphs)) =
      front.reverse ++ glyphs)
    (unseparated : ∀ g ∈ front, g.isTop → isSeparator g.char = false) :
    ∀ piece ∈ pieces, Whole piece ∨ ∃ g rest, piece = g :: rest ∧ g.opens family := by
  induction parted generalizing opened with
  | done front =>
      rw [List.append_nil] at reading
      intro piece member
      obtain rfl := List.mem_singleton.mp member
      exact .inl ⟨reading, fun g member => unseparated g (List.mem_reverse.mp member)⟩
  | @glued front inside after g h pieces opens depth found _ _ ih =>
      cases nested.eq_nil depth
      have closes := nested.closes opens found
      have same : ((g :: (inside ++ [h])).reverse ++ front).reverse ++ after =
          front.reverse ++ g :: (inside ++ h :: after) := by
        simp
      refine ih closes.behind (same ▸ reading) fun x member top => ?_
      rcases List.mem_append.mp member with member | member
      · exact absurd top (closes.not_isTop opens x (List.mem_reverse.mp member))
      · exact unseparated x member top
  | @group front inside after g h pieces opens depth found _ _ ih =>
      cases nested.eq_nil depth
      have closes := nested.closes opens found
      have first := whole_front reading unseparated
      obtain ⟨previous, reading⟩ := reading
      have split : glyphsFrom ⟨false, previous⟩ 0
          (Text.ofGlyphs (front.reverse ++ g :: (inside ++ h :: after))) =
            (front.reverse ++ g :: inside) ++ h :: after := by
        rw [reading, List.append_assoc, List.cons_append]
      have others := ih closes.behind
        (reading_behind split (Bool.and_eq_true_iff.mp closes.closes).1 closes.behind) nofun
      exact List.forall_mem_cons.mpr ⟨.inl first,
        List.forall_mem_cons.mpr ⟨.inr ⟨_, _, rfl, opens⟩, others⟩⟩
  | @separator front rest g pieces top separates _ ih =>
      have first := whole_front reading unseparated
      obtain ⟨previous, reading⟩ := reading
      have behind := nested.rest_of_top top
      exact List.forall_mem_cons.mpr ⟨.inl first,
        ih behind (reading_behind reading (Glyph.isTop_iff.mp top).1 behind) nofun⟩
  | @other front rest g pieces _ apart _ ih =>
      obtain ⟨others, behind⟩ := nested.exists_tail
      have same : (g :: front).reverse ++ rest = front.reverse ++ g :: rest := by simp
      refine ih behind (same ▸ reading) (List.forall_mem_cons.mpr ⟨fun top => ?_, unseparated⟩)
      rwa [top, Bool.true_and] at apart

/-- A piece of the text that does not start with the transpose operator makes the token. -/
def MadeUpright (family : Bracket) (text token : Text) : Prop :=
  ∃ pieces, splitGroups family true [] text.glyphs = some pieces ∧
    ∃ piece ∈ pieces, (Text.ofGlyphs piece).trim = token ∧ startsTransposed piece = false

/-- A token without brackets is decomposed again into what stands between its separators, and that is the
token, unless it stands in front of options or starts with the transpose operator in its chunk. -/
theorem decompose_token {family : Bracket} {chunk token : Text} {tokens : List Text}
    (cut : decompose family true false chunk = .ok tokens) (member : token ∈ tokens)
    (plain : token.marks = []) :
    decompose family true false token = .ok (splitFree isSeparator token) ∧
      (MadeUpright family (chunk.readied true) token →
        decompose family true false token = .ok [token]) := by
  obtain ⟨balanced, pieces, parted, split, rfl⟩ := exists_of_decompose cut
  have trimmed := trimmed_of_decompose cut token member
  have again := decompose_of_marks_eq_nil trimmed plain family true
  refine ⟨again, fun upright => ?_⟩
  obtain ⟨pieces', split', piece, made, rfl, start⟩ := upright
  cases Option.some.inj (split.symm.trans split')
  rw [Text.marks_trim] at plain
  have nested := nested_of_checkBalance balanced
  have reading : ∃ previous, glyphsFrom ⟨false, previous⟩ 0
      (Text.ofGlyphs ([].reverse ++ (chunk.readied true).glyphs)) =
        [].reverse ++ (chunk.readied true).glyphs :=
    ⟨none, by rw [List.reverse_nil, List.nil_append, Text.ofGlyphs_glyphs]; rfl⟩
  rcases parted.whole nested reading nofun piece made with whole | ⟨g, rest, rfl, opens⟩
  · rw [again, splitFree_of_unseparated trimmed (whole.unseparated_trim start plain)]
  · exact absurd plain (Text.marks_ne_nil_of_opens opens rest)

/-- The literal is one token, and it still is when it is decomposed on its own. -/
theorem decompose_token_literal :
    decompose .paren true false "v( 1 ) 'b, c'".toList = .ok ["v(1)".toList, "'b, c'".toList] ∧
      decompose .paren true false "'b, c'".toList = .ok ["'b, c'".toList] := by
  have cut : decompose .paren true false "v( 1 ) 'b, c'".toList =
      .ok ["v(1)".toList, "'b, c'".toList] := by cbv
  have readied : Text.readied true "v( 1 ) 'b, c'".toList = "v(1) 'b, c'".toList := by cbv
  have pieces : splitGroups .paren true [] (Text.glyphs "v(1) 'b, c'".toList) =
      some [Text.glyphs "v(1)".toList, Text.glyphs "'b, c'".toList] := by cbv
  refine ⟨cut, (decompose_token cut (List.mem_cons_of_mem _ (List.mem_singleton_self _)) rfl).2 ?_⟩
  exact ⟨_, readied ▸ pieces, _, List.mem_cons_of_mem _ (List.mem_singleton_self _), by cbv, by cbv⟩

/-- The text in front of options is one token, and it is two when it is decomposed on its own. A quote directly
behind a group transposes it, and the piece it starts reads the quote as the start of a literal. -/
theorem decompose_token_apart :
    (decompose .paren true false "a b, \x7bc\x7d".toList = .ok ["a b".toList, "\x7bc\x7d".toList] ∧
      Text.marks "a b".toList = [] ∧
        decompose .paren true false "a b".toList ≠ .ok ["a b".toList]) ∧
      decompose .paren true false "(a+b)'x='c d'".toList = .ok ["(a+b)".toList, "'x='c d'".toList] ∧
        Text.marks "'x='c d'".toList = [] ∧
          decompose .paren true false "'x='c d'".toList ≠ .ok ["'x='c d'".toList] := by
  have options : decompose .paren true false "a b, \x7bc\x7d".toList =
      .ok ["a b".toList, "\x7bc\x7d".toList] := by cbv
  have words : decompose .paren true false "a b".toList = .ok ["a".toList, "b".toList] := by cbv
  have behind : decompose .paren true false "(a+b)'x='c d'".toList =
      .ok ["(a+b)".toList, "'x='c d'".toList] := by decide +kernel
  have transposed : decompose .paren true false "'x='c d'".toList =
      .ok ["'x='c".toList, "d'".toList] := by decide +kernel
  have unmarked : Text.marks "a b".toList = [] ∧ Text.marks "'x='c d'".toList = [] := by decide
  refine ⟨⟨options, unmarked.1, fun again => ?_⟩, behind, unmarked.2, fun again => ?_⟩
  · exact absurd (Except.ok.inj (words.symm.trans again)) (by decide)
  · exact absurd (Except.ok.inj (transposed.symm.trans again)) (by decide)

end MissionScript
