import MissionScript.Proofs.Bracket.Part
import MissionScript.Proofs.Bytewise.Scan
import MissionScript.Proofs.Renaming.Expression

/-!
# Expressions by offsets

The indices of an array element and the argument of a call stand between two parentheses, which are one byte
each; a number or a name ends where the next character starts.
-/

namespace MissionScript

namespace Bytewise

/-! ### Operands -/

/-- Read an operand. -/
def operand (source : Text) : ExceptT OperandError Option Operand :=
  let text := source.trim
  match text.head? with
  | none => throw .missing
  | some c =>
    if startsNumber c then
      match Decimal.read? text with
      | some value => return .number value
      | none => throw (.badNumber text)
    else if text.getLast? == some ')' then do
      match ← scan .paren text 0 with
      | .matched first last _ =>
        if last + 1 != text.bytes then throw (.unbalanced text)
        else
          let array ← text.slice? ⟨0, first⟩
          if !array.isIdentifier then throw (.badArrayName array)
          else
            match _inner : text.slice? ⟨first + 1, last⟩ with
            | none => none
            | some indices =>
              match _cut : indices.cutAt ',' with
              | some (row, column) => return .cell array (← operand row) (← operand column)
              | none => return .element array (← operand indices)
      | _ => throw (.unbalanced text)
    else given (Operand.ofName text)
termination_by source.length
decreasing_by
  all_goals
    have inner := Text.length_of_slice? _inner (Nat.succ_pos _)
    have outer : text.length ≤ source.length := Text.length_trim_le source
  · have := (Text.length_of_cutAt _cut).1
    omega
  · have := (Text.length_of_cutAt _cut).2
    omega
  · omega

theorem operand_eq (source : Text) : operand source = given (Operand.parse source) := by
  rw [operand, Operand.parse]
  cases source.trim.head? with
  | none => rfl
  | some c =>
      dsimp only
      rw [startsNumber]
      split
      · cases Decimal.read? source.trim <;> rfl
      split
      · rw [scan_eq, lift_some, given_ok_bind]
        cases found : Bracket.paren.scan source.trim 0 with
        | notFound => rfl
        | unmatched before => rfl
        | matched group =>
            have inner := slice_content found
            have last := closeOffset_eq_iff found
            dsimp only [Scan.offsets]
            rw [slice_before found, lift_some, given_ok_bind]
            have ends : (group.closeOffset + 1 != source.trim.bytes) = !group.after.isEmpty := by
              rw [Bool.eq_iff_iff, bne_iff_ne, Bool.not_eq_true', ne_eq, last]
              simp
            rw [ends]
            split
            · rfl
            split
            · rfl
            have shorter := Bracket.length_content_of_scan found
            have outer := Text.length_trim_le source
            generalize source.trim.slice? _ = cut at inner
            subst inner
            dsimp only
            cases cut : Text.cutAt ',' group.content with
            | none =>
                dsimp only
                rw [operand_eq group.content]
                exact given_bind _ fun _ _ => rfl
            | some sides =>
                obtain ⟨row, column⟩ := sides
                obtain ⟨left, right⟩ := Text.length_of_cutAt cut
                dsimp only
                rw [operand_eq row, operand_eq column]
                exact given_bind _ fun _ _ => given_bind _ fun _ _ => rfl
      · rfl
termination_by source.length
decreasing_by all_goals omega

end Bytewise

/-! ### Outside literals -/

/-- No literal is open in front of the glyphs. -/
def Outside (gs : List Glyph) : Prop :=
  ∃ (p : Literal) (depth : Nat), p.inside = false ∧ gs = glyphsFrom p depth (Text.ofGlyphs gs)

section Outside

variable {g : Glyph} {front rest : List Glyph}

theorem outside_glyphs (text : Text) : Outside text.glyphs :=
  ⟨{}, 0, rfl, by rw [Text.ofGlyphs_glyphs]; rfl⟩

/-- Only a quote opens a literal. -/
theorem Outside.free (outside : Outside (g :: rest)) (plain : g.char ≠ '\'') : g.isFree := by
  obtain ⟨p, depth, closed, same⟩ := outside
  rw [Text.ofGlyphs_cons, glyphsFrom] at same
  rw [(List.cons.inj same).1]
  simp [Glyph.isFree, Literal.covers, closed, plain]

/-- No literal is open behind a glyph outside literals. -/
theorem Outside.behind (outside : Outside (front ++ g :: rest)) (free : g.isFree) : Outside rest := by
  obtain ⟨p, depth, -, same⟩ := outside
  obtain ⟨level, reading⟩ := exists_reading_behind same.symm free
  exact ⟨_, level, rfl, reading⟩

theorem Outside.append (outside : Outside (front ++ rest)) (plain : ∀ g ∈ front, g.char ≠ '\'') :
    Outside rest := by
  induction front with
  | nil => exact outside
  | cons g front ih =>
      obtain ⟨here, below⟩ := List.forall_mem_cons.mp plain
      have behind : Outside (front ++ rest) := @Outside.behind g [] _ outside (outside.free here)
      exact ih behind below

end Outside

/-! ### Places -/

/-- The characters of a text with their byte offsets, the first of them at `offset`. -/
def placesFrom : (offset : Nat) → Text → List (Nat × Char)
  | _, [] => []
  | offset, c :: text => (offset, c) :: placesFrom (offset + c.utf8Size) text

section Places

variable {offset last : Nat} {c : Char} {text left right : Text}

/-- Passing over the characters up to one of them. -/
theorem dropWhile_placesFrom_le (offset : Nat) (left : Text) (c : Char) (right : Text) :
    (placesFrom offset (left ++ c :: right)).dropWhile (·.1 ≤ offset + left.bytes) =
      placesFrom (offset + left.bytes + c.utf8Size) right := by
  induction left generalizing offset with
  | nil =>
      have size := c.utf8Size_pos
      rw [List.nil_append, placesFrom, Text.bytes_nil, Nat.add_zero, List.dropWhile_cons_of_pos (by simp)]
      cases right with
      | nil => rfl
      | cons d right =>
          refine List.dropWhile_cons_of_neg ?_
          simp only [decide_eq_true_eq]
          omega
  | cons d left ih =>
      rw [List.cons_append, placesFrom, List.dropWhile_cons_of_pos (by simp), Text.bytes_cons, ← Nat.add_assoc]
      exact ih (offset + d.utf8Size)

/-- Passing over a name and a group. -/
theorem passGroup_placesFrom (offset : Nat) (fields : List Glyph) {first : Glyph} {b : Bracket}
    (opens : first.opens b) (inside : List Glyph) (h : Glyph) (after : List Glyph) :
    (placesFrom offset (Text.ofGlyphs (fields ++ first :: (inside ++ h :: after)))).dropWhile
        (·.1 ≤ offset + (Text.ofGlyphs fields).bytes + 1 + (Text.ofGlyphs inside).bytes) =
      placesFrom (offset + (Text.ofGlyphs (fields ++ first :: (inside ++ [h]))).bytes) (Text.ofGlyphs after) := by
  have passed := dropWhile_placesFrom_le offset (Text.ofGlyphs (fields ++ first :: inside)) h.char
    (Text.ofGlyphs after)
  have whole : Text.ofGlyphs (fields ++ first :: inside) ++ h.char :: Text.ofGlyphs after =
      Text.ofGlyphs (fields ++ first :: (inside ++ h :: after)) := by simp [Text.ofGlyphs]
  have group : fields ++ first :: (inside ++ [h]) = (fields ++ first :: inside) ++ [h] := by simp
  have close : (Text.ofGlyphs (fields ++ first :: inside)).bytes =
      (Text.ofGlyphs fields).bytes + (1 + (Text.ofGlyphs inside).bytes) := by
    rw [Text.bytes_ofGlyphs_append, Text.bytes_ofGlyphs_cons, Bracket.utf8Size_of_opens opens]
  rw [group, Text.bytes_ofGlyphs_concat]
  rw [whole, Nat.add_assoc offset] at passed
  rw [← passed, close]
  simp only [Nat.add_assoc]

end Places

namespace Bytewise

/-! ### Tokens -/

/-- What is left of the places behind the characters of a number that follow `previous`. -/
def dropNumber (previous : Char) : List (Nat × Char) → List (Nat × Char)
  | [] => []
  | (i, c) :: rest =>
    let sign := (c == '+' || c == '-') && (previous == 'e' || previous == 'E')
    if c.isAlphanum || c == '.' || sign then dropNumber c rest else (i, c) :: rest

theorem length_dropNumber_le (previous : Char) (places : List (Nat × Char)) :
    (dropNumber previous places).length ≤ places.length := by
  induction places generalizing previous with
  | nil => exact Nat.le_refl 0
  | cons place places ih =>
      rw [dropNumber]
      split
      · exact Nat.le_succ_of_le (ih _)
      · exact Nat.le_refl _

/-- The slice from `start` up to the first of the places that are left. -/
def sliceTo (text : Text) (start : Nat) (left : List (Nat × Char)) : Option Text :=
  text.slice? ⟨start, (left.head?.map (·.1)).getD text.bytes⟩

/-- The token of a name that stands at `start` and of the group that `opening` starts, and where the group
ends. -/
def groupToken (text : Text) (start : Nat) (name : Text) (opening : Nat) :
    ExceptT ExpressionError Option (Token × Nat) := do
  match ← scan .paren text opening with
  | .matched first last _ =>
    let inside ← text.slice? ⟨first + 1, last⟩
    match MathFunction.ofName? name with
    | some function => return (.call function inside, last)
    | none => return (.operand (← text.slice? ⟨start, last + 1⟩), last)
  | _ => throw (.unmatchedParenthesis text)

/-- The tokens of the places. `literal` knows the characters that tokens start with. -/
def tokensFrom (text : Text) (literal : Literal) (places : List (Nat × Char)) :
    ExceptT ExpressionError Option (List Token) :=
  match places with
  | [] => return []
  | (i, c) :: rest =>
    if literal.covers c then throw (.stringValue text)
    else if isBlank c then tokensFrom text (literal.step c) rest
    else if let some token := Token.ofChar? c then do
      return token :: (← tokensFrom text (literal.step c) rest)
    else if startsNumber c then do
      let behind := dropNumber c rest
      let number ← sliceTo text i behind
      return .operand number :: (← tokensFrom text (literal.step c) behind)
    else if startsName c then do
      let behind := rest.dropWhile fun place => isNameChar place.2
      let name ← sliceTo text i behind
      match behind.head?.filter (·.2 == '(') with
      | some (opening, _) =>
        let (token, last) ← groupToken text i name opening
        return token :: (← tokensFrom text (literal.step c) (rest.dropWhile (·.1 ≤ last)))
      | none => return .operand name :: (← tokensFrom text (literal.step c) behind)
    else throw (.unexpectedCharacter c text)
termination_by places.length
decreasing_by
  · simp
  · simp
  · have := length_dropNumber_le c rest
    simp only [List.length_cons]
    omega
  · have := (List.dropWhile_sublist (l := rest) fun place => decide (place.1 ≤ last)).length_le
    simp only [List.length_cons]
    omega
  · have := (List.dropWhile_sublist (l := rest) fun place => isNameChar place.2).length_le
    simp only [List.length_cons]
    omega

/-- The tokens of a text. -/
def tokenize (text : Text) : ExceptT ExpressionError Option (List Token) :=
  tokensFrom text {} (placesFrom 0 text)

section Tokens

variable {text : Text} {done piece rest : List Glyph}

/-- What has been read of a text ends where the next of its places is. -/
theorem sliceTo_eq (read : text.Read done piece rest) :
    sliceTo text (Text.ofGlyphs done).bytes
        (placesFrom ((Text.ofGlyphs done).bytes + (Text.ofGlyphs piece).bytes) (Text.ofGlyphs rest)) =
      some (Text.ofGlyphs piece) := by
  have slice := read.slice
  cases rest with
  | nil =>
      have size := congrArg Text.bytes read.text_eq
      rw [Text.bytes_append, Text.bytes_append, Text.bytes_ofGlyphs_nil, Nat.add_zero] at size
      rw [← size] at slice
      exact slice
  | cons g rest => exact slice

theorem dropName_placesFrom (offset : Nat) {fields after : List Glyph} (named : ∀ h ∈ fields, isNameChar h.char)
    (ends : ∀ h ∈ after.head?, isNameChar h.char = false) :
    (placesFrom offset (Text.ofGlyphs (fields ++ after))).dropWhile (fun place => isNameChar place.2) =
      placesFrom (offset + (Text.ofGlyphs fields).bytes) (Text.ofGlyphs after) := by
  induction fields generalizing offset with
  | nil =>
      cases after with
      | nil => rfl
      | cons next more => exact List.dropWhile_cons_of_neg (by simp [ends next rfl])
  | cons g fields ih =>
      obtain ⟨here, below⟩ := List.forall_mem_cons.mp named
      rw [List.cons_append, Text.ofGlyphs_cons, placesFrom,
        List.dropWhile_cons_of_pos (p := fun place : Nat × Char => isNameChar place.2) here, ih _ below,
        Text.bytes_ofGlyphs_cons, Nat.add_assoc]

theorem unquoted_of_numberLength (previous : Char) (gs : List Glyph) :
    ∀ h ∈ gs.take (numberLength previous gs), h.char ≠ '\'' := by
  induction gs generalizing previous with
  | nil => simp
  | cons g gs ih =>
      rw [numberLength]
      split
      · rename_i belongs
        rw [List.take_succ_cons]
        refine List.forall_mem_cons.mpr ⟨fun quote => ?_, ih g.char⟩
        rw [quote] at belongs
        simp at belongs
      · simp

theorem dropNumber_placesFrom (previous : Char) (offset : Nat) (gs : List Glyph) :
    dropNumber previous (placesFrom offset (Text.ofGlyphs gs)) =
      placesFrom (offset + (Text.ofGlyphs (gs.take (numberLength previous gs))).bytes)
        (Text.ofGlyphs (gs.drop (numberLength previous gs))) := by
  induction gs generalizing previous offset with
  | nil => rfl
  | cons g gs ih =>
      rw [Text.ofGlyphs_cons, placesFrom, dropNumber, numberLength]
      split
      · rw [ih, List.take_succ_cons, List.drop_succ_cons, Text.bytes_ofGlyphs_cons, Nat.add_assoc]
      · rfl

theorem groupToken_eq {next : Glyph} {more : List Glyph} (read : text.Read done piece (next :: more))
    (opens : next.opens .paren) :
    groupToken text (Text.ofGlyphs done).bytes (Text.ofGlyphs piece)
        ((Text.ofGlyphs done).bytes + (Text.ofGlyphs piece).bytes) =
      given (match Bracket.paren.splitClosing 0 more with
        | none => .error (.unmatchedParenthesis text)
        | some (inside, _) =>
          .ok (MissionScript.groupToken (Text.ofGlyphs piece) (Text.ofGlyphs inside),
            (Text.ofGlyphs done).bytes + (Text.ofGlyphs piece).bytes + 1 + (Text.ofGlyphs inside).bytes)) := by
  have whole : text.glyphs = (done ++ piece) ++ next :: more := by rw [read.whole, List.append_assoc]
  have found := scan_at whole opens
  rw [Text.bytes_ofGlyphs_append] at found
  rw [groupToken, scan_eq, lift_some, given_ok_bind, found]
  cases closes : Bracket.paren.splitClosing 0 more with
  | none => rfl
  | some cut =>
      obtain ⟨inside, after⟩ := cut
      obtain ⟨h, closing, rfl⟩ := Bracket.append_of_splitClosing closes
      rw [closes] at found
      have first : (Group.mk (done ++ piece) inside after).openOffset =
          (Text.ofGlyphs done).bytes + (Text.ofGlyphs piece).bytes := Text.bytes_ofGlyphs_append ..
      have content := slice_content found
      have group : text.Read done (piece ++ next :: (inside ++ [h])) after :=
        ⟨by rw [read.whole]; simp⟩
      have slice := group.slice
      rw [Text.bytes_ofGlyphs_append, Text.bytes_ofGlyphs_cons, Text.bytes_ofGlyphs_concat,
        Bracket.utf8Size_of_opens opens, Bracket.utf8Size_of_closes closing, ← Nat.add_assoc, ← Nat.add_assoc,
        ← Nat.add_assoc] at slice
      have parts : Text.ofGlyphs (piece ++ next :: (inside ++ [h])) =
          Text.ofGlyphs piece ++ '(' :: Text.ofGlyphs inside ++ [')'] := by
        simp [Text.ofGlyphs, Glyph.char_of_opens opens, Glyph.char_of_closes closing, Bracket.opening,
          Bracket.closing]
      dsimp only [Scan.offsets]
      rw [content, Group.closeOffset, first, slice, parts, MissionScript.groupToken]
      cases MathFunction.ofName? (Text.ofGlyphs piece) <;> rfl

section Words

variable {literal : Literal} {g : Glyph}

/-- Behind some of the glyphs, reading goes on without a fault. The last token started with `c`. -/
def GoesOn (text : Text) (literal : Literal) (c : Char) (done gs : List Glyph) : Prop :=
  ∀ front behind : List Glyph, gs = front ++ behind → behind.length < gs.length → Outside behind →
    tokensFrom text (literal.step c)
        (placesFrom ((Text.ofGlyphs done).bytes + (Text.ofGlyphs front).bytes) (Text.ofGlyphs behind)) =
      given (MissionScript.tokensFrom text (some c) behind)

theorem covers_of_isNameChar (closed : literal.inside = false) {c : Char} (named : isNameChar c) :
    literal.covers c = false := by
  rw [Literal.covers, closed, quote_of_isNameChar named]
  rfl

theorem tokensFrom_of_number (read : text.Read done [] (g :: rest)) (outside : Outside (g :: rest))
    (closed : literal.inside = false) (goesOn : GoesOn text literal g.char done (g :: rest))
    (number : startsNumber g.char) :
    tokensFrom text literal (placesFrom (Text.ofGlyphs done).bytes (Text.ofGlyphs (g :: rest))) =
      given (MissionScript.tokensFrom text literal.previous (g :: rest)) := by
  have named := isNameChar_of_startsNumber number
  have plain : ∀ h ∈ g :: rest.take (numberLength g.char rest), h.char ≠ '\'' :=
    List.forall_mem_cons.mpr ⟨ne_of_beq_false (quote_of_isNameChar named), unquoted_of_numberLength g.char rest⟩
  have whole : g :: rest = g :: rest.take (numberLength g.char rest) ++ rest.drop (numberLength g.char rest) := by
    rw [List.cons_append, List.take_append_drop]
  have next := outside
  rw [whole] at read next
  have further := goesOn _ _ whole (by rw [List.length_drop, List.length_cons]; omega) (next.append plain)
  have slice := sliceTo_eq (Text.Read.taken read)
  rw [Text.bytes_ofGlyphs_cons, ← Nat.add_assoc] at further slice
  rw [Text.ofGlyphs_cons, placesFrom, tokensFrom, covers_of_isNameChar closed named,
    if_neg Bool.false_ne_true, isBlank_of_isNameChar named, if_neg Bool.false_ne_true, ofChar?_of_isNameChar named]
  dsimp only
  rw [if_pos number, tokensFrom_number number, ← given_map, dropNumber_placesFrom, further, slice]
  rfl

theorem tokensFrom_of_name (read : text.Read done [] (g :: rest)) (outside : Outside (g :: rest))
    (closed : literal.inside = false) (goesOn : GoesOn text literal g.char done (g :: rest))
    (name : startsName g.char) :
    tokensFrom text literal (placesFrom (Text.ofGlyphs done).bytes (Text.ofGlyphs (g :: rest))) =
      given (MissionScript.tokensFrom text literal.previous (g :: rest)) := by
  have letter := isNameChar_of_startsName name
  obtain ⟨fields, after, rfl, named, ends⟩ := exists_name rest
  have plain : ∀ h ∈ g :: fields, h.char ≠ '\'' :=
    List.forall_mem_cons.mpr ⟨ne_of_beq_false (quote_of_isNameChar letter), fun h member =>
      ne_of_beq_false (quote_of_isNameChar (named h member))⟩
  have next : Outside ((g :: fields) ++ after) := outside
  have next := next.append plain
  have word := @Text.Read.taken text done after (g :: fields) read
  have behind := dropName_placesFrom ((Text.ofGlyphs done).bytes + g.char.utf8Size) named ends
  rw [Nat.add_assoc, ← Text.bytes_ofGlyphs_cons] at behind
  have goes := goesOn (g :: fields) after rfl (by rw [List.length_cons, List.length_append]; omega) next
  rw [Text.ofGlyphs_cons, placesFrom, tokensFrom, covers_of_isNameChar closed letter,
    if_neg Bool.false_ne_true, isBlank_of_isNameChar letter, if_neg Bool.false_ne_true,
    ofChar?_of_isNameChar letter]
  dsimp only
  rw [startsNumber_of_startsName name, if_neg Bool.false_ne_true, if_pos name, behind, sliceTo_eq word,
    lift_some, given_ok_bind]
  cases after with
  | nil =>
      rw [MissionScript.tokensFrom] at goes
      rw [List.append_nil, tokensFrom_end name named, goes]
      rfl
  | cons first more =>
      by_cases paren : first.char = '('
      · have free := next.free (by rw [paren]; decide)
        have opens : first.opens .paren := by simp [Glyph.opens, free, paren, Bracket.opening]
        rw [Text.ofGlyphs_cons first, placesFrom, List.head?_cons, paren, Option.filter_some_pos rfl]
        dsimp only
        rw [groupToken_eq word opens]
        cases closes : Bracket.paren.splitClosing 0 more with
        | none =>
            rw [tokensFrom_unclosed name named paren closes]
            rfl
        | some cut =>
            obtain ⟨inside, after⟩ := cut
            rw [tokensFrom_group name named paren closes, ← given_map, given_ok_bind]
            obtain ⟨last, closing, rfl⟩ := Bracket.append_of_splitClosing closes
            have free := (Bool.and_eq_true_iff.mp closing).1
            have behind : Outside after := @Outside.behind last (first :: inside) after next free
            have further := goesOn ((g :: fields) ++ first :: (inside ++ [last])) after (by simp)
              (by simp only [List.length_append, List.length_cons]; omega) behind
            rw [List.cons_append, Text.bytes_ofGlyphs_cons, ← Nat.add_assoc] at further
            have passed := passGroup_placesFrom ((Text.ofGlyphs done).bytes + g.char.utf8Size) fields
              opens inside last after
            rw [Text.bytes_ofGlyphs_cons, ← Nat.add_assoc, ← further]
            dsimp only
            rw [passed]
            rfl
      · rw [tokensFrom_name name named (ends first rfl) paren, ← given_map, ← goes,
          Text.ofGlyphs_cons first, placesFrom, List.head?_cons,
          Option.filter_some_neg (by simpa using paren)]
        rfl

end Words

/-- Reading tokens at offsets outside literals is never at fault. -/
theorem tokensFrom_eq {literal : Literal} {done gs : List Glyph} (read : text.Read done [] gs)
    (outside : Outside gs) (closed : literal.inside = false) :
    tokensFrom text literal (placesFrom (Text.ofGlyphs done).bytes (Text.ofGlyphs gs)) =
      given (MissionScript.tokensFrom text literal.previous gs) := by
  cases gs with
  | nil =>
      rw [MissionScript.tokensFrom, show Text.ofGlyphs [] = [] from rfl, placesFrom, tokensFrom]
      rfl
  | cons g rest =>
      have opened : literal.covers g.char = (g.char == '\'' && Literal.opensAfter literal.previous) := by
        rw [Literal.covers, closed, Bool.false_or]
      by_cases covered : literal.covers g.char
      · rw [Text.ofGlyphs_cons, placesFrom, tokensFrom, if_pos covered, MissionScript.tokensFrom,
          if_pos (opened ▸ covered)]
        rfl
      have goesOn : GoesOn text literal g.char done (g :: rest) := by
        intro front behind whole shorter outside
        rw [whole] at read
        rw [← Text.bytes_ofGlyphs_append]
        exact tokensFrom_eq read.behind outside (by simp [Literal.step, covered])
      -- the token of one character, or a blank
      have single (plain : g.char ≠ '\'') := goesOn [g] rest rfl (Nat.lt_succ_self _)
        (@Outside.append [g] rest outside (by simpa using plain))
      by_cases number : startsNumber g.char
      · exact tokensFrom_of_number read outside closed goesOn number
      by_cases name : startsName g.char
      · exact tokensFrom_of_name read outside closed goesOn name
      rw [Text.ofGlyphs_cons, placesFrom, tokensFrom, if_neg covered]
      by_cases blank : isBlank g.char
      · rw [if_pos blank, tokensFrom_blank blank]
        exact single (ne_of_isBlank blank (by decide))
      rw [if_neg blank]
      cases made : Token.ofChar? g.char with
      | some token =>
          have further := single fun quote => by
            rw [quote] at made
            cases made
          rw [tokensFrom_char made, ← given_map, ← further]
          rfl
      | none =>
          rw [if_neg number, if_neg name, MissionScript.tokensFrom, if_neg (opened ▸ covered), if_neg blank, made]
          rw [startsNumber] at number
          rw [startsName] at name
          dsimp only
          rw [if_neg number, if_neg name]
          rfl
termination_by gs.length
decreasing_by
  subst_vars
  exact shorter

theorem tokenize_eq (text : Text) : tokenize text = given (MissionScript.tokenize text) := by
  have tokens := tokensFrom_eq (Text.Read.start text) (outside_glyphs text) (rfl : ({} : Literal).inside = false)
  rwa [Text.ofGlyphs_glyphs] at tokens

end Tokens

/-! ### Expressions -/

mutual

/-- Read a whole text. -/
def expression (text : Text) : ExceptT ExpressionError Option Expression :=
  match _cut : tokenize text with
  | none => none
  | some (.error e) => throw e
  | some (.ok tokens) => do
    match ← readAt 0 tokens with
    | (e, ⟨[], _⟩) => return e
    | (_, ⟨_ :: _, _⟩) => throw (.trailing text)
termination_by (text.length, 3)
decreasing_by
  have cut := weights_of_tokenize (Option.some.inj ((tokenize_eq text).symm.trans _cut))
  simp only [Prod.lex_def]
  omega

/-- Read an expression whose operators have at least the left strength `least`. -/
def readAt (least : Nat) (tokens : List Token) : ExceptT ExpressionError Option (ReadFrom tokens) := do
  let (e, ⟨rest, lt⟩) ← readOperand tokens
  return ReadUpTo.after lt (← readOperators least e rest)
termination_by (Token.weights tokens, 2)
decreasing_by
  · exact Prod.Lex.right _ (by decide)
  · exact Prod.Lex.left _ _ lt

/-- Read a signed, grouped or single operand. -/
def readOperand (tokens : List Token) : ExceptT ExpressionError Option (ReadFrom tokens) :=
  match tokens with
  | [] => throw .unexpectedEnd
  | .operand text :: rest => do
    return (.operand (← ExceptT.adapt .operand (operand text)), ⟨rest, Token.weights_lt_cons _ _⟩)
  | .call function argument :: rest => do
    return (.call function (← expression argument), ⟨rest, Token.weights_lt_cons _ _⟩)
  | .minus :: rest => do
    return (ReadFrom.within (Token.weights_le_cons _ _) (← readAt signStrength rest)).map .negate id
  | .operator .add :: rest => do
    return ReadFrom.within (Token.weights_le_cons _ _) (← readAt signStrength rest)
  | .openParen :: rest => do
    match ← readAt 0 rest with
    | (e, ⟨.closeParen :: rest, lt⟩) => return (e, ⟨rest, Token.weights_lt_cons_of_cons_lt lt⟩)
    | _ => throw .expectedClose
  | .operator op :: _ => throw (.unexpectedOperator op)
  | .closeParen :: _ => throw .unexpectedClose
termination_by (Token.weights tokens, 1)
decreasing_by
  all_goals simp [Prod.lex_def, Token.weight]
  all_goals omega

/-- Read on after the operand `left`. -/
def readOperators (least : Nat) (left : Expression) (tokens : List Token) :
    ExceptT ExpressionError Option (ReadUpTo tokens) :=
  match tokens with
  | [] => return .stop left []
  | token :: rest =>
    match token.between? with
    | none => return .stop left (token :: rest)
    | some op =>
      if op.leftStrength < least then return .stop left (token :: rest)
      else do
        let (right, ⟨following, lt⟩) ← readAt op.rightStrength rest
        return ReadUpTo.within (Nat.le_of_lt (Token.weights_lt_cons_of_lt lt))
          (← readOperators least (.binary op left right) following)
termination_by (Token.weights tokens, 0)
decreasing_by
  · exact Prod.Lex.left _ _ (Token.weights_lt_cons _ _)
  · exact Prod.Lex.left _ _ (Token.weights_lt_cons_of_lt lt)

end

mutual

theorem expression_eq (text : Text) : expression text = given (Expression.parse text) := by
  have tokens := tokenize_eq text
  rw [expression, Expression.parse]
  generalize tokenize text = found at tokens
  subst tokens
  cases cut : MissionScript.tokenize text with
  | error e => rfl
  | ok tokens =>
      have light := weights_of_tokenize cut
      dsimp only [given, ExceptT.mk]
      rw [readAt_eq 0 tokens]
      cases MissionScript.readAt 0 tokens with
      | error e => rfl
      | ok read =>
          obtain ⟨e, rest, lt⟩ := read
          cases rest <;> rfl
termination_by (text.length, 3)
decreasing_by
  simp only [Prod.lex_def]
  omega

theorem readAt_eq (least : Nat) (tokens : List Token) :
    readAt least tokens = given (MissionScript.readAt least tokens) := by
  rw [readAt, MissionScript.readAt, readOperand_eq tokens]
  cases MissionScript.readOperand tokens with
  | error e => rfl
  | ok read =>
      obtain ⟨e, rest, lt⟩ := read
      rw [given_ok_bind]
      dsimp only
      rw [readOperators_eq least e rest]
      exact given_map _ _
termination_by (Token.weights tokens, 2)
decreasing_by
  · exact Prod.Lex.right _ (by decide)
  · exact Prod.Lex.left _ _ lt

theorem readOperand_eq (tokens : List Token) :
    readOperand tokens = given (MissionScript.readOperand tokens) := by
  cases tokens with
  | nil =>
      rw [readOperand, MissionScript.readOperand]
      rfl
  | cons token rest =>
      cases token with
      | operand text =>
          rw [readOperand, MissionScript.readOperand, operand_eq, adapt_given]
          cases Operand.parse text <;> rfl
      | call function argument =>
          rw [readOperand, MissionScript.readOperand, expression_eq argument]
          cases Expression.parse argument <;> rfl
      | minus =>
          rw [readOperand, MissionScript.readOperand, readAt_eq signStrength rest]
          exact given_map _ _
      | openParen =>
          rw [readOperand, MissionScript.readOperand, readAt_eq 0 rest]
          cases MissionScript.readAt 0 rest with
          | error e => rfl
          | ok read =>
              obtain ⟨e, following, lt⟩ := read
              cases following with
              | nil => rfl
              | cons next following => cases next <;> rfl
      | closeParen =>
          rw [readOperand, MissionScript.readOperand]
          rfl
      | operator op =>
          cases op with
          | add =>
              rw [readOperand, MissionScript.readOperand, readAt_eq signStrength rest]
              exact given_map _ _
          | _ =>
              rw [readOperand, MissionScript.readOperand]
              · rfl
              all_goals nofun
termination_by (Token.weights tokens, 1)
decreasing_by
  all_goals simp [Prod.lex_def, Token.weight]
  all_goals omega

theorem readOperators_eq (least : Nat) (left : Expression) (tokens : List Token) :
    readOperators least left tokens = given (MissionScript.readOperators least left tokens) := by
  cases tokens with
  | nil =>
      rw [readOperators, MissionScript.readOperators]
      rfl
  | cons token rest =>
      rw [readOperators, MissionScript.readOperators]
      cases token.between? with
      | none => rfl
      | some op =>
          dsimp only
          split
          · rfl
          · rw [readAt_eq op.rightStrength rest]
            cases MissionScript.readAt op.rightStrength rest with
            | error e => rfl
            | ok read =>
                obtain ⟨right, following, lt⟩ := read
                rw [given_ok_bind]
                dsimp only
                rw [readOperators_eq least (.binary op left right) following]
                exact given_map _ _
termination_by (Token.weights tokens, 0)
decreasing_by
  · exact Prod.Lex.left _ _ (Token.weights_lt_cons _ _)
  · exact Prod.Lex.left _ _ (Token.weights_lt_cons_of_lt lt)

end

end Bytewise

end MissionScript
