import MissionScript.Proofs.Bracket.Nested
import MissionScript.Proofs.Bracket.Part
import MissionScript.Script.Split

/-!
# What is decomposed

A chunk is decomposed exactly if the brackets of its text are balanced: no scan that follows the check runs
off the end of the text. A group that is stripped has balanced contents, although its literals are read anew.
-/

namespace MissionScript

/-- The text of a chunk that is checked and cut: trimmed, and with its groups closed up if subscripts are to
be found. -/
def Text.readied (subscripts : Bool) (chunk : Text) : Text :=
  if subscripts then removeInnerBlanks [.paren, .square] chunk.trim else chunk.trim

/-- The text without the group of the family around the whole of it. -/
def Text.stripped (family : Bracket) (strip : Bool) (text : Text) : Text :=
  match strip, family.scan text 0 with
  | true, .matched group => if group.isOuter then group.content.trim else text
  | _, _ => text

theorem Text.stripped_false (family : Bracket) (text : Text) : text.stripped family false = text := by
  unfold stripped
  split
  · rename_i strip _
    cases strip
  · rfl

section Scan

variable {text : Text} {family : Bracket}

/-- In a text with balanced brackets every group that is opened is closed. -/
theorem scan_ne_unmatched (balanced : checkBalance text = .ok ()) (start : Nat) (before : List Glyph) :
    family.scan text start ≠ .unmatched before := by
  intro unmatched
  have nested := nested_of_checkBalance balanced
  have scans := family.scans_scanGlyphs start text.glyphs
  rw [show family.scanGlyphs start text.glyphs = .unmatched before from unmatched] at scans
  cases scans with
  | unmatched _ whole opens endless =>
      rw [whole] at nested
      obtain ⟨opened, behind⟩ := nested.exists_of_append
      exact behind.splitClosing_ne_none opens endless

/-- The contents of a group have balanced brackets when they are read on their own. -/
theorem checkBalance_content (balanced : checkBalance text = .ok ()) {start : Nat} {group : Group}
    (found : family.scan text start = .matched group) : checkBalance group.content.trim = .ok () := by
  have nested := nested_of_checkBalance balanced
  have scans := family.scans_scanGlyphs start text.glyphs
  rw [show family.scanGlyphs start text.glyphs = .matched group from found] at scans
  cases scans with
  | matched _ whole opens _ closing =>
      have marks := marks_behind_opening whole opens
      rw [whole] at nested
      obtain ⟨opened, behind⟩ := nested.exists_of_append
      obtain ⟨_, closes⟩ := behind.closes_of_splitClosing opens closing
      rw [checkBalance_eq_ok_iff, Text.marks_trim, Group.content, marks]
      exact wordFault_eq_none_iff.mp closes.sound

theorem checkBalance_stripped (balanced : checkBalance text = .ok ()) (family : Bracket)
    (strip : Bool) : checkBalance (text.stripped family strip) = .ok () := by
  unfold Text.stripped
  split
  · split
    · exact checkBalance_content balanced ‹_›
    · exact balanced
  · exact balanced

end Scan

/-! ### Cutting at groups -/

/-- The characters between the pieces of a text. -/
def isSeparator (c : Char) : Bool := isBlank c || c == ','

/-- How glyphs are cut into pieces at separators and at groups of the family. What has been read of the first
piece stands in front, its last glyph first. -/
inductive Parted (family : Bracket) (subscripts : Bool) :
    List Glyph → List Glyph → List (List Glyph) → Prop where
  | done (piece : List Glyph) : Parted family subscripts piece [] [piece.reverse]
  /-- The group is a subscript of the piece. -/
  | glued {piece inside after : List Glyph} {g h : Glyph} {pieces : List (List Glyph)} :
      g.opens family → g.depth = 0 →
        family.splitClosing 0 (inside ++ h :: after) = some (inside, after) →
        (subscripts &&
          isSubscript [family] false (Text.ofGlyphs (piece.reverse ++ g :: (inside ++ [h])))) →
          Parted family subscripts ((g :: (inside ++ [h])).reverse ++ piece) after pieces →
            Parted family subscripts piece (g :: (inside ++ h :: after)) pieces
  /-- The group is a piece of its own. -/
  | group {piece inside after : List Glyph} {g h : Glyph} {pieces : List (List Glyph)} :
      g.opens family → g.depth = 0 →
        family.splitClosing 0 (inside ++ h :: after) = some (inside, after) →
        (subscripts &&
          isSubscript [family] false (Text.ofGlyphs (piece.reverse ++ g :: (inside ++ [h])))) = false →
          Parted family subscripts [] after pieces →
            Parted family subscripts piece (g :: (inside ++ h :: after))
              (piece.reverse :: (g :: (inside ++ [h])) :: pieces)
  | separator {piece rest : List Glyph} {g : Glyph} {pieces : List (List Glyph)} :
      g.isTop → isSeparator g.char → Parted family subscripts [] rest pieces →
        Parted family subscripts piece (g :: rest) (piece.reverse :: pieces)
  | other {piece rest : List Glyph} {g : Glyph} {pieces : List (List Glyph)} :
      (g.opens family && g.depth == 0) = false → (g.isTop && isSeparator g.char) = false →
        Parted family subscripts (g :: piece) rest pieces →
          Parted family subscripts piece (g :: rest) pieces

/-- There is one way to cut glyphs into pieces. -/
theorem Parted.splitGroups_eq {family : Bracket} {subscripts : Bool} {piece glyphs : List Glyph}
    {pieces : List (List Glyph)} (parted : Parted family subscripts piece glyphs pieces) :
    splitGroups family subscripts piece glyphs = some pieces := by
  have group (inside after : List Glyph) (h : Glyph) :
      (inside ++ h :: after).take (inside.length + 1) = inside ++ [h] := by
    rw [List.take_length_add_append]
    rfl
  induction parted with
  | done piece => rw [splitGroups]
  | glued opens level found glued _ ih =>
      rw [splitGroups, if_pos (by simp [opens, level])]
      split
      · rename_i endless
        cases found.symm.trans endless
      · rename_i cut
        cases found.symm.trans cut
        simp only [group, glued, if_true, ih]
  | group opens level found alone _ ih =>
      rw [splitGroups, if_pos (by simp [opens, level])]
      split
      · rename_i endless
        cases found.symm.trans endless
      · rename_i cut
        cases found.symm.trans cut
        simp only [group, alone, Bool.false_eq_true, if_false, ih, Option.map_some]
  | @separator piece rest g pieces top separates _ ih =>
      have unopened := Glyph.opens_of_mark?_eq_none (Glyph.isTop_iff.mp top).2.2 family
      rw [isSeparator] at separates
      simp only [splitGroups, unopened, top, separates, ih]
      rfl
  | other unopened apart _ ih =>
      rw [isSeparator] at apart
      rw [splitGroups, if_neg (Bool.eq_false_iff.mp unopened), if_neg (Bool.eq_false_iff.mp apart), ih]

/-- In a nested text every group that is cut at has its end, so the cutting gets to the end of the text. -/
theorem exists_parted {opened : List Bracket} {glyphs : List Glyph} (nested : Nested opened glyphs)
    (family : Bracket) (subscripts : Bool) (piece : List Glyph) :
    ∃ pieces, Parted family subscripts piece glyphs pieces := by
  induction size : glyphs.length using Nat.strong_induction_on generalizing opened glyphs piece with
  | _ n ih =>
    subst size
    cases glyphs with
    | nil => exact ⟨_, .done piece⟩
    | cons g rest =>
        by_cases opens : (g.opens family && g.depth == 0) = true
        · rw [Bool.and_eq_true, beq_iff_eq] at opens
          cases found : family.splitClosing 0 rest with
          | none => exact absurd found (nested.splitClosing_ne_none opens.1)
          | some cut =>
              obtain ⟨inside, after⟩ := cut
              obtain ⟨h, closes⟩ := nested.closes_of_splitClosing opens.1 found
              obtain rfl := closes.glyphs_eq
              have shorter : after.length < (g :: (inside ++ h :: after)).length := by
                simp only [List.length_cons, List.length_append]
                omega
              cases glued : subscripts &&
                  isSubscript [family] false (Text.ofGlyphs (piece.reverse ++ g :: (inside ++ [h]))) with
              | true =>
                  obtain ⟨pieces, parted⟩ := ih _ shorter closes.behind _ rfl
                  exact ⟨pieces, .glued opens.1 opens.2 found glued parted⟩
              | false =>
                  obtain ⟨pieces, parted⟩ := ih _ shorter closes.behind [] rfl
                  exact ⟨_, .group opens.1 opens.2 found glued parted⟩
        · obtain ⟨others, behind⟩ := nested.exists_tail
          have shorter : rest.length < (g :: rest).length := Nat.lt_succ_self _
          by_cases separates : (g.isTop && isSeparator g.char) = true
          · obtain ⟨pieces, parted⟩ := ih _ shorter behind [] rfl
            rw [Bool.and_eq_true] at separates
            exact ⟨_, .separator separates.1 separates.2 parted⟩
          · obtain ⟨pieces, parted⟩ := ih _ shorter behind (g :: piece) rfl
            exact ⟨_, .other (Bool.eq_false_iff.mpr opens) (Bool.eq_false_iff.mpr separates) parted⟩

theorem modifyHead_reverse_nil (pieces : List (List Glyph)) :
    pieces.modifyHead (([] : List Glyph).reverse ++ ·) = pieces := by
  cases pieces <;> rfl

/-- Without a group of the family the pieces are what stands between the separators. -/
theorem Parted.eq_splitOnP {family : Bracket} {subscripts : Bool} {piece glyphs : List Glyph}
    {pieces : List (List Glyph)} (parted : Parted family subscripts piece glyphs pieces)
    (unopened : ∀ g ∈ glyphs, g.opens family = false) :
    pieces = (glyphs.splitOnP fun g => g.isTop && isSeparator g.char).modifyHead (piece.reverse ++ ·) := by
  induction parted with
  | done piece => simp
  | glued opens _ _ _ _ _ =>
      rw [unopened _ (List.mem_cons_self ..)] at opens
      cases opens
  | group opens _ _ _ _ _ =>
      rw [unopened _ (List.mem_cons_self ..)] at opens
      cases opens
  | separator top separates _ ih =>
      rw [ih (List.forall_mem_cons.mp unopened).2, modifyHead_reverse_nil,
        List.splitOnP_cons_eq_if_modifyHead, top, separates]
      simp
  | other _ apart _ ih =>
      rw [ih (List.forall_mem_cons.mp unopened).2, List.splitOnP_cons_eq_if_modifyHead, apart]
      simp [List.modifyHead_modifyHead, Function.comp_def]

/-! ### Decomposing -/

/-- Cutting a text as a scan for the first group of the family finds it: a group that is never closed is an
error, and a text without a group is cut at its separators alone. -/
def Bracket.cutUp (family : Bracket) (subscripts : Bool) (text : Text) : Except ParseError (List Text) :=
  match splitOptions? text with
  | some tokens => .ok tokens
  | none =>
    match family.scan text 0 with
    | .unmatched _ => .error { cause := .unmatchedBracket, text }
    | .notFound => .ok (splitTop isSeparator text)
    | .matched _ =>
      match splitGroups family subscripts [] text.glyphs with
      | some pieces => .ok (tidy pieces)
      | none => .error { cause := .unmatchedBracket, text }

/-- A text with balanced brackets is cut to its end. -/
theorem exists_cutUp {text : Text} (balanced : checkBalance text = .ok ()) (family : Bracket)
    (subscripts : Bool) :
    ∃ pieces, Parted family subscripts [] text.glyphs pieces ∧
      splitGroups family subscripts [] text.glyphs = some pieces ∧
        family.cutUp subscripts text = .ok ((splitOptions? text).getD (tidy pieces)) := by
  obtain ⟨pieces, parted⟩ := exists_parted (nested_of_checkBalance balanced) family subscripts []
  have cut := parted.splitGroups_eq
  refine ⟨pieces, parted, cut, ?_⟩
  rw [Bracket.cutUp]
  cases splitOptions? text with
  | some tokens => rfl
  | none =>
      cases scan : family.scan text 0 with
      | unmatched before => exact absurd scan (scan_ne_unmatched balanced 0 before)
      | matched group =>
          dsimp only
          rw [cut]
          rfl
      | notFound =>
          have scans := family.scans_scanGlyphs 0 text.glyphs
          rw [show family.scanGlyphs 0 text.glyphs = .notFound from scan] at scans
          cases scans with
          | notFound absent =>
              have unopened := Bracket.splitOpening_zero_eq_none_iff.mp absent
              have whole := parted.eq_splitOnP unopened
              rw [modifyHead_reverse_nil] at whole
              dsimp only
              rw [splitTop, whole]
              rfl

/-- A chunk is checked and cut. -/
theorem decompose_eq (family : Bracket) (subscripts strip : Bool) (chunk : Text) :
    decompose family subscripts strip chunk = (do
      checkBalance (chunk.readied subscripts)
      family.cutUp subscripts ((chunk.readied subscripts).stripped family strip)) := by
  change (checkBalance (chunk.readied subscripts) >>= _) = _
  cases balanced : checkBalance (chunk.readied subscripts) with
  | error e => rfl
  | ok =>
      obtain ⟨pieces, -, cut, done⟩ :=
        exists_cutUp (checkBalance_stripped balanced family strip) family subscripts
      refine Eq.trans ?_ done.symm
      change (match splitOptions? ((chunk.readied subscripts).stripped family strip) with
        | some tokens => Except.ok tokens
        | none => match splitGroups family subscripts []
              ((chunk.readied subscripts).stripped family strip).glyphs with
          | some pieces => Except.ok (tidy pieces)
          | none => _) = _
      rw [cut]
      cases splitOptions? ((chunk.readied subscripts).stripped family strip) <;> rfl

/-- A decomposition succeeds only on balanced brackets, and is then made of the options or the pieces. -/
theorem exists_of_decompose {family : Bracket} {subscripts : Bool} {chunk : Text} {tokens : List Text}
    (cut : decompose family subscripts false chunk = .ok tokens) :
    checkBalance (chunk.readied subscripts) = .ok () ∧
      ∃ pieces, Parted family subscripts [] (chunk.readied subscripts).glyphs pieces ∧
        splitGroups family subscripts [] (chunk.readied subscripts).glyphs = some pieces ∧
          tokens = (splitOptions? (chunk.readied subscripts)).getD (tidy pieces) := by
  rw [decompose_eq, Text.stripped_false] at cut
  cases balanced : checkBalance (chunk.readied subscripts) with
  | error e =>
      rw [balanced] at cut
      cases cut
  | ok =>
      rw [balanced] at cut
      obtain ⟨pieces, parted, split, done⟩ := exists_cutUp balanced family subscripts
      exact ⟨rfl, pieces, parted, split, Except.ok.inj (cut.symm.trans done)⟩

/-- The check decides: it tells balanced words from the two ways of going wrong, and nothing behind it can
fail. -/
theorem balance_decides (text : Text) :
    (checkBalance text = .ok () ↔ Balanced text.marks) ∧
      (checkBalance text = .error { cause := .unbalancedBracket, text } ↔ Misclosed text.marks) ∧
      (checkBalance text = .error { cause := .unmatchedBracket, text } ↔ LeftOpen text.marks) ∧
      (checkBalance text = .ok () →
        ∀ family start before, Bracket.scan family text start ≠ .unmatched before) ∧
      ∀ family subscripts strip,
        ((∃ tokens, decompose family subscripts strip text = .ok tokens) ↔
          checkBalance (text.readied subscripts) = .ok ()) ∧
        ∀ e, decompose family subscripts strip text = .error e ↔
          checkBalance (text.readied subscripts) = .error e := by
  refine ⟨checkBalance_eq_ok_iff, ?_, ?_, ?_, ?_⟩
  · rw [checkBalance_eq_error_iff, wordFault_eq_unbalanced_iff]
  · rw [checkBalance_eq_error_iff, wordFault_eq_unmatched_iff]
  · intro balanced family start before
    exact scan_ne_unmatched balanced start before
  · intro family subscripts strip
    rw [decompose_eq]
    cases balanced : checkBalance (text.readied subscripts) with
    | error e =>
        refine ⟨iff_of_false nofun nofun, fun other => ⟨?_, ?_⟩⟩
        · rintro ⟨⟩
          rfl
        · rintro ⟨⟩
          rfl
    | ok =>
        obtain ⟨pieces, -, -, done⟩ :=
          exists_cutUp (checkBalance_stripped balanced family strip) family subscripts
        exact ⟨iff_of_true ⟨_, done⟩ rfl, fun e => iff_of_false (done ▸ nofun) nofun⟩

/-- A text with all three families and a bracket within a literal. -/
theorem balance_decides_groups :
    checkBalance "f(a[1], \x7b'('\x7d)".toList = .ok () ∧
      Bracket.scan .paren "f(a[1], \x7b'('\x7d)".toList 0 ≠ .unmatched (Text.glyphs ['f']) :=
  have balanced : checkBalance "f(a[1], \x7b'('\x7d)".toList = .ok () := by decide
  ⟨balanced, (balance_decides _).2.2.2.1 balanced .paren 0 _⟩

end MissionScript
