import MissionScript.Proofs.Bracket.Even
import MissionScript.Proofs.Script.Rejoining

/-!
# Runs of separators

A splitter drops the blanks and commas between its tokens, however many there are and also at the ends of the
text. So a text that is cut into tokens holds them in order with runs of separators in front of them and
behind the last one, and a run that is put at such a place is dropped again.
-/

namespace MissionScript

/-! ### Tokens with runs around them -/

/-- The tokens, with a run of separators in front of each and behind the last one. A run may be empty. -/
inductive Spread : List Text → Text → Prop where
  | nil {run : Text} : (∀ c ∈ run, isSeparator c) → Spread [] run
  | cons {run token text : Text} {tokens : List Text} :
      (∀ c ∈ run, isSeparator c) → Spread tokens text → Spread (token :: tokens) (run ++ (token ++ text))

theorem isSeparator_of_isBlankText {text : Text} (blank : text.isBlankText) : ∀ c ∈ text, isSeparator c := by
  intro c member
  rw [isSeparator, List.all_eq_true.mp blank c member, Bool.true_or]

namespace Spread

variable {run text : Text} {tokens : List Text}

theorem nil_iff : Spread [] text ↔ ∀ c ∈ text, isSeparator c := by
  constructor
  · rintro ⟨separates⟩
    exact separates
  · exact .nil

theorem cons_iff {token : Text} : Spread (token :: tokens) text ↔
    ∃ run rest, (∀ c ∈ run, isSeparator c) ∧ Spread tokens rest ∧ text = run ++ (token ++ rest) := by
  constructor
  · rintro (_ | ⟨separates, behind⟩)
    exact ⟨_, _, separates, behind, rfl⟩
  · rintro ⟨run, rest, separates, behind, rfl⟩
    exact .cons separates behind

theorem run_append (separates : ∀ c ∈ run, isSeparator c) (spread : Spread tokens text) :
    Spread tokens (run ++ text) := by
  cases spread with
  | nil others => exact .nil (List.forall_mem_append.mpr ⟨separates, others⟩)
  | cons others behind =>
      rw [← List.append_assoc]
      exact .cons (List.forall_mem_append.mpr ⟨separates, others⟩) behind

/-- A piece is trimmed, and dropped if nothing of it is left. -/
theorem tidy_cons {pieces : List (List Glyph)} (spread : Spread (tidy pieces) text) (piece : List Glyph) :
    Spread (tidy (piece :: pieces)) (Text.ofGlyphs piece ++ text) := by
  obtain ⟨front, back, blankFront, blankBack, whole⟩ := (Text.ofGlyphs piece).exists_trim
  have behind := spread.run_append (isSeparator_of_isBlankText blankBack)
  rw [MissionScript.tidy_cons]
  split
  · rename_i nothing
    rw [List.isEmpty_iff.mp nothing, List.nil_append] at whole
    rw [whole, List.append_assoc, List.nil_append]
    exact behind.run_append (isSeparator_of_isBlankText blankFront)
  · have first := @Spread.cons front (Text.ofGlyphs piece).trim (back ++ text) (tidy pieces)
      (isSeparator_of_isBlankText blankFront) behind
    rw [← List.append_assoc _ back, ← List.append_assoc front, ← whole] at first
    exact first

end Spread

/-- What is cut at separators and groups is the tokens of a text with runs around them. -/
theorem Parted.spread {family : Bracket} {subscripts : Bool} {piece glyphs : List Glyph}
    {pieces : List (List Glyph)} (parted : Parted family subscripts piece glyphs pieces) :
    Spread (tidy pieces) (Text.ofGlyphs (piece.reverse ++ glyphs)) := by
  induction parted with
  | done piece =>
      have nothing : Spread (tidy []) [] := .nil (List.forall_mem_nil _)
      simpa using nothing.tidy_cons piece.reverse
  | glued _ _ _ _ _ ih => simpa using ih
  | @group piece inside after g h pieces _ _ _ _ _ ih =>
      have spread := (ih.tidy_cons (g :: (inside ++ [h]))).tidy_cons piece.reverse
      simpa [Text.ofGlyphs] using spread
  | @separator piece rest g pieces _ separates _ ih =>
      have behind := ih.run_append (List.forall_mem_singleton.mpr separates)
      simpa [Text.ofGlyphs] using behind.tidy_cons piece.reverse
  | other _ _ _ ih => simpa using ih

/-- What is cut at the delimiters outside groups is the tokens of a text with runs around them. -/
theorem spread_splitTop {p : Char → Bool} (separates : ∀ c, p c → isSeparator c) (text : Text) :
    Spread (splitTop p text) text := by
  have cut (piece gs : List Glyph) :
      Spread (tidy ((gs.splitOnP fun g => g.isTop && p g.char).modifyHead (piece.reverse ++ ·)))
        (Text.ofGlyphs (piece.reverse ++ gs)) := by
    induction gs generalizing piece with
    | nil =>
        have nothing : Spread (tidy []) [] := .nil (List.forall_mem_nil _)
        simpa using nothing.tidy_cons piece.reverse
    | cons g gs ih =>
        rw [List.splitOnP_cons_eq_if_modifyHead]
        split
        · rename_i delimits
          have run : ∀ c ∈ [g.char], isSeparator c :=
            List.forall_mem_singleton.mpr (separates _ (Bool.and_eq_true_iff.mp delimits).2)
          have behind := (ih []).run_append run
          rw [modifyHead_reverse_nil] at behind
          simpa [Text.ofGlyphs] using behind.tidy_cons piece.reverse
        · simpa [List.modifyHead_modifyHead, Function.comp_def] using ih (g :: piece)
  have whole := cut [] text.glyphs
  rwa [modifyHead_reverse_nil, List.reverse_nil, List.nil_append, Text.ofGlyphs_glyphs] at whole

/-! ### Dropping runs -/

theorem Text.trim_eq_nil_iff {text : Text} : text.trim = [] ↔ text.isBlankText := by
  constructor
  · intro nothing
    obtain ⟨front, back, blankFront, blankBack, whole⟩ := text.exists_trim
    rw [whole, nothing, List.nil_append, isBlankText_append, blankFront, blankBack]
    rfl
  · intro blank
    rw [trim, trimStart_eq_nil_iff.mpr blank]
    rfl

/-- What stands around a text without blanks at its ends is trimmed on its own. -/
theorem Text.Trimmed.trim_around {text : Text} (trimmed : text.Trimmed) (front back : Text) :
    Text.trim (front ++ (text ++ back)) = front.trimStart ++ (text ++ back.trimEnd) := by
  have first : ∀ c ∈ (text ++ back).head?, isBlank c = false := by
    rw [List.head?_append_of_ne_nil _ trimmed.filled]
    exact trimmed.first
  have last : ∀ c ∈ (front.trimStart ++ text).getLast?, isBlank c = false := by
    rw [List.getLast?_append_of_ne_nil _ trimmed.filled]
    exact trimmed.last
  have starts : Text.trimStart (front ++ (text ++ back)) = front.trimStart ++ (text ++ back) := by
    rw [Text.trimStart, List.dropWhile_append, Text.dropWhile_eq_self first]
    split
    · rename_i nothing
      rw [Text.trimStart, List.isEmpty_iff.mp nothing, List.nil_append]
    · rfl
  rw [Text.trim, starts, ← List.append_assoc, Text.trimEnd, Text.dropEndWhile_append_eq,
    Text.dropEndWhile_eq_self last, ← List.append_assoc]
  split
  · rename_i nothing
    rw [Text.trimEnd, nothing, List.append_nil]
  · rfl

theorem Parted.run_append {family : Bracket} {subscripts : Bool} {rest : List Glyph}
    {pieces : List (List Glyph)} {run : Text} (separates : ∀ c ∈ run, isSeparator c)
    (parted : Parted family subscripts [] rest pieces) :
    ∃ more, Parted family subscripts [] (run.glyphs ++ rest) more ∧ tidy more = tidy pieces := by
  rw [glyphs_eq_unquotedFrom (isFlat_of_separators separates).unquoted]
  by_cases filled : run = []
  · subst filled
    exact ⟨pieces, parted, rfl⟩
  · obtain ⟨more, parted, same⟩ := parted.run [] filled separates
    exact ⟨_, parted, (MissionScript.tidy_cons [] more).trans same⟩

/-- A run between a piece and what is cut off behind it is dropped. -/
theorem Parted.run_between {family : Bracket} {subscripts : Bool} {rest : List Glyph}
    {pieces : List (List Glyph)} {run : Text} (piece : List Glyph) (separates : ∀ c ∈ run, isSeparator c)
    (cutsOff : ∀ piece, Parted family subscripts piece rest (piece.reverse :: pieces)) :
    ∃ more, Parted family subscripts piece (run.glyphs ++ rest) (piece.reverse :: more) ∧
      tidy more = tidy pieces := by
  rw [glyphs_eq_unquotedFrom (isFlat_of_separators separates).unquoted]
  by_cases filled : run = []
  · subst filled
    exact ⟨pieces, cutsOff piece, rfl⟩
  · obtain ⟨more, parted, same⟩ := (cutsOff []).run piece filled separates
    exact ⟨more, parted, same.trans (MissionScript.tidy_cons [] pieces)⟩

/-- A complete text in brackets is cut off as it stands. -/
theorem Parted.enclosed {inside : Text} (complete : inside.IsComplete) {b : Bracket} {after : List Glyph}
    {pieces : List (List Glyph)} (parted : Parted b false [] after pieces) (piece : List Glyph) :
    Parted b false piece (Text.glyphs (b.opening :: (inside ++ [b.closing])) ++ after)
      (piece.reverse :: Text.glyphs (b.opening :: (inside ++ [b.closing])) :: pieces) := by
  obtain ⟨gs, glyphs, -, sound⟩ := Bracket.glyphs_enclosed complete b
  have found := Bracket.splitClosing_append sound b 0 (⟨b.closing, false, 1⟩ :: after)
  rw [Bracket.splitClosing_closing after (closes_closing b 1)] at found
  simp only [List.count_nil, Nat.add_zero, Option.map_some, List.append_nil] at found
  rw [glyphs, List.cons_append, List.append_assoc]
  exact Parted.group (opens_opening b 0) rfl found rfl parted

section Commas

variable {run : Text} {piece rest : List Glyph}

theorem isDelimiter_comma (c : Char) : isDelimiter [','] c = (c == ',') := by
  simp [isDelimiter, Bool.beq_eq_decide_eq]

/-- A character of a run is cut at, or it is a blank. -/
theorem delimits_or_isBlank {c : Char} (separates : isSeparator c) :
    (Glyph.isTop ⟨c, false, 0⟩ && isDelimiter [','] c) = true ∨
      (Glyph.isTop ⟨c, false, 0⟩ && isDelimiter [','] c) = false ∧ isBlank c := by
  rw [isTop_of_isFlat (isFlat_of_isSeparator separates), Bool.true_and, isDelimiter_comma]
  rw [isSeparator, Bool.or_eq_true, or_comm] at separates
  rcases separates with comma | blank
  · exact .inl comma
  · exact .inr ⟨beq_eq_false_iff_ne.mpr (ne_of_isBlank blank (by decide)), blank⟩

theorem tidy_run_append (separates : ∀ c ∈ run, isSeparator c) (rest : List Glyph) :
    tidy ((run.glyphs ++ rest).splitOnP fun g => g.isTop && isDelimiter [','] g.char) =
      tidy (rest.splitOnP fun g => g.isTop && isDelimiter [','] g.char) := by
  have flat := isFlat_of_separators separates
  rw [glyphs_eq_unquotedFrom flat.unquoted, flat.unquotedFrom_eq]
  clear flat
  induction run with
  | nil => rfl
  | cons c run ih =>
      obtain ⟨here, separates⟩ := List.forall_mem_cons.mp separates
      rw [List.map_cons, List.cons_append, List.splitOnP_cons_eq_if_modifyHead]
      rcases delimits_or_isBlank here with delimits | ⟨inside, blank⟩
      · rw [if_pos delimits, MissionScript.tidy_cons, ih separates]
        rfl
      · rw [if_neg (Bool.eq_false_iff.mp inside), tidy_modifyHead_of_isBlank blank, ih separates]

theorem tidy_append_run (solid : ∀ g ∈ piece, (g.isTop && isDelimiter [','] g.char) = false)
    (separates : ∀ c ∈ run, isSeparator c) :
    tidy ((piece ++ run.glyphs).splitOnP fun g => g.isTop && isDelimiter [','] g.char) = tidy [piece] := by
  have flat := isFlat_of_separators separates
  rw [glyphs_eq_unquotedFrom flat.unquoted, flat.unquotedFrom_eq]
  clear flat
  induction run generalizing piece with
  | nil => rw [List.map_nil, List.append_nil, List.splitOnP_eq_singleton solid]
  | cons c run ih =>
      obtain ⟨here, separates⟩ := List.forall_mem_cons.mp separates
      rw [List.map_cons]
      rcases delimits_or_isBlank here with delimits | ⟨inside, blank⟩
      · have nothing := ih (List.forall_mem_nil _) separates
        rw [List.nil_append] at nothing
        rw [List.splitOnP_append_cons_of_forall_mem solid _ delimits, MissionScript.tidy_cons, nothing,
          MissionScript.tidy_cons piece []]
        rfl
      · have further := ih (List.forall_mem_append.mpr ⟨solid, List.forall_mem_singleton.mpr inside⟩) separates
        have trimmed : Text.trim (Text.ofGlyphs (piece ++ [⟨c, false, 0⟩])) = (Text.ofGlyphs piece).trim := by
          rw [Text.ofGlyphs_append]
          exact Text.trim_append_blank _ (by simpa [Text.ofGlyphs, Text.isBlankText] using blank)
        rw [List.append_assoc, List.singleton_append] at further
        rw [further, MissionScript.tidy_cons, MissionScript.tidy_cons piece [], trimmed]

end Commas

end MissionScript
