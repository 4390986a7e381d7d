import MissionScript.Command.Reference
import MissionScript.Proofs.Command.Described
import MissionScript.Proofs.Renaming.Body
import MissionScript.Proofs.Renaming.Statement

/-!
# Renaming and commands

The text of a command describes it, and goes on to describe it after any number of renamings, as long
as these touch nothing in the text but the names that the arguments hold. The quoted label is in the
text too, and there a renaming does not stop.
-/

namespace MissionScript

open Lettered

variable {ρ : Renaming} {keywords : Keywords} {s t : Text}

/-! ### Instructions -/

theorem Text.trimmed_of_trim_eq (filled : s ≠ []) (same : s.trim = s) : s.Trimmed where
  filled
  first := by
    have leads : s.trim <+: s.trimStart := dropEndWhile_prefix ..
    rw [same] at leads
    rw [Text.head?_of_prefix leads filled]
    exact head?_dropWhile
  last := by
    have last : ∀ c ∈ s.trim.getLast?, isBlank c = false := getLast?_dropEndWhile
    rwa [same] at last

theorem isLineEnd_of_isWordChar {c : Char} (word : isWordChar c) : isLineEnd c = false := by
  rw [Bool.eq_false_iff]
  intro ends
  have blank := isBlank_of_isLineEnd ends
  rw [isBlank_of_isWordChar word] at blank
  cases blank

theorem takeWhile_semicolon (s : Text) :
    (s ++ [';']).takeWhile isWordChar = s.takeWhile isWordChar := by
  rw [List.takeWhile_append]
  split
  · rename_i whole
    have taken := (List.takeWhile_prefix (l := s) isWordChar).eq_of_length whole
    rw [taken]
    exact List.append_nil s
  · rfl

namespace Renamed

theorem append_semicolon (related : Renamed ρ false s t) :
    Renamed ρ false (s ++ [';']) (t ++ [';']) :=
  related.join rfl .nil

theorem uncommented (related : Renamed ρ false s t) (free : Uncommented s) : Uncommented t := by
  have between : BetweenWords (α := Glyph) fun g => g.isFree && g.char == '%' := by
    intro g word
    have other : ['%'].contains g.char = false := betweenWords_contains (by decide) g.char word
    rw [List.contains_cons, List.contains_nil, Bool.or_false] at other
    change (g.isFree && (g.char == '%')) = false
    rw [other, Bool.and_false]
  have none : s.glyphs.any (fun g => g.isFree && g.char == '%') = false :=
    List.any_eq_false.mpr fun g member => Bool.eq_false_iff.mp (free g member)
  rw [← related.glyphs.any_eq between] at none
  exact fun g member => Bool.eq_false_iff.mpr (List.any_eq_false.mp none g member)

theorem isInstruction (related : Renamed ρ false s t) (proper : IsInstruction s) :
    IsInstruction t where
  toTrimmed := by
    have trims := related.trim
    rw [proper.trim] at trims
    exact Text.trimmed_of_trim_eq (mt related.eq_nil_iff.mp proper.filled)
      (trims.eq_text.trans related.eq_text.symm)
  single c member := by
    rcases related.mem member with word | inside
    · exact isLineEnd_of_isWordChar word
    · exact proper.single c inside
  uncommented := related.uncommented proper.uncommented

theorem keywordPart_eq (related : Renamed ρ false s t) (proper : IsInstruction s)
    (shape : shapeOf keywords s = .command) (shape' : shapeOf keywords t = .command)
    (kept : s.takeWhile isWordChar ≠ ρ.old) : t.keywordPart = s.keywordPart := by
  rw [(Text.keywordPart_of_shape proper.toTrimmed shape).1,
    (Text.keywordPart_of_shape (related.isInstruction proper).toTrimmed shape').1,
    related.front.1, Renaming.word_of_ne kept]

theorem argumentsPart (related : Renamed ρ false s t) :
    Renamed ρ false s.argumentsPart t.argumentsPart := by
  refine (related.trim.span fun c word => ?_).2.trim
  have blank : isBlank c = false := isBlank_of_isWordChar word
  have other : ['('].contains c = false := betweenWords_contains (by decide) c word
  rw [List.contains_cons, List.contains_nil, Bool.or_false] at other
  rw [blank, other]
  rfl

/-- A renamed text does not start with the remote keyword, unless its front is renamed to it. -/
theorem not_isRemote (related : Renamed ρ false s t) (here : ¬ IsRemote s)
    (front : s.takeWhile isWordChar = ρ.old → ρ.new ≠ remoteKeyword) : ¬ IsRemote t := by
  have ⟨first, next⟩ := related.front
  rw [IsRemote, first, next]
  rintro ⟨remote, blank⟩
  by_cases renamed : s.takeWhile isWordChar = ρ.old
  · rw [renamed, Renaming.word_old] at remote
    exact front renamed remote
  · rw [Renaming.word_of_ne renamed] at remote
    exact here ⟨remote, blank⟩

end Renamed

/-! ### Commands -/

/-- The renaming touches nothing in the text of the command but the names in its arguments: not its
label, and not the word that tells what the command is. -/
structure Command.Renamable (keywords : Keywords) (ρ : Renaming) (c : Command) : Prop where
  label : ∀ label ∈ c.label, ρ.text label = label
  body : c.body.Renamable ρ
  front : c.generating.takeWhile isWordChar = ρ.old →
    keywords.reserves ρ.old = false ∧ keywords.reserves ρ.new = false

/-- Nothing but one semicolon is cut off when the text of the command is read as a line. -/
structure Command.Settled (c : Command) : Prop where
  once : c.generating.dropLast.getLast? ≠ some ';'
  here : ¬ IsRemote c.generating

theorem Keywords.ne_remoteKeyword {word : Text} (free : keywords.reserves word = false) :
    word ≠ remoteKeyword := by
  rintro rfl
  simp [Keywords.reserves] at free

namespace Command.Described

variable {c c' : Command}

theorem generating_eq (described : Described keywords s c) : c.generating = s ++ [';'] := by
  cases described with
  | assignment => rfl
  | callWithOutputs => rfl
  | call => rfl
  | keyword => rfl

/-- An instruction without a reserved word in front has no keyword. -/
theorem bare_of_not_reserved (free : keywords.reserves (s.takeWhile isWordChar) = false) :
    shapeOf keywords s = .assignment ∨ shapeOf keywords s = .call := by
  rw [MissionScript.shapeOf_eq, shapeBehind_of_not_reserved free]
  unfold bareShape
  split
  · split
    · exact .inr rfl
    · exact .inl rfl
  · split
    · exact .inl rfl
    · exact .inr rfl

/-- The renamed instruction describes the renamed command. -/
theorem renamed (described : Described keywords s c) (proper : IsInstruction s)
    (renamable : c.Renamable keywords ρ) (edit : c.rename? .any ρ.old ρ.new = some c') :
    Described keywords (ρ.text s) c' := by
  obtain ⟨body', bodies, rfl⟩ := Option.map_eq_some_iff.mp edit
  have related := Renamed.renamed_text ρ s
  have ⟨label, renames, front⟩ := renamable
  rw [described.generating_eq, takeWhile_semicolon] at front
  have text : Text.replaceWord ρ.old ρ.new (s ++ [';']) = ρ.text s ++ [';'] :=
    related.append_semicolon.eq_text.symm
  have bare (renamed : s.takeWhile isWordChar = ρ.old) :
      shapeOf keywords s = .assignment ∨ shapeOf keywords s = .call :=
    bare_of_not_reserved (renamed ▸ (front renamed).1)
  have shapes : shapeOf keywords (ρ.text s) = shapeOf keywords s :=
    related.shapeOf_eq fun renamed => ⟨bare renamed, (front renamed).2⟩
  have sides := related.splitAssignment
  cases described with
  | assignment shape cut filledLeft filledRight read =>
      obtain ⟨⟨left', right'⟩, cut', left, right⟩ := exists_of_rel sides cut
      dsimp only at left right ⊢
      rw [text]
      exact .assignment (shapes.trans shape) cut' (mt left.trim.eq_nil_iff.mp filledLeft)
        (mt right.trim.eq_nil_iff.mp filledRight)
        (CommandBody.parseAssignment_renamed read renames left.trim right.trim bodies)
  | callWithOutputs shape cut filledLeft filledRight read =>
      obtain ⟨⟨left', right'⟩, cut', left, right⟩ := exists_of_rel sides cut
      dsimp only at left right ⊢
      rw [text]
      exact .callWithOutputs (shapes.trans shape) cut' (mt left.trim.eq_nil_iff.mp filledLeft)
        (mt right.trim.eq_nil_iff.mp filledRight)
        (CommandBody.parseCall_renamed read left.trim right.trim bodies)
  | call shape cut read =>
      dsimp only
      rw [text]
      exact .call (shapes.trans shape) (none_of_rel sides cut)
        (CommandBody.parseCall_renamed read .nil related.trim bodies)
  | keyword shape filled read =>
      dsimp only at label bodies renames ⊢
      have kept : (ρ.text s).keywordPart = s.keywordPart := by
        refine related.keywordPart_eq proper shape (shapes.trans shape) fun same => ?_
        rcases bare same with other | other
        · rw [shape] at other
          cases other
        · rw [shape] at other
          cases other
      have ⟨labels, arguments⟩ := splitLabel_renamed related.argumentsPart label
      rw [text, ← labels, ← kept]
      rw [← kept] at filled read
      exact .keyword (shapes.trans shape) filled
        (CommandBody.parse_renamed read renames arguments bodies)

end Command.Described

namespace Command

/-- The command after a renaming. One that does not hold the old name stays. -/
def renamed (c : Command) (ρ : Renaming) : Command := (c.rename? .any ρ.old ρ.new).getD c

/-- Each renaming is applied to what the ones before it have left. -/
def RenamableAll (keywords : Keywords) : Command → List Renaming → Prop
  | _, [] => True
  | c, ρ :: renamings => c.Renamable keywords ρ ∧ (c.renamed ρ).RenamableAll keywords renamings

/-- The command is described by its text, and its text is read whole. -/
def Faithful (keywords : Keywords) (c : Command) : Prop :=
  ∃ instruction, IsInstruction instruction ∧ Described keywords instruction c ∧ c.Settled

variable {c : Command}

theorem Settled.getLast? (settled : c.Settled) (text : c.generating = s ++ [';']) :
    s.getLast? ≠ some ';' := by
  have once := settled.once
  rwa [text, List.dropLast_concat] at once

/-- What a faithful command's text is read as is the command. -/
theorem Faithful.ofLine (faithful : c.Faithful keywords) : ofLine keywords c.generating = .ok c := by
  obtain ⟨instruction, proper, described, settled⟩ := faithful
  have text := described.generating_eq
  have here := settled.here
  rw [text] at here ⊢
  exact described.ofLine proper (settled.getLast? text) here

theorem Faithful.renamed (faithful : c.Faithful keywords) (renamable : c.Renamable keywords ρ) :
    (c.renamed ρ).Faithful keywords := by
  unfold Command.renamed
  cases edit : c.rename? .any ρ.old ρ.new with
  | none => exact faithful
  | some c' =>
      obtain ⟨instruction, proper, described, settled⟩ := faithful
      have related := Renamed.renamed_text ρ instruction
      have described' := described.renamed proper renamable edit
      have text := described.generating_eq
      have text' := described'.generating_eq
      refine ⟨_, related.isInstruction proper, described', ⟨?_, ?_⟩⟩
      · rw [Option.getD_some, text', List.dropLast_concat, ne_eq,
          related.getLast?_eq_some_iff rfl]
        exact settled.getLast? text
      · rw [Option.getD_some, text']
        have here := settled.here
        rw [text] at here
        refine related.append_semicolon.not_isRemote here fun same => ?_
        rw [← text] at same
        exact Keywords.ne_remoteKeyword (renamable.front same).2

/-- The text of a command from a line describes the command: after any number of renamings, reading it
gives the command back, label and arguments included. -/
theorem ofLine_renamed {line : Text} (read : ofLine keywords line = .ok c) (settled : c.Settled)
    (renamings : List Renaming) (renamable : c.RenamableAll keywords renamings) :
    ofLine keywords (renamings.foldl renamed c).generating = .ok (renamings.foldl renamed c) := by
  obtain ⟨instruction, proper, described⟩ := described_of_ofLine read
  have faithful : c.Faithful keywords := ⟨instruction, proper, described, settled⟩
  clear read settled proper described
  induction renamings generalizing c with
  | nil => exact faithful.ofLine
  | cons ρ renamings ih => exact ih renamable.2 (faithful.renamed renamable.1)

/-- A labeled command with a name that is renamed twice. -/
theorem ofLine_renamed_twice :
    ∃ c, ofLine .builtin "Toggle 'plots' View Off;".toList = .ok c ∧
      ∃ first second : Renaming, first.old = "View".toList ∧ second.old = first.new ∧
        ofLine .builtin ([first, second].foldl renamed c).generating =
          .ok ([first, second].foldl renamed c) := by
  let c : Command := {
    kind := .generic
    typeName := "Toggle".toList
    label := some "plots".toList
    generating := "Toggle 'plots' View Off;".toList
    body := .generic "View Off".toList }
  let first : Renaming := ⟨"View".toList, "Orbit".toList, by decide, by decide⟩
  let second : Renaming := ⟨"Orbit".toList, "Track".toList, by decide, by decide⟩
  have read : ofLine .builtin "Toggle 'plots' View Off;".toList = .ok c := rfl
  have settled : c.Settled := by
    refine ⟨by decide, fun remote => ?_⟩
    have other : c.generating.takeWhile isWordChar ≠ remoteKeyword := by decide
    exact other remote.1
  have once : c.Renamable .builtin first := by
    refine ⟨?_, trivial, fun _ => by decide +kernel⟩
    rintro label ⟨⟩
    decide +kernel
  have twice : (c.renamed first).Renamable .builtin second := by
    have label : (c.renamed first).label = some "plots".toList := by decide +kernel
    have body : (c.renamed first).body.Renamable second := by
      simp only [renamed, rename?, CommandBody.rename?, c]
      split
      · trivial
      · trivial
    refine ⟨?_, body, fun _ => by decide +kernel⟩
    rw [label]
    rintro label ⟨⟩
    decide +kernel
  exact ⟨c, read, first, second, rfl, rfl, ofLine_renamed read settled _ ⟨once, twice, trivial⟩⟩

/-- The name of the loop's solver is in its label, which is renamed in the text and nowhere else. -/
theorem label_of_renamed_text :
    (do
      let c ← (ofLine .builtin "Target 'DC1' DC1;".toList).toOption
      let c' ← c.rename? .any "DC1".toList "DC2".toList
      let again ← (ofLine .builtin c'.generating).toOption
      return (c'.label, again.label)) = some (some "DC1".toList, some "DC2".toList) := by
  decide +kernel

end Command

end MissionScript
