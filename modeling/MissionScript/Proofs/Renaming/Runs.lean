import Mathlib.Data.List.SplitBy
import MissionScript.Proofs.Renaming.Word

/-!
# The words of a text

A text comes apart into its maximal runs of word characters and the characters between them, each
character a piece of its own. The search for an old name goes by characters: it takes occurrences from
the left, looks at the neighbours of each and goes on behind it. An occurrence never reaches across the
end of a run, so what is replaced are whole pieces.
-/

namespace MissionScript

namespace Text

open Lettered

/-- A non-empty run of word characters. -/
def IsWord (piece : Text) : Prop := piece ≠ [] ∧ ∀ c ∈ piece, isWordChar c

/-- A character between the words. -/
def IsMark (piece : Text) : Prop := ∃ c, isWordChar c = false ∧ piece = [c]

/-- No two words are neighbours, so that each of them is as long as it can be. -/
def WordsApart (pieces : List Text) : Prop :=
  pieces.IsChain fun left right => ¬ (left.IsWord ∧ right.IsWord)

/-- The text cut into its maximal runs of word characters and the characters between them. -/
structure CutInWords (text : Text) (pieces : List Text) : Prop where
  flatten : pieces.flatten = text
  kinds : ∀ piece ∈ pieces, piece.IsWord ∨ piece.IsMark
  apart : WordsApart pieces

/-- The maximal runs of word characters of a text and the characters between them, in order. -/
def wordPieces (text : Text) : List Text := text.splitBy fun c d => isWordChar c && isWordChar d

/-- What is put for a piece: the new name for the old one, unless the piece in front of it is a dot. -/
def replacePiece (old new before piece : Text) : Text :=
  if piece = old ∧ before ≠ ['.'] then new else piece

theorem IsMark.not_isWord {piece : Text} (mark : piece.IsMark) : ¬ piece.IsWord := by
  obtain ⟨c, between, rfl⟩ := mark
  rintro ⟨-, letters⟩
  rw [letters c (List.mem_singleton_self c)] at between
  cases between

/-- Characters that go together in twos are a word, or there is only one of them. -/
theorem isWord_or_isMark {piece : Text} (filled : piece ≠ [])
    (together : piece.IsChain fun c d => isWordChar c && isWordChar d) :
    piece.IsWord ∨ piece.IsMark := by
  induction piece with
  | nil => exact absurd rfl filled
  | cons c rest ih =>
      cases rest with
      | nil =>
          cases word : isWordChar c with
          | false => exact .inr ⟨c, word, rfl⟩
          | true => exact .inl ⟨filled, by simpa using word⟩
      | cons d rest =>
          rw [List.isChain_cons_cons, Bool.and_eq_true] at together
          obtain ⟨⟨first, second⟩, onward⟩ := together
          rcases ih (by simp) onward with ⟨-, letters⟩ | ⟨e, between, same⟩
          · exact .inl ⟨filled, List.forall_mem_cons.mpr ⟨first, letters⟩⟩
          · obtain ⟨rfl, -⟩ := List.cons.inj same
            rw [second] at between
            cases between

theorem cutInWords_wordPieces (text : Text) : text.CutInWords text.wordPieces where
  flatten := List.flatten_splitBy _ text
  kinds _ member :=
    isWord_or_isMark (List.ne_nil_of_mem_splitBy member) (List.isChain_of_mem_splitBy member)
  apart := by
    refine (List.isChain_getLast_head_splitBy _ text).imp ?_
    rintro left right ⟨leftFilled, rightFilled, apart⟩ ⟨⟨-, ends⟩, ⟨-, starts⟩⟩
    rw [ends _ (List.getLast_mem leftFilled), starts _ (List.head_mem rightFilled)] at apart
    cases apart

/-- A word goes no further than its piece. -/
theorem startsWord_flatten {word : Text} {pieces : List Text} (isWord : word.IsWord)
    (kinds : ∀ piece ∈ pieces, piece.IsWord ∨ piece.IsMark) (apart : WordsApart (word :: pieces)) :
    startsWord pieces.flatten = false := by
  cases pieces with
  | nil => rfl
  | cons piece pieces =>
      have single := (List.isChain_cons_cons.mp apart).1
      rcases kinds piece List.mem_cons_self with also | ⟨c, between, rfl⟩
      · exact absurd ⟨isWord, also⟩ single
      · exact between

/-- In front of a word stands nothing or a mark, and then only a dot makes it a field. -/
theorem any_isNameChar_getLast? {before : Text} (mark : before = [] ∨ before.IsMark) :
    before.getLast?.any isNameChar = true ↔ before = ['.'] := by
  rcases mark with rfl | ⟨c, between, rfl⟩
  · simp
  · simp [isNameChar, between]

/-- Behind the piece `before` the search replaces piece by piece. -/
theorem replaceWordAfter_flatten {old : Text} (identifier : old.isIdentifier) (new : Text)
    {before : Text} {pieces : List Text} (start : before.IsWord ∨ before = [] ∨ before.IsMark)
    (kinds : ∀ piece ∈ pieces, piece.IsWord ∨ piece.IsMark) (apart : WordsApart (before :: pieces)) :
    replaceWordAfter before.getLast? old new pieces.flatten =
      (List.zipWith (replacePiece old new) (before :: pieces) pieces).flatten := by
  induction pieces generalizing before with
  | nil => simp [replaceWordAfter]
  | cons piece pieces ih =>
      obtain ⟨single, onward⟩ := List.isChain_cons_cons.mp apart
      have others := fun other member => kinds other (List.mem_cons_of_mem piece member)
      have kind := kinds piece List.mem_cons_self
      have rest := ih (kind.imp_right .inr) others onward
      rw [List.flatten_cons, List.zipWith_cons_cons, List.flatten_cons, ← rest, replacePiece]
      rcases kind with word | mark
      · have ends := startsWord_flatten word others onward
        have lone := start.resolve_left fun also => single ⟨also, word⟩
        by_cases replaced : piece = old ∧ before ≠ ['.']
        · obtain ⟨rfl, undotted⟩ := replaced
          have free : before.getLast?.any isNameChar = false :=
            Bool.eq_false_iff.mpr fun named => undotted ((any_isNameChar_getLast? lone).mp named)
          rw [if_pos ⟨rfl, undotted⟩, replaceWordAfter_old identifier free ends]
        · rw [if_neg replaced, replaceWordAfter_run identifier word.1 word.2 ends]
          by_cases dotted : before = ['.']
          · exact .inl ((any_isNameChar_getLast? lone).mpr dotted)
          · exact .inr fun same => replaced ⟨same, dotted⟩
      · have kept : ¬ (piece = old ∧ before ≠ ['.']) := by
          rintro ⟨rfl, -⟩
          exact mark.not_isWord (isWordChar_of_isIdentifier identifier)
        obtain ⟨c, between, rfl⟩ := mark
        rw [if_neg kept, List.singleton_append, replaceWordAfter_mark identifier between]
        rfl

/-- The new name is put for exactly those maximal runs of word characters that are the old name and
do not stand behind a dot, and all other characters stay. -/
theorem replaceWord_wordPieces {old : Text} (identifier : old.isIdentifier) (new text : Text) :
    text.CutInWords text.wordPieces ∧
      replaceWord old new text =
        (List.zipWith (replacePiece old new) ([] :: text.wordPieces) text.wordPieces).flatten := by
  have cut := cutInWords_wordPieces text
  refine ⟨cut, ?_⟩
  have filled := (isWordChar_of_isIdentifier identifier).1
  have begun : WordsApart ([] :: text.wordPieces) :=
    cut.apart.cons fun piece _ => fun ⟨⟨empty, _⟩, _⟩ => empty rfl
  rw [replaceWord, if_neg (by simpa using filled),
    ← replaceWordAfter_flatten identifier new (.inr (.inl rfl)) cut.kinds begun, cut.flatten]
  rfl

/-- Behind a dot, inside longer words and next to a letter outside ASCII. -/
theorem replaceWord_wordPieces_fields :
    Text.isIdentifier "aa".toList = true ∧
      replaceWord "aa".toList "b.aa".toList "aaa.aa+aa.aaé_aa aaé".toList =
        "aaa.aa+b.aa.aaé_aa b.aaé".toList := by
  have identifier : Text.isIdentifier "aa".toList = true := by decide
  refine ⟨identifier, ?_⟩
  rw [(replaceWord_wordPieces identifier _ _).2]
  decide

end Text

end MissionScript
