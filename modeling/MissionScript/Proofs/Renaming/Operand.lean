import MissionScript.Operand.Basic
import MissionScript.Proofs.Renaming.Split

/-!
# Renaming and operands

A renamed text reads as the renamed operand. The words of a number are no names, and neither is what
follows a dot.
-/

namespace MissionScript

open Lettered

/-- A text that starts with such a character reads as a number. -/
def startsNumber (c : Char) : Bool := c.isDigit || c == '.'

namespace Operand

variable {s : Text} {o : Operand}

/-- The ways in which a text reads as an operand. -/
inductive Reads : Text → Operand → Prop
  | number {text : Text} {c : Char} {value : Float} (first : text.head? = some c)
      (digit : startsNumber c) (read : Decimal.read? text = some value) : Reads text (.number value)
  | element {text : Text} {c : Char} {group : Group} {index : Operand}
      (first : text.head? = some c) (letter : startsNumber c = false)
      (last : text.getLast? = some ')') (found : Bracket.paren.scan text 0 = .matched group)
      (ends : group.after = []) (array : (Text.ofGlyphs group.before).isIdentifier)
      (single : group.content.cutAt ',' = none) (read : parse group.content = .ok index) :
      Reads text (.element (Text.ofGlyphs group.before) index)
  | cell {text : Text} {c : Char} {group : Group} {left right : Text} {row column : Operand}
      (first : text.head? = some c) (letter : startsNumber c = false)
      (last : text.getLast? = some ')') (found : Bracket.paren.scan text 0 = .matched group)
      (ends : group.after = []) (array : (Text.ofGlyphs group.before).isIdentifier)
      (cut : group.content.cutAt ',' = some (left, right)) (readRow : parse left = .ok row)
      (readColumn : parse right = .ok column) :
      Reads text (.cell (Text.ofGlyphs group.before) row column)
  | name {text : Text} {c : Char} {o : Operand} (first : text.head? = some c)
      (letter : startsNumber c = false) (last : text.getLast? ≠ some ')')
      (read : ofName text = .ok o) : Reads text o

theorem reads_of_parse (read : parse s = .ok o) : Reads s.trim o := by
  rw [parse] at read
  split at read
  · cases read
  · rename_i c first
    split at read
    · rename_i digit
      split at read
      · rename_i value found
        cases read
        exact .number first digit found
      · cases read
    · rename_i letter
      have letter : startsNumber c = false := Bool.not_eq_true _ ▸ letter
      split at read
      · rename_i last
        rw [beq_iff_eq] at last
        split at read
        · rename_i group found
          split at read
          · cases read
          · rename_i ends
            split at read
            · cases read
            · rename_i array
              simp only [Bool.not_eq_true', Bool.not_eq_false, List.isEmpty_iff] at ends array
              split at read
              · rename_i left right cut
                obtain ⟨row, readRow, read⟩ := Outcome.bind_eq_ok_iff.mp read
                obtain ⟨column, readColumn, read⟩ := Outcome.bind_eq_ok_iff.mp read
                cases read
                exact .cell first letter last found ends array cut readRow readColumn
              · rename_i single
                obtain ⟨index, readIndex, read⟩ := Outcome.bind_eq_ok_iff.mp read
                cases read
                exact .element first letter last found ends array single readIndex
        · cases read
      · rename_i last
        rw [beq_iff_eq] at last
        exact .name first letter last read

theorem parse_of_reads (reads : Reads s.trim o) : parse s = .ok o := by
  rw [parse]
  generalize s.trim = text at reads
  cases reads with
  | number first digit read =>
      rw [startsNumber] at digit
      simp only [first, digit, if_true, read]
  | element first letter last found ends array single read =>
      rw [startsNumber] at letter
      simp only [first, letter, last, beq_self_eq_true, Bool.false_eq_true, if_false, if_true]
      split
      · rename_i group' found'
        rw [found] at found'
        cases found'
        simp only [ends, array, List.isEmpty_nil, Bool.not_true, Bool.false_eq_true, if_false]
        split
        · rename_i cut
          rw [single] at cut
          cases cut
        · rw [read]
          rfl
      · rename_i other
        exact absurd found (other _)
  | cell first letter last found ends array cut readRow readColumn =>
      rw [startsNumber] at letter
      simp only [first, letter, last, beq_self_eq_true, Bool.false_eq_true, if_false, if_true]
      split
      · rename_i group' found'
        rw [found] at found'
        cases found'
        simp only [ends, array, List.isEmpty_nil, Bool.not_true, Bool.false_eq_true, if_false]
        split
        · rename_i cut'
          rw [cut] at cut'
          cases cut'
          rw [readRow, readColumn]
          rfl
        · rename_i single
          rw [cut] at single
          cases single
      · rename_i other
        exact absurd found (other _)
  | name first letter last read =>
      rw [startsNumber] at letter
      simp only [first, letter, beq_eq_false_iff_ne.mpr last, Bool.false_eq_true, if_false, read]

theorem parse_eq_ok_iff : parse s = .ok o ↔ Reads s.trim o := ⟨reads_of_parse, parse_of_reads⟩

theorem Reads.read?_of_startsNumber {text : Text} {c : Char} (reads : Reads text o)
    (first : text.head? = some c) (digit : startsNumber c) :
    ∃ value, Decimal.read? text = some value := by
  have other {d : Char} (first' : text.head? = some d) (letter : startsNumber d = false) : False := by
    rw [first] at first'
    cases first'
    rw [digit] at letter
    cases letter
  cases reads with
  | number _ _ read => exact ⟨_, read⟩
  | element first' letter => exact (other first' letter).elim
  | cell first' letter => exact (other first' letter).elim
  | name first' letter => exact (other first' letter).elim

end Operand

/-! ### Numbers -/

/-- Every word starts with a digit or follows a dot. `named` says whether the character before the
text is part of a name. -/
def OnlyNumbers (named : Bool) : Text → Prop
  | [] => True
  | c :: text =>
    (named = true ∨ isWordChar c = false ∨ c.isDigit = true) ∧ OnlyNumbers (isNameChar c) text

section Numbers

variable {named : Bool} {rest : Text}

theorem isNameChar_of_isDigit {c : Char} (digit : c.isDigit) : isNameChar c = true := by
  simp [isNameChar, isWordChar, Char.isAlphanum, digit]

theorem toNat_of_startsNumber {c : Char} (digit : startsNumber c) : c.toNat < 65 := by
  simp only [startsNumber, Bool.or_eq_true, beq_iff_eq, Char.isDigit_iff_toNat] at digit
  rcases digit with ⟨-, high⟩ | rfl
  · change _ ≤ 57 at high
    omega
  · decide

/-- No name starts like a number. -/
theorem startsNumber_of_isIdentifier {c : Char} {name : Text}
    (identifier : Text.isIdentifier (c :: name)) : startsNumber c = false := by
  rw [Bool.eq_false_iff]
  intro digit
  have bound := toNat_of_startsNumber digit
  simp only [Text.isIdentifier, Bool.and_eq_true, Bool.or_eq_true, beq_iff_eq] at identifier
  obtain ⟨letter | rfl, -⟩ := identifier
  · have range := range_of_isAlpha letter
    omega
  · revert bound
    decide

theorem toLower_of_startsNumber {c : Char} (digit : startsNumber c) : c.toLower = c := by
  have bound := toNat_of_startsNumber digit
  unfold Char.toLower
  rw [dif_neg]
  rintro ⟨low, -⟩
  rw [ge_iff_le, UInt32.le_iff_toNat_le] at low
  change 65 ≤ c.toNat at low
  omega

theorem OnlyNumbers.of_word {word : Text} (filled : word ≠ []) (letters : ∀ c ∈ word, isWordChar c)
    (numbers : OnlyNumbers named (word ++ rest)) : OnlyNumbers true rest := by
  induction word generalizing named with
  | nil => exact absurd rfl filled
  | cons c word ih =>
      have following := numbers.2
      have letter : isNameChar c = true := by simp [isNameChar, letters c (List.mem_cons_self ..)]
      rw [letter] at following
      cases word with
      | nil => exact following
      | cons d word =>
          exact ih (by simp) (fun e member => letters e (List.mem_cons_of_mem _ member)) following

theorem OnlyNumbers.digits {digits : Text} (all : ∀ c ∈ digits, c.isDigit)
    (following : OnlyNumbers (named || !digits.isEmpty) rest) :
    OnlyNumbers named (digits ++ rest) := by
  induction digits generalizing named with
  | nil => simpa using following
  | cons c digits ih =>
      have digit := all c (List.mem_cons_self ..)
      refine ⟨.inr (.inr digit), ?_⟩
      rw [isNameChar_of_isDigit digit]
      apply ih fun d member => all d (List.mem_cons_of_mem _ member)
      simpa using following

theorem OnlyNumbers.of_readExponent? {tail : Text} {power : Int}
    (read : Decimal.readExponent? tail = some power) : OnlyNumbers true tail := by
  have signed {digits : Text} (all : digits.all Char.isDigit) : OnlyNumbers false digits := by
    have whole : OnlyNumbers false (digits ++ []) := .digits (List.all_eq_true.mp all) trivial
    rwa [List.append_nil] at whole
  cases tail with
  | nil => exact trivial
  | cons mark text =>
      refine ⟨.inl rfl, ?_⟩
      simp only [Decimal.readExponent?, Option.ite_none_right_eq_some, Bool.and_eq_true,
        Bool.or_eq_true, beq_iff_eq] at read
      obtain ⟨⟨⟨letter, -⟩, digits⟩, -⟩ := read
      have named : isNameChar mark = true := by rcases letter with rfl | rfl <;> rfl
      rw [named]
      split at digits
      · exact ⟨.inl rfl, signed digits⟩
      · exact ⟨.inl rfl, signed digits⟩
      · have whole : OnlyNumbers true (text ++ []) := .digits (List.all_eq_true.mp digits) trivial
        rwa [List.append_nil] at whole

theorem OnlyNumbers.of_readDecimal? {text : Text} {value : Decimal.Scaled}
    (read : Decimal.readDecimal? text = some value) : OnlyNumbers false text := by
  have split : text.takeWhile Char.isDigit ++ text.dropWhile Char.isDigit = text :=
    List.takeWhile_append_dropWhile
  have digits (text : Text) : ∀ c ∈ text.takeWhile Char.isDigit, c.isDigit :=
    List.all_eq_true.mp List.all_takeWhile
  simp only [Decimal.readDecimal?, Text.drop_takeWhile] at read
  rw [← split]
  apply OnlyNumbers.digits (digits text)
  split at read
  · rename_i rest point
    rw [point]
    split at read
    · cases read
    · obtain ⟨power, exponent, -⟩ := Option.map_eq_some_iff.mp read
      refine ⟨.inr (.inl rfl), ?_⟩
      rw [← List.takeWhile_append_dropWhile (p := Char.isDigit) (l := rest)]
      exact OnlyNumbers.digits (digits rest) (OnlyNumbers.of_readExponent? exponent)
  · split at read
    · cases read
    · rename_i filled
      obtain ⟨power, exponent, -⟩ := Option.map_eq_some_iff.mp read
      have whole : (text.takeWhile Char.isDigit).isEmpty = false := by simpa using filled
      rw [whole]
      exact OnlyNumbers.of_readExponent? exponent

/-- A number that starts with a digit or a point is a decimal. -/
theorem readDecimal?_of_read? {text : Text} {c : Char} {value : Float}
    (first : text.head? = some c) (digit : startsNumber c)
    (read : Decimal.read? text = some value) : ∃ scaled, Decimal.readDecimal? text = some scaled := by
  obtain ⟨rest, rfl⟩ := List.head?_eq_some_iff.mp first
  have unsigned : Decimal.read? (c :: rest) = Decimal.readMagnitude? (c :: rest) := by
    unfold Decimal.read?
    split
    · rename_i same
      cases same
      cases digit
    · rename_i same
      cases same
      cases digit
    · rfl
  have word {n : String} {d : Char} {tail : Text} (spelled : n.toList = d :: tail)
      (letter : startsNumber d = false) :
      (Text.str ((c :: rest).map Char.toLower) == n) = false := by
    rw [beq_eq_false_iff_ne]
    intro same
    have chars := congrArg String.toList same
    rw [spelled, Text.str, String.toList_ofList, List.map_cons, List.cons.injEq,
      toLower_of_startsNumber digit] at chars
    rw [chars.1, letter] at digit
    cases digit
  have decimal : Decimal.readMagnitude? (c :: rest) =
      (Decimal.readDecimal? (c :: rest)).map Decimal.ofScaled := by
    simp only [Decimal.readMagnitude?, word (n := "inf") rfl rfl, word (n := "infinity") rfl rfl,
      word (n := "nan") rfl rfl, Bool.or_self, Bool.false_eq_true, if_false]
  rw [unsigned, decimal] at read
  obtain ⟨scaled, found, -⟩ := Option.map_eq_some_iff.mp read
  exact ⟨scaled, found⟩

theorem OnlyNumbers.of_read? {text : Text} {c : Char} {value : Float}
    (first : text.head? = some c) (digit : startsNumber c)
    (read : Decimal.read? text = some value) : OnlyNumbers false text := by
  obtain ⟨scaled, found⟩ := readDecimal?_of_read? first digit read
  exact OnlyNumbers.of_readDecimal? found

theorem Renamed.eq_of_onlyNumbers {α : Type} [Lettered α] {ρ : Renaming} {afterDot : Bool}
    {s t : List α} (related : Renamed ρ afterDot s t) (start : startsWord s → named = afterDot)
    (numbers : OnlyNumbers named (s.map letter)) : t = s := by
  induction related generalizing named with
  | nil => rfl
  | mark between rest ih =>
      rename_i a s t
      have outside : isWordChar (letter a) = false := between
      have same : isNameChar (letter a) = (letter a == '.') := by simp [isNameChar, outside]
      rw [ih (fun _ => same) numbers.2]
  | word a filled letters maximal rest ih =>
      rename_i afterDot s t word
      have spelled : (writeWord a word ++ s).map letter = word ++ s.map letter := by
        simp [writeWord, letter_write, Function.comp_def]
      rw [spelled] at numbers
      rw [ih (fun starts => by rw [maximal] at starts; cases starts)
        (numbers.of_word filled letters)]
      congr 2
      have begun := start (startsWord_writeWord filled letters)
      obtain ⟨c, word, rfl⟩ := List.exists_cons_of_ne_nil filled
      rcases numbers.1 with after | other | digit
      · rw [← begun, after, Renaming.word_after_dot]
      · rw [letters c (List.mem_cons_self ..)] at other
        cases other
      · apply Renaming.word_of_ne
        intro same
        have identifier := ρ.old_isIdentifier
        rw [← same] at identifier
        have first := startsNumber_of_isIdentifier identifier
        rw [startsNumber, digit] at first
        cases first

end Numbers

/-! ### Names and elements -/

theorem Text.mem_splitOn (separator : Char) {c : Char} {text : Text} (member : c ∈ text) :
    c = separator ∨ ∃ piece ∈ text.splitOn separator, c ∈ piece := by
  induction text with
  | nil => cases member
  | cons d text ih =>
      rw [List.splitOn_cons_eq_if_modifyHead]
      obtain ⟨head, tail, cut⟩ := List.exists_cons_of_ne_nil (List.splitOn_ne_nil separator text)
      rw [cut] at ih ⊢
      rcases List.mem_cons.mp member with rfl | member
      · by_cases same : c = separator
        · exact .inl same
        · refine .inr ⟨c :: head, ?_, List.mem_cons_self ..⟩
          simp [beq_eq_false_iff_ne.mpr same]
      · rcases ih member with same | ⟨piece, among, inside⟩
        · exact .inl same
        · right
          by_cases same : d = separator
          · exact ⟨piece, by simp [same, List.mem_cons.mp among], inside⟩
          · rw [if_neg (by simpa using same), List.modifyHead_cons]
            rcases List.mem_cons.mp among with rfl | among
            · exact ⟨d :: piece, List.mem_cons_self .., List.mem_cons_of_mem _ inside⟩
            · exact ⟨piece, List.mem_cons_of_mem _ among, inside⟩

theorem Text.dotted_of_isDottedName {name : Text} (dotted : name.isDottedName) :
    ∀ c ∈ name, isWordChar c ∨ c = '.' := by
  intro c member
  rcases Text.mem_splitOn '.' member with same | ⟨piece, among, inside⟩
  · exact .inr same
  · exact .inl ((isWordChar_of_isIdentifier (List.all_eq_true.mp dotted piece among)).2 c inside)

theorem Renaming.word_eq (ρ : Renaming) (word : Text) :
    ρ.word false word = if word = ρ.old then ρ.new else word := by
  simp [Renaming.word]

theorem text_of_scan {b : Bracket} {text : Text} {group : Group}
    (found : b.scan text 0 = .matched group) :
    text = Text.ofGlyphs group.before ++ b.opening ::
      (group.content ++ b.closing :: Text.ofGlyphs group.after) := by
  simp only [Bracket.scan, Bracket.scanGlyphs] at found
  split at found
  · cases found
  · rename_i before rest opening
    split at found
    · cases found
    · rename_i inside after closing
      cases found
      obtain ⟨left, opens, whole⟩ := Bracket.append_of_splitOpening opening
      obtain ⟨right, closes, behind⟩ := Bracket.append_of_splitClosing closing
      have first : left.char = b.opening := by simpa using (Bool.and_eq_true_iff.mp opens).2
      have last : right.char = b.closing := by simpa using (Bool.and_eq_true_iff.mp closes).2
      rw [← Text.ofGlyphs_glyphs text, whole, behind]
      simp [Text.ofGlyphs, Group.content, first, last]

namespace Renamed

variable {ρ : Renaming} {afterDot : Bool} {s t : Text}

/-- The first character stays, or it becomes the first one of the new name. -/
theorem head?_eq (related : Renamed ρ afterDot s t) {c : Char} (first : s.head? = some c) :
    t.head? = some c ∨ isWordChar c ∧ t.head? = ρ.new.head? := by
  cases related with
  | nil => cases first
  | mark => exact .inl first
  | word a filled letters =>
      rename_i s t word
      rw [writeWord_char] at first
      rw [writeWord_char]
      obtain ⟨d, word, rfl⟩ := List.exists_cons_of_ne_nil filled
      cases first
      unfold Renaming.word
      split
      · obtain ⟨e, new, same⟩ :=
          List.exists_cons_of_ne_nil (isWordChar_of_isIdentifier ρ.new_isIdentifier).1
        rw [same]
        exact .inr ⟨letters c (List.mem_cons_self ..), rfl⟩
      · exact .inl rfl

/-- Both start with the same mark or none does. -/
theorem head?_beq (related : Renamed ρ afterDot s t) {mark : Char}
    (between : isWordChar mark = false) : (t.head? == some mark) = (s.head? == some mark) := by
  have other {word : Text} (filled : word ≠ []) (letters : ∀ c ∈ word, isWordChar c) (s : Text) :
      ((word ++ s).head? == some mark) = false := by
    obtain ⟨c, word, rfl⟩ := List.exists_cons_of_ne_nil filled
    rw [beq_eq_false_iff_ne]
    intro same
    rw [← Option.some.inj same, letters c (List.mem_cons_self ..)] at between
    cases between
  cases related with
  | nil => rfl
  | mark => rfl
  | word a filled letters =>
      rw [writeWord_char, writeWord_char, other filled letters,
        other (Renaming.word_ne_nil filled) (Renaming.letters_word letters)]

theorem head?_of_letter (related : Renamed ρ afterDot s t) {c : Char} (first : s.head? = some c)
    (letter : startsNumber c = false) : ∃ d, t.head? = some d ∧ startsNumber d = false := by
  rcases related.head?_eq first with same | ⟨-, new⟩
  · exact ⟨c, same, letter⟩
  · have identifier := ρ.new_isIdentifier
    obtain ⟨d, name, same⟩ := List.exists_cons_of_ne_nil (isWordChar_of_isIdentifier identifier).1
    rw [same] at new identifier
    exact ⟨d, new, startsNumber_of_isIdentifier identifier⟩

theorem getLast?_eq_some_iff (related : Renamed ρ afterDot s t) {mark : Char}
    (between : isWordChar mark = false) : t.getLast? = some mark ↔ s.getLast? = some mark := by
  induction related with
  | nil => rfl
  | mark outside rest ih =>
      rename_i c s t
      rw [List.getLast?_cons, List.getLast?_cons]
      cases s with
      | nil => rw [rest.eq_nil_iff.mpr rfl]
      | cons d s =>
          obtain ⟨e, t, rfl⟩ := List.exists_cons_of_ne_nil fun empty =>
            List.cons_ne_nil d s (rest.eq_nil_iff.mp empty)
          simpa [List.getLast?_eq_some_getLast] using ih
  | word a filled letters maximal rest ih =>
      rename_i dot s t word
      have last {word : Text} (filled : word ≠ []) (letters : ∀ c ∈ word, isWordChar c) :
          word.getLast? ≠ some mark := by
        rw [List.getLast?_eq_some_getLast filled, ne_eq, Option.some.injEq]
        rintro rfl
        rw [letters _ (List.getLast_mem filled)] at between
        cases between
      rw [writeWord_char, writeWord_char, List.getLast?_append, List.getLast?_append]
      cases s with
      | nil =>
          rw [rest.eq_nil_iff.mpr rfl]
          have filled' : ρ.word dot word ≠ [] := Renaming.word_ne_nil filled
          simp [last filled letters, last filled' (Renaming.letters_word letters)]
      | cons d s =>
          obtain ⟨e, t, rfl⟩ := List.exists_cons_of_ne_nil fun empty =>
            List.cons_ne_nil d s (rest.eq_nil_iff.mp empty)
          simpa [List.getLast?_eq_some_getLast] using ih

/-- What is dropped at the start holds no word. -/
theorem exists_dropWhile {p : Char → Bool} (separates : Separates (α := Char) p)
    (related : Renamed ρ afterDot s t) :
    ∃ dropped, s = dropped ++ s.dropWhile p ∧ t = dropped ++ t.dropWhile p := by
  induction related with
  | nil => exact ⟨[], rfl, rfl⟩
  | mark between rest ih =>
      rename_i c s t
      by_cases drops : p c
      · obtain ⟨dropped, left, right⟩ := ih
        refine ⟨c :: dropped, ?_, ?_⟩
        · rw [List.dropWhile_cons_of_pos drops, List.cons_append, ← left]
        · rw [List.dropWhile_cons_of_pos drops, List.cons_append, ← right]
      · exact ⟨[], by simp [drops], by simp [drops]⟩
  | word a filled letters maximal rest =>
      refine ⟨[], ?_, ?_⟩
      · rw [dropWhile_writeWord separates a filled letters, List.nil_append]
      · rw [dropWhile_writeWord separates a (Renaming.word_ne_nil filled)
          (Renaming.letters_word letters), List.nil_append]

/-- What is dropped at the end holds no word. -/
theorem exists_dropEndWhile {p : Char → Bool} (words : ∀ c, isWordChar c → p c = false)
    (related : Renamed ρ afterDot s t) :
    ∃ dropped, s = Text.dropEndWhile p s ++ dropped ∧ t = Text.dropEndWhile p t ++ dropped := by
  induction related with
  | nil => exact ⟨[], rfl, rfl⟩
  | mark between rest ih =>
      rename_i c s t
      obtain ⟨dropped, left, right⟩ := ih
      simp only [Text.dropEndWhile_cons, (rest.dropEndWhile words).eq_nil_iff]
      split
      · rename_i gone
        rw [gone.1, List.nil_append] at left
        rw [(rest.dropEndWhile words).eq_nil_iff.mpr gone.1, List.nil_append] at right
        exact ⟨c :: dropped, by rw [← left]; rfl, by rw [← right]; rfl⟩
      · exact ⟨dropped, by rw [List.cons_append, ← left], by rw [List.cons_append, ← right]⟩
  | word a filled letters maximal rest ih =>
      obtain ⟨dropped, left, right⟩ := ih
      have kept {word : Text} (letters : ∀ c ∈ word, isWordChar c) : ∀ c ∈ word, p c = false :=
        fun c member => words c (letters c member)
      simp only [writeWord_char]
      rw [Text.dropEndWhile_append filled (kept letters), Text.dropEndWhile_append
        (Renaming.word_ne_nil filled) (kept (Renaming.letters_word letters))]
      exact ⟨dropped, by rw [List.append_assoc, ← left], by rw [List.append_assoc, ← right]⟩

theorem eq_of_trim_eq (related : Renamed ρ false s t) (same : t.trim = s.trim) : t = s := by
  obtain ⟨front, left, right⟩ := related.exists_dropWhile separates_isBlank
  obtain ⟨back, left', right'⟩ := related.trimStart.exists_dropEndWhile
    (p := isBlank) fun _ word => isBlank_of_isWordChar word
  rw [left, right]
  change front ++ t.trimStart = front ++ s.trimStart
  rw [left', right']
  change front ++ (t.trim ++ back) = front ++ (s.trim ++ back)
  rw [same]

end Renamed

namespace Operand

variable {ρ : Renaming} {s t : Text} {o : Operand}

theorem ofName_renamed (read : ofName s = .ok o) (related : Renamed ρ false s t) :
    ofName t = .ok (o.rename ρ.old ρ.new) ∧ (ρ.old ∉ o.names → t = s) := by
  unfold ofName at read ⊢
  cases cut : s.cutAt '.' with
  | none =>
      simp only [cut] at read
      simp only [related.cutAt_none rfl cut]
      split at read
      · rename_i identifier
        cases read
        have renamed := related.eq_word_of_isIdentifier identifier
        rw [if_pos (renamed ▸ Renaming.isIdentifier_word identifier), renamed]
        refine ⟨by rw [rename, ρ.word_eq], fun absent => ?_⟩
        apply Renaming.word_of_ne
        rintro rfl
        exact absent (List.mem_singleton_self _)
      · cases read
  | some parts =>
      obtain ⟨owner, field⟩ := parts
      obtain ⟨owner', field', cut', left, right⟩ := related.cutAt_some rfl cut
      simp only [cut] at read
      simp only [cut']
      split at read
      · rename_i accepted
        cases read
        obtain ⟨identifier, dotted⟩ := Bool.and_eq_true_iff.mp accepted
        have same : field' = field :=
          right.eq_of_dotted (Text.dotted_of_isDottedName dotted) fun _ => rfl
        have renamed := left.eq_word_of_isIdentifier identifier
        subst same renamed
        rw [Renaming.isIdentifier_word identifier, dotted, Bool.and_self, if_pos rfl]
        refine ⟨by rw [rename, ρ.word_eq], fun absent => ?_⟩
        rw [(Text.cutAt_eq_some_iff.mp cut).1, (Text.cutAt_eq_some_iff.mp cut').1,
          Renaming.word_of_ne]
        rintro rfl
        exact absent (List.mem_singleton_self _)
      · cases read

/-- A renamed text reads as the renamed operand, and it is the same text if the operand does not have
the name. -/
theorem parse_renamed (read : parse s = .ok o) (related : Renamed ρ false s t) :
    parse t = .ok (o.rename ρ.old ρ.new) ∧ (ρ.old ∉ o.names → t = s) := by
  induction length : s.length using Nat.strongRecOn generalizing s t o with
  | ind n ih =>
      subst length
      suffices trimmed : Reads t.trim (o.rename ρ.old ρ.new) ∧ (ρ.old ∉ o.names → t.trim = s.trim)
        from ⟨parse_of_reads trimmed.1, fun absent => related.eq_of_trim_eq (trimmed.2 absent)⟩
      have reads := reads_of_parse read
      have trims := related.trim
      have shorter : s.trim.length ≤ s.length := Text.length_trim_le s
      generalize s.trim = text at reads trims shorter
      generalize t.trim = text' at trims
      cases reads with
      | number first digit value =>
          have same : text' = text :=
            trims.eq_of_onlyNumbers (fun _ => rfl)
              (by simpa [letter] using OnlyNumbers.of_read? first digit value)
          exact ⟨same ▸ .number first digit value, fun _ => same⟩
      | element first letter last found ends array single inner =>
          rename_i group index
          obtain ⟨d, first', letter'⟩ := trims.head?_of_letter first letter
          obtain ⟨group', found', before, inside, after, -⟩ := trims.exists_scan found
          have renamed := before.ofGlyphs.eq_word_of_isIdentifier array
          have ends' : group'.after = [] := after.eq_nil_iff.mpr ends
          have smaller := Bracket.length_content_of_scan found
          obtain ⟨read', same⟩ := ih _ (by omega) inner inside.ofGlyphs rfl
          refine ⟨?_, fun absent => ?_⟩
          · rw [rename, ← ρ.word_eq, ← renamed]
            exact .element first' letter' ((trims.getLast?_eq_some_iff rfl).mpr last) found' ends'
              (renamed ▸ Renaming.isIdentifier_word array) (inside.ofGlyphs.cutAt_none rfl single)
              read'
          · simp only [names, List.mem_cons, not_or] at absent
            have sameArray := renamed.trans (Renaming.word_of_ne (Ne.symm absent.1))
            have sameIndex : group'.content = group.content := same absent.2
            rw [text_of_scan found, text_of_scan found', ends, ends', sameArray, sameIndex]
      | cell first letter last found ends array cut readRow readColumn =>
          rename_i group left right row column
          obtain ⟨d, first', letter'⟩ := trims.head?_of_letter first letter
          obtain ⟨group', found', before, inside, after, -⟩ := trims.exists_scan found
          have renamed := before.ofGlyphs.eq_word_of_isIdentifier array
          have ends' : group'.after = [] := after.eq_nil_iff.mpr ends
          have smaller := Bracket.length_content_of_scan found
          have ⟨leftSmaller, rightSmaller⟩ := Text.length_of_cutAt cut
          obtain ⟨left', right', cut', rowRelated, columnRelated⟩ :=
            inside.ofGlyphs.cutAt_some rfl cut
          obtain ⟨readRow', sameRow⟩ := ih _ (by omega) readRow rowRelated rfl
          obtain ⟨readColumn', sameColumn⟩ := ih _ (by omega) readColumn columnRelated rfl
          refine ⟨?_, fun absent => ?_⟩
          · rw [rename, ← ρ.word_eq, ← renamed]
            exact .cell first' letter' ((trims.getLast?_eq_some_iff rfl).mpr last) found' ends'
              (renamed ▸ Renaming.isIdentifier_word array) cut' readRow' readColumn'
          · simp only [names, List.cons_append, List.mem_cons, List.mem_append, not_or] at absent
            have sameArray := renamed.trans (Renaming.word_of_ne (Ne.symm absent.1))
            have sameContent : group'.content = group.content := by
              rw [(Text.cutAt_eq_some_iff.mp cut).1]
              refine (Text.cutAt_eq_some_iff.mp cut').1.trans ?_
              rw [sameRow absent.2.1, sameColumn absent.2.2]
            rw [text_of_scan found, text_of_scan found', ends, ends', sameArray, sameContent]
      | name first letter last value =>
          obtain ⟨d, first', letter'⟩ := trims.head?_of_letter first letter
          obtain ⟨read', same⟩ := ofName_renamed value trims
          refine ⟨.name first' letter' (fun ends => last ?_) read', same⟩
          exact (trims.getLast?_eq_some_iff rfl).mp ends

end Operand

end MissionScript
