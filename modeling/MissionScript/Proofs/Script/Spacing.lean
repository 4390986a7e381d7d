import MissionScript.Proofs.Script.Target

/-!
# Blanks around assignment signs

A blank on each side of an assignment sign changes neither the shape of the statement nor its parts: the
sign is found in the same place, and the blanks are trimmed off both sides. The exceptions are a word in
front that is a keyword as soon as a blank stands behind it, and a literal behind the sign that hides it
from a second sign.
-/

namespace MissionScript

/-! ### Finding the sign -/

section Sign

variable {target value : Text}

/-- The first sign outside literals and groups is taken, if no other one stands next to it. -/
theorem splitAssignmentFrom_append {front after : List Glyph} {sign : Glyph} {previous : Option Char}
    (quiet : ∀ g ∈ front, g.isFree ∧ g.char ∉ "=<>~!".toList)
    (lead : ∀ c ∈ previous, c ∉ "=<>~!".toList) (top : sign.isTop) (equals : sign.char = '=')
    (next : (Text.freeChars after).head? ≠ some '=') :
    splitAssignmentFrom previous (front ++ sign :: after) = some (front, after) := by
  induction front generalizing previous with
  | nil =>
      have last : previous.toList.getLast? = previous := by cases previous <;> rfl
      have is : IsAssignmentSign previous.toList sign after := ⟨top, equals, by rwa [last], next⟩
      rw [isAssignmentSign_iff, last] at is
      rw [List.nil_append, splitAssignmentFrom]
      exact if_pos is
  | cons g front ih =>
      obtain ⟨⟨free, other⟩, quiet⟩ := List.forall_mem_cons.mp quiet
      have noSign : (g.char == '=') = false := by
        rw [beq_eq_false_iff_ne]
        rintro same
        exact other (same ▸ by decide)
      have rest : splitAssignmentFrom (some g.char) (front ++ sign :: after) = some (front, after) :=
        ih quiet fun c same => Option.some.inj same ▸ other
      rw [List.cons_append, splitAssignmentFrom]
      simp only [noSign, free, Bool.and_false, Bool.false_and, Bool.false_eq_true, if_false, if_true, rest]
      rfl

theorem splitAssignment_sign (quiet : Quiet target)
    (next : (Text.freeChars value.glyphs).head? ≠ some '=') :
    splitAssignment (target ++ '=' :: value) = some (target, value) := by
  have other : ∀ c ∈ "=<>~!".toList, isQuietChar c = false := List.all_iff_forall_prop.mp (by decide)
  rw [splitAssignment, quiet.glyphs_sign, splitAssignmentFrom_append _ (by simp) rfl rfl next]
  · simp only [Option.map_some, Text.ofGlyphs_glyphs]
  · refine fun g member => ⟨quiet.isFree g member, fun loud => ?_⟩
    exact quiet.not_mem (other _ loud) (char_mem_of_mem_glyphsFrom member)

/-- There are no outputs of a call in a quiet text. -/
theorem hasFreeSquare_of_quiet (quiet : Quiet target) : hasFreeSquare 0 target.glyphs = false := by
  have none : ∀ g ∈ target.glyphs, g.opens .square = false := by
    intro g member
    have other : g.char ≠ '[' := by
      rintro same
      exact quiet.not_mem (c := '[') (by decide) (same ▸ char_mem_of_mem_glyphsFrom member)
    simp [Glyph.opens, Bracket.opening, other]
  generalize 0 = depth
  generalize target.glyphs = gs at none
  induction gs generalizing depth with
  | nil => rfl
  | cons g gs ih =>
      obtain ⟨here, none⟩ := List.forall_mem_cons.mp none
      rw [hasFreeSquare, here, ih _ none, ih _ none, ih _ none]
      simp

end Sign

/-! ### The code behind the sign -/

namespace Text

/-- The code without the blanks and semicolons at its end. -/
def withoutEnd (code : Text) : Text := (dropEndWhile (· == ';') code.trimEnd).trimEnd

variable {p : Char → Bool} {front rest : Text} {c : Char}

theorem dropEndWhile_append_cons (kept : p c = false) :
    dropEndWhile p (front ++ c :: rest) = front ++ c :: dropEndWhile p rest := by
  have stops : dropEndWhile p (c :: rest) = c :: dropEndWhile p rest := by
    rw [dropEndWhile_cons, if_neg]
    rintro ⟨-, dropped⟩
    rw [kept] at dropped
    cases dropped
  rw [dropEndWhile_append_eq, stops, if_neg (List.cons_ne_nil _ _)]

theorem withoutEnd_append_cons (letter : isBlank c = false) (mark : c ≠ ';') :
    withoutEnd (front ++ c :: rest) = front ++ c :: withoutEnd rest := by
  have kept : (c == ';') = false := beq_eq_false_iff_ne.mpr mark
  calc withoutEnd (front ++ c :: rest)
      = trimEnd (dropEndWhile (· == ';') (front ++ c :: rest.trimEnd)) :=
        congrArg (fun code => trimEnd (dropEndWhile (· == ';') code)) (dropEndWhile_append_cons letter)
    _ = trimEnd (front ++ c :: dropEndWhile (· == ';') rest.trimEnd) :=
        congrArg trimEnd (dropEndWhile_append_cons (p := (· == ';')) kept)
    _ = front ++ c :: withoutEnd rest := dropEndWhile_append_cons letter

theorem withoutEnd_prefix (code : Text) : withoutEnd code <+: code :=
  ((Text.dropEndWhile_prefix _ _).trans (Text.dropEndWhile_prefix _ _)).trans (Text.dropEndWhile_prefix _ _)

theorem trimEnd_withoutEnd (code : Text) : (withoutEnd code).trimEnd = withoutEnd code :=
  dropEndWhile_eq_self getLast?_dropEndWhile

/-- A space in front of the code stays in front of what is left, if anything is. -/
theorem withoutEnd_space (code : Text) :
    withoutEnd (' ' :: code) = [] ∧ withoutEnd code = [] ∨
      withoutEnd (' ' :: code) = ' ' :: withoutEnd code := by
  have space (text : Text) :
      trimEnd (' ' :: text) = if text.trimEnd = [] then [] else ' ' :: text.trimEnd := by
    by_cases none : text.trimEnd = []
    · rw [if_pos none, trimEnd, dropEndWhile_cons, if_pos ⟨none, by decide⟩]
    · rw [if_neg none, trimEnd, dropEndWhile_cons, if_neg fun both => none both.1]
      rfl
  rw [withoutEnd, withoutEnd, space]
  split
  · rename_i none
    rw [none]
    exact .inl ⟨rfl, rfl⟩
  · rw [dropEndWhile_cons, if_neg (by simp), space]
    split
    · rename_i none
      exact .inl ⟨rfl, none⟩
    · exact .inr rfl

theorem trim_withoutEnd_space (code : Text) :
    (withoutEnd (' ' :: code)).trim = (withoutEnd code).trim := by
  rcases withoutEnd_space code with ⟨none, none'⟩ | same
  · rw [none, none']
  · rw [same]
    rfl

theorem trim_sign {text value : Text} (start : ∀ c ∈ text.head?, isBlank c = false)
    (ended : value.trimEnd = value) : trim (text ++ '=' :: value) = text ++ '=' :: value := by
  have start' : ∀ c ∈ (text ++ '=' :: value).head?, isBlank c = false := by
    cases text with
    | nil => rintro c ⟨⟩; decide
    | cons c text => exact start
  rw [trim, trimStart, dropWhile_eq_self start', trimEnd, dropEndWhile_append_cons (by decide)]
  exact congrArg (text ++ '=' :: ·) ended

/-- What follows a sign within a text follows it within the start of the text. -/
theorem next_of_prefix {short long : Text} (leads : short <+: long)
    (next : (freeChars long.glyphs).head? ≠ some '=') : (freeChars short.glyphs).head? ≠ some '=' := by
  obtain ⟨more, rfl⟩ := leads
  obtain ⟨inner, split⟩ := glyphs_append short
  intro sign
  apply next
  rw [split, freeChars, List.filter_append, ofGlyphs_append, List.head?_append]
  change (freeChars short.glyphs).head?.or _ = _
  rw [sign]
  rfl

theorem next_space (text : Text) : (freeChars (glyphs (' ' :: text))).head? ≠ some '=' := by
  rw [glyphs_of_isBlank (by decide), freeChars_cons, if_pos (by rfl), List.head?_cons]
  decide

end Text

/-! ### The reading of the line -/

/-- What stands in front of a sign: an operand with blanks around it, which is no keyword there. -/
structure IsTarget (keywords : Keywords) (target : Text) (operand : Operand) : Prop where
  read : Operand.parse target = .ok operand
  named : operand.isNumber = false
  free : operand.isReserved keywords = false

namespace IsTarget

variable {keywords : Keywords} {target value : Text} {operand : Operand}

theorem quiet (isTarget : IsTarget keywords target operand) : Quiet target :=
  Operand.quiet_of_parse isTarget.read

theorem reads (isTarget : IsTarget keywords target operand) : Operand.Reads target.trim operand :=
  Operand.reads_of_parse isTarget.read

theorem filled (isTarget : IsTarget keywords target operand) : target.trimStart ≠ [] := by
  intro empty
  have reads := isTarget.reads
  rw [Text.trim, empty] at reads
  cases reads with
  | number first => cases first
  | element first => cases first
  | cell first => cases first
  | name first => cases first

theorem trimStart_append (isTarget : IsTarget keywords target operand) (tail : Text) :
    Text.trimStart (target ++ tail) = target.trimStart ++ tail := by
  rw [Text.trimStart, List.dropWhile_append, if_neg]
  · rfl
  · exact fun empty => isTarget.filled (List.isEmpty_iff.mp empty)

/-- The word at the front with the character behind it. -/
theorem front (isTarget : IsTarget keywords target operand) {tail : Text}
    (ends : ∀ c ∈ tail.head?, isWordChar c = false) :
    (target.trimStart ++ tail).takeWhile isWordChar = operand.word ∧
      ∃ next, ((target.trimStart ++ tail).dropWhile isWordChar).head? = operand.behind?.or next := by
  obtain ⟨blanks, blank, whole⟩ := Text.exists_trimEnd target.trimStart
  have ends' : ∀ c ∈ (blanks ++ tail).head?, isWordChar c = false := by
    cases blanks with
    | nil => exact ends
    | cons b blanks =>
        rintro c ⟨⟩
        rw [Bool.eq_false_iff]
        intro letter
        have here : isBlank b := List.all_eq_true.mp blank b List.mem_cons_self
        rw [isBlank_of_isWordChar letter] at here
        cases here
  have ⟨word, behind⟩ := isTarget.reads.front isTarget.named ends'
  rw [whole, List.append_assoc]
  exact ⟨word, _, behind⟩

/-- The line does not start with the remote keyword. -/
theorem not_isRemote (isTarget : IsTarget keywords target operand) {tail : Text}
    (ends : ∀ c ∈ tail.head?, isWordChar c = false) : ¬IsRemote (target.trimStart ++ tail) := by
  obtain ⟨word, next, behind⟩ := isTarget.front ends
  rintro ⟨remote, blank⟩
  rw [word] at remote
  rw [behind] at blank
  have free := isTarget.free
  cases operand with
  | number value => cases isTarget.named
  | var name =>
      rw [Operand.isReserved, show name = remoteKeyword from remote] at free
      simp [Keywords.reserves] at free
  | parameter owner field => simp [Operand.behind?] at blank
  | element array index => simp [Operand.behind?] at blank
  | cell array row column => simp [Operand.behind?] at blank

/-! ### Shapes and parts -/

theorem shapeOf_sign (isTarget : IsTarget keywords target operand)
    (next : (Text.freeChars value.glyphs).head? ≠ some '=') :
    shapeOf keywords (target.trimStart ++ '=' :: value) =
      if operand.behind? = some '(' ∧ operand.word = functionKeyword then .function
      else if operand.isCommand keywords then .command
      else .assignment := by
  have ends : ∀ c ∈ ('=' :: value).head?, isWordChar c = false := by
    rintro c ⟨⟩
    decide
  obtain ⟨word, following, behind⟩ := isTarget.front ends
  have quiet := isTarget.quiet.trimStart
  have bare : bareShape (target.trimStart ++ '=' :: value) = .assignment := by
    rw [bareShape, splitAssignment_sign quiet next]
    dsimp only
    rw [hasFreeSquare_of_quiet quiet]
    rfl
  rw [shapeOf_eq, word, behind, bare]
  have element (array : Text) :
      shapeBehind keywords array (some '(') .assignment =
        if array = functionKeyword then .function
        else if keywords.contains array && array != functionKeyword then .command
        else .assignment := by
    have paren : isBlank '(' = false := by decide
    by_cases same : array = functionKeyword <;> simp [shapeBehind, paren, same]
  cases operand with
  | number value => cases isTarget.named
  | var name =>
      rw [if_neg (by rintro ⟨⟨⟩, -⟩)]
      exact shapeBehind_of_not_reserved isTarget.free
  | parameter owner field =>
      have dot : isBlank '.' = false := by decide
      simp [shapeBehind, Operand.behind?, Operand.isCommand, dot]
  | element array index =>
      simpa [Operand.behind?, Operand.isCommand, Operand.word] using element array
  | cell array row column =>
      simpa [Operand.behind?, Operand.isCommand, Operand.word] using element array

end IsTarget

namespace Reading

variable {r s : Reading} {left right left' right' : Text}

/-- The parts apart from the text that an error shows. -/
def outcome (r : Reading) : Except ParseCause Parts := r.parts.mapError (·.cause)

theorem outcome_sides {make : Text → Text → Parts} (same : left.trim = left'.trim)
    (same' : right.trim = right'.trim) :
    (r.sides make left right).mapError (·.cause) = (s.sides make left' right').mapError (·.cause) := by
  unfold sides
  rw [same, same']
  split
  · rfl
  split
  · rfl
  · rfl

theorem outcome_function {rest rest' : Text}
    (behind : functionKeyword.after? r.instruction = some rest)
    (behind' : functionKeyword.after? s.instruction = some rest')
    (cut : splitAssignment rest.trim = some (left, right))
    (cut' : splitAssignment rest'.trim = some (left', right'))
    (same : left.trim = left'.trim) (same' : right.trim = right'.trim) :
    r.functionParts.mapError (·.cause) = s.functionParts.mapError (·.cause) := by
  unfold functionParts
  simp only [behind, behind', Option.getD_some, cut, cut', same, same']
  split
  · cases checkBalance left'.trim with
    | error e => rfl
    | ok balanced =>
        dsimp only
        repeat' split
        all_goals rfl
  · repeat' split
    all_goals rfl

/-- What stands behind the word of a function block. -/
theorem exists_group {keywords : Keywords} {target : Text} {operand : Operand}
    (isTarget : IsTarget keywords target operand) (word : operand.word = functionKeyword)
    (array : operand.behind? = some '(') :
    ∃ group, target.trimStart = functionKeyword ++ group ∧ Quiet group ∧
      (∀ c ∈ group.head?, isBlank c = false) ∧ target.trim = functionKeyword ++ group.trim := by
  obtain ⟨identifier, rest, whole, first⟩ := isTarget.reads.exists_behind isTarget.named
  obtain ⟨blanks, blank, ends⟩ := Text.exists_trimEnd target.trimStart
  rw [word] at whole
  rw [array] at first
  have front : target.trimStart = functionKeyword ++ (rest ++ blanks) := by
    rw [← List.append_assoc, ← whole]
    exact ends
  have start : ∀ c ∈ (rest ++ blanks).head?, isBlank c = false := by
    rw [List.head?_append, first]
    rintro c ⟨⟩
    decide
  refine ⟨rest ++ blanks, front, ?_, start, ?_⟩
  · have quiet := isTarget.quiet.trimStart
    rw [front] at quiet
    exact quiet.of_append (.of_identifier (by decide))
  · have letters : ∀ c ∈ functionKeyword, isBlank c = false := List.all_iff_forall_prop.mp (by decide)
    have filled : functionKeyword ≠ [] := by decide
    rw [Text.trim, front, Text.trim, Text.trimStart, Text.dropWhile_eq_self start]
    exact Text.dropEndWhile_append filled letters _

/-- The parts do not depend on the blanks around the sign. -/
theorem outcome_sign {keywords : Keywords} {target target' value value' : Text} {operand : Operand}
    (isTarget : IsTarget keywords target operand) (isTarget' : IsTarget keywords target' operand)
    (next : (Text.freeChars value.glyphs).head? ≠ some '=')
    (next' : (Text.freeChars value'.glyphs).head? ≠ some '=')
    (ended : value.trimEnd = value) (ended' : value'.trimEnd = value')
    (sameTarget : target.trim = target'.trim) (sameValue : value.trim = value'.trim)
    (whole : r.instruction = target.trimStart ++ '=' :: value)
    (whole' : s.instruction = target'.trimStart ++ '=' :: value')
    (shape : r.shape = shapeOf keywords r.instruction)
    (shape' : s.shape = shapeOf keywords s.instruction) :
    r.shape = s.shape ∧ (operand.isCommand keywords = false → r.outcome = s.outcome) := by
  rw [whole, isTarget.shapeOf_sign next] at shape
  rw [whole', isTarget'.shapeOf_sign next'] at shape'
  refine ⟨shape.trans shape'.symm, fun free => ?_⟩
  by_cases function : operand.behind? = some '(' ∧ operand.word = functionKeyword
  · obtain ⟨array, word⟩ := function
    rw [if_pos ⟨array, word⟩] at shape shape'
    obtain ⟨group, front, quiet, start, trimmed⟩ := exists_group isTarget word array
    obtain ⟨group', front', quiet', start', trimmed'⟩ := exists_group isTarget' word array
    rw [front, List.append_assoc, ← Text.after?_eq_some_iff] at whole
    rw [front', List.append_assoc, ← Text.after?_eq_some_iff] at whole'
    rw [outcome, outcome, parts, parts, shape, shape']
    have cut := splitAssignment_sign quiet next
    have cut' := splitAssignment_sign quiet' next'
    rw [trimmed, trimmed'] at sameTarget
    rw [← Text.trim_sign start ended] at cut
    rw [← Text.trim_sign start' ended'] at cut'
    exact outcome_function whole whole' cut cut' (List.append_cancel_left sameTarget) sameValue
  · rw [if_neg function, if_neg (Bool.eq_false_iff.mp free)] at shape shape'
    rw [outcome, outcome, parts, parts, shape, shape', whole, whole',
      splitAssignment_sign isTarget.quiet.trimStart next,
      splitAssignment_sign isTarget'.quiet.trimStart next']
    refine outcome_sides ?_ sameValue
    rw [Text.trim_trimStart, Text.trim_trimStart, sameTarget]

end Reading

/-! ### Lines -/

section Lines

variable {keywords : Keywords} {target value : Text} {operand : Operand}

namespace IsTarget

theorem splitComment (isTarget : IsTarget keywords target operand) (value : Text) :
    (Text.splitComment (target ++ '=' :: value)).1 = target ++ '=' :: (Text.splitComment value).1 := by
  have plain : '\'' ∉ target ++ ['='] := by
    simpa using isTarget.quiet.not_mem (c := '\'') (by decide)
  have noComment : '%' ∉ target ++ ['='] := by
    simpa using isTarget.quiet.not_mem (c := '%') (by decide)
  have uncommented : Uncommented (target ++ ['=']) := uncommented_of_not_mem noComment
  have alike : (Literal.ofText (target ++ ['='])).Alike {} := by
    refine ⟨Literal.inside_foldl plain, ?_⟩
    rw [Literal.ofText_append]
    rfl
  have split := Text.splitComment_append_of_alike uncommented alike value
  rwa [List.append_assoc, List.append_assoc] at split

/-- What is read from a line with a sign. -/
theorem readLines (isTarget : IsTarget keywords target operand) (preface value : Text) :
    ∃ remark, MissionScript.readLines keywords preface [target ++ '=' :: value] =
      { preface, remark
        instruction := target.trimStart ++ '=' :: (Text.splitComment value).1.withoutEnd
        shape := shapeOf keywords (target.trimStart ++ '=' :: (Text.splitComment value).1.withoutEnd) } := by
  have code := isTarget.splitComment value
  have noRemark : isRemark (target ++ '=' :: value) = false := by
    rw [Bool.eq_false_iff, Ne, isRemark_iff, code]
    intro blank
    have sign := List.all_eq_true.mp blank '=' (by simp)
    revert sign
    decide
  have own : dropRemoteKeyword (target ++ '=' :: value) = target ++ '=' :: value := by
    apply dropRemoteKeyword_eq_self
    rw [isTarget.trimStart_append]
    exact isTarget.not_isRemote (by rintro c ⟨⟩; decide)
  have instruction : instructionOf (target ++ '=' :: (Text.splitComment value).1) =
      target.trimStart ++ '=' :: (Text.splitComment value).1.withoutEnd := by
    rw [← Text.withoutEnd_append_cons (by decide) (by decide), ← isTarget.trimStart_append]
    rfl
  refine ⟨(Text.splitComment (target ++ '=' :: value)).2.trimEnd, ?_⟩
  rw [MissionScript.readLines, noRemark, if_neg Bool.false_ne_true, own]
  dsimp only
  rw [code, instruction, if_neg (by simp)]

end IsTarget

/-- A blank on each side of the sign changes neither the shape nor the parts of its line. -/
theorem outcome_readLines (isTarget : IsTarget keywords target operand) (preface : Text)
    (next : (Text.freeChars value.glyphs).head? ≠ some '=') :
    (readLines keywords preface [target ++ '=' :: value]).shape =
        (readLines keywords preface [target ++ " = ".toList ++ value]).shape ∧
      (operand.isCommand keywords = false →
        (readLines keywords preface [target ++ '=' :: value]).outcome =
          (readLines keywords preface [target ++ " = ".toList ++ value]).outcome) := by
  have trimmed : Text.trim (target ++ [' ']) = target.trim := Text.trim_append_blank target (by decide)
  have spaced : IsTarget keywords (target ++ [' ']) operand := by
    refine ⟨Operand.parse_of_reads ?_, isTarget.named, isTarget.free⟩
    rw [trimmed]
    exact isTarget.reads
  have line : target ++ " = ".toList ++ value = target ++ [' '] ++ '=' :: ' ' :: value := by simp
  obtain ⟨remark, close⟩ := isTarget.readLines preface value
  obtain ⟨remark', wide⟩ := spaced.readLines preface (' ' :: value)
  rw [line, close, wide]
  have behind {value : Text} (next : (Text.freeChars value.glyphs).head? ≠ some '=') :
      (Text.freeChars (Text.glyphs (Text.splitComment value).1.withoutEnd)).head? ≠ some '=' :=
    Text.next_of_prefix ((Text.withoutEnd_prefix _).trans (Text.splitComment_prefix value)) next
  refine Reading.outcome_sign isTarget spaced (behind next) (behind (Text.next_space value))
    (Text.trimEnd_withoutEnd _) (Text.trimEnd_withoutEnd _) trimmed.symm ?_ rfl rfl rfl rfl
  rw [Text.splitComment_of_isBlank (by decide), Text.trim_withoutEnd_space]

/-! ### Lines above -/

/-- The first instruction of a block is read whatever stands below it. -/
theorem readLines_of_instruction (preface : Text) {line : Text} (noRemark : isRemark line = false)
    (filled : instructionOf (Text.splitComment (dropRemoteKeyword line)).1 ≠ []) (below : List Text) :
    readLines keywords preface (line :: below) = readLines keywords preface [line] := by
  rw [readLines, readLines, noRemark, if_neg Bool.false_ne_true, if_neg Bool.false_ne_true]
  dsimp only
  rw [if_neg (by simpa using filled), if_neg (by simpa using filled)]

/-- The last line of a text, which may be empty, with the lines above it. -/
theorem exists_last_line (text : Text) : ∃ above last, text = above ++ last ∧
    (∀ c ∈ above.getLast?, isLineEnd c) ∧ ∀ c ∈ last, isLineEnd c = false := by
  refine ⟨text.rdropWhile (!isLineEnd ·), text.rtakeWhile (!isLineEnd ·), ?_, fun c final => ?_,
    fun c member => ?_⟩
  · exact List.rdropWhile_append_rtakeWhile.symm
  · obtain ⟨filled, same⟩ := List.mem_getLast?_eq_getLast final
    have ends := List.rdropWhile_last_not (!isLineEnd ·) text filled
    rw [same]
    simpa using ends
  · simpa using List.mem_rtakeWhile_imp member

/-- The lines above the last one are blank, or the instruction is among them. -/
theorem IsTarget.blank_or_reads_above (isTarget : IsTarget keywords target operand) {above last : Text}
    (whole : target = above ++ last) : above.isBlankText ∨
      ∀ preface lines, MissionScript.readLines keywords preface (cutLines above ++ lines) =
        MissionScript.readLines keywords preface (cutLines above) := by
  have cut := List.takeWhile_append_dropWhile (p := Text.isBlankText) (l := cutLines above)
  have remarks : ∀ line ∈ (cutLines above).takeWhile Text.isBlankText, line.isBlankText :=
    List.all_eq_true.mp List.all_takeWhile
  have stops := List.head?_dropWhile_not Text.isBlankText (cutLines above)
  generalize (cutLines above).takeWhile Text.isBlankText = blanks at cut remarks
  generalize (cutLines above).dropWhile Text.isBlankText = rest at cut stops
  have joined : Text.isBlankText blanks.flatten := by
    rw [Text.isBlankText, List.all_flatten, List.all_eq_true]
    exact remarks
  cases rest with
  | nil =>
      left
      rw [← flatten_cutLines above, ← cut, List.append_nil]
      exact joined
  | cons line below =>
      right
      intro preface lines
      have place : target = blanks.flatten ++ (line ++ (below.flatten ++ last)) := by
        rw [whole, ← flatten_cutLines above, ← cut]
        simp
      have plain {c : Char} (loud : isQuietChar c = false) : c ∉ line := by
        intro member
        refine isTarget.quiet.not_mem loud ?_
        rw [place]
        simp [member]
      have code : Text.splitComment line = (line, []) :=
        splitComment_eq (uncommented_of_not_mem (plain (by decide)))
      have noRemark : isRemark line = false := by
        rw [Bool.eq_false_iff, Ne, isRemark_iff, code]
        exact Bool.eq_false_iff.mp stops
      have front : target.trimStart = line.trimStart ++ (below.flatten ++ last) := by
        rw [place, Text.trimStart, List.dropWhile_append_of_pos (List.all_eq_true.mp joined),
          List.dropWhile_append, if_neg]
        · rfl
        · intro empty
          exact Bool.eq_false_iff.mp stops (Text.trimStart_eq_nil_iff.mp (List.isEmpty_iff.mp empty))
      have own : dropRemoteKeyword line = line := by
        apply dropRemoteKeyword_eq_self
        intro remote
        obtain ⟨c, more, blank, leads⟩ := isRemote_iff.mp remote
        have alone : ¬IsRemote (target.trimStart ++ []) := isTarget.not_isRemote (by rintro c ⟨⟩)
        apply alone
        rw [List.append_nil, front, leads]
        exact isRemote_iff.mpr ⟨c, _, blank, List.append_assoc ..⟩
      have filled : instructionOf (Text.splitComment (dropRemoteKeyword line)).1 ≠ [] := by
        rw [own, code, instructionOf_eq (plain (by decide))]
        rw [isRemark, Bool.or_eq_false_iff] at noRemark
        simpa using noRemark.1
      have each : ∀ line ∈ blanks, isRemark line := fun line member =>
        isRemark_of_isBlankText (remarks line member)
      rw [← cut, List.append_assoc, readLines_remarks keywords preface each,
        readLines_remarks keywords preface each, List.cons_append,
        readLines_of_instruction _ noRemark filled, readLines_of_instruction _ noRemark filled below]

/-- A block with a line below some others. -/
theorem Reading.ofBlock_of_last_line {above line : Text} (ends : ∀ c ∈ above.getLast?, isLineEnd c)
    (inside : ∀ c ∈ line, isLineEnd c = false) (filled : line.isBlankText = false) :
    ofBlock keywords (above ++ line) = .ok (readLines keywords [] (cutLines above ++ [line])) := by
  have present : line ≠ [] := by
    rintro rfl
    cases filled
  have apart : line.head? ≠ some '\n' := by
    intro feed
    have first := inside '\n' (List.mem_of_head? feed)
    cases first
  have cut : cutLines (above ++ line) = cutLines above ++ [line] := by
    rw [cutLines_append, cutLines_of_single present inside]
    intro c final _
    have ended := ends c final
    rw [isLineEnd, Bool.or_eq_true, beq_iff_eq, beq_iff_eq] at ended
    exact ended.symm.imp_right fun alone => ⟨alone, apart⟩
  have lines : blockLines (above ++ line) = cutLines above ++ [line] := by
    rw [blockLines, cut]
    cases cutLines above <;> rfl
  rw [ofBlock, lines, List.all_append, List.all_cons, filled, Bool.false_and, Bool.and_false,
    if_neg Bool.false_ne_true]

end Lines

/-- A blank on each side of an assignment sign does not change the shape of a block, whatever words are keywords,
and it does not change the parts of the block either, unless an array is called like a command. The operand in
front is no number and no variable that is called like a keyword; outside literals, no second sign may follow
the first one. -/
theorem Reading.outcome_spaced {keywords : Keywords} {target value : Text} {operand : Operand}
    (read : Operand.parse target = .ok operand) (named : operand.isNumber = false)
    (free : operand.isReserved keywords = false) (single : ∀ c ∈ value, isLineEnd c = false)
    (next : (Text.freeChars value.glyphs).head? ≠ some '=') :
    ∃ close wide, ofBlock keywords (target ++ '=' :: value) = .ok close ∧
      ofBlock keywords (target ++ " = ".toList ++ value) = .ok wide ∧
        close.shape = wide.shape ∧
        (operand.isCommand keywords = false → close.outcome = wide.outcome) := by
  obtain ⟨above, last, rfl, ends, inside⟩ := exists_last_line target
  have isTarget : IsTarget keywords (above ++ last) operand := ⟨read, named, free⟩
  have block (sign : Text) (equals : '=' ∈ sign) (inLine : ∀ c ∈ sign, isLineEnd c = false) :
      ofBlock keywords (above ++ last ++ (sign ++ value)) =
        .ok (readLines keywords [] (cutLines above ++ [last ++ (sign ++ value)])) := by
    rw [List.append_assoc]
    refine ofBlock_of_last_line ends ?_ (Bool.eq_false_iff.mpr fun blank => ?_)
    · exact List.forall_mem_append.mpr ⟨inside, List.forall_mem_append.mpr ⟨inLine, single⟩⟩
    · refine Text.not_mem_of_isBlankText (c := '=') (by decide) blank ?_
      simp [equals]
  have close := block ['='] (by decide) (List.all_iff_forall_prop.mp (by decide))
  have wide := block " = ".toList (by decide) (List.all_iff_forall_prop.mp (by decide))
  rw [← List.append_assoc] at wide
  refine ⟨_, _, close, wide, ?_⟩
  rcases isTarget.blank_or_reads_above rfl with blank | reads
  · have trimmed : Text.trim (above ++ last) = last.trim := by
      rw [Text.trim, Text.trimStart, List.dropWhile_append_of_pos (List.all_eq_true.mp blank)]
      rfl
    have lower : IsTarget keywords last operand :=
      ⟨Operand.parse_of_reads (trimmed ▸ isTarget.reads), named, free⟩
    have remarks : ∀ line ∈ cutLines above, isRemark line := by
      intro line member
      have within : line ⊆ above := by
        rw [← flatten_cutLines above]
        exact fun c inLine => List.mem_flatten_of_mem member inLine
      exact isRemark_of_isBlankText (Text.isBlankText_of_subset within blank)
    have same := outcome_readLines lower (cutLines above).flatten next
    rw [List.append_assoc] at same
    rw [readLines_remarks keywords [] remarks, readLines_remarks keywords [] remarks]
    exact same
  · rw [reads, reads]
    exact ⟨rfl, fun _ => rfl⟩

/-- An element below a blank line, with a sign in the literal of its value. -/
theorem Reading.outcome_spaced_element :
    ∃ close wide, ofBlock .builtin " \n A( i )='a = b' % note".toList = .ok close ∧
      ofBlock .builtin " \n A( i ) = 'a = b' % note".toList = .ok wide ∧
        close.shape = wide.shape ∧ close.outcome = wide.outcome := by
  have index : Operand.parse " i ".toList = .ok (.var "i".toList) :=
    Operand.parse_of_reads (.name rfl (by decide) (by decide) rfl)
  let group : Group :=
    ⟨[⟨'A', false, 0⟩], [⟨' ', false, 1⟩, ⟨'i', false, 1⟩, ⟨' ', false, 1⟩], []⟩
  have found : Bracket.paren.scan "A( i )".toList 0 = .matched group := rfl
  have reads : Operand.Reads "A( i )".toList (.element "A".toList (.var "i".toList)) :=
    .element rfl (by decide) (by decide) found rfl (by decide) rfl index
  have read : Operand.parse " \n A( i )".toList = .ok (.element "A".toList (.var "i".toList)) :=
    Operand.parse_of_reads reads
  obtain ⟨close, wide, short, long, shape, outcome⟩ :=
    @outcome_spaced .builtin _ "'a = b' % note".toList _ read rfl rfl
      (List.all_iff_forall_prop.mp (by decide)) (by decide)
  exact ⟨close, wide, short, long, shape, outcome (by decide +kernel)⟩

/-- A keyword is the target of an assignment only if no blank stands behind it. -/
theorem Reading.shape_spaced_keyword :
    Operand.parse "Report".toList = .ok (.var "Report".toList) ∧
      ∃ close wide, ofBlock .builtin "Report=5".toList = .ok close ∧
        ofBlock .builtin "Report = 5".toList = .ok wide ∧
          close.shape = .assignment ∧ wide.shape = .command := by
  refine ⟨Operand.parse_of_reads (.name rfl (by decide) (by decide) rfl), ?_⟩
  refine ⟨⟨[], [], "Report=5".toList, .assignment⟩, ⟨[], [], "Report = 5".toList, .command⟩, ?_⟩
  decide +kernel

-- The arguments of a command keep the blanks in front of the sign.
example : (["Report(1)=5", "Report(1) = 5"].map fun block =>
      (Reading.ofBlock .builtin block.toList).toOption.map (·.outcome)) =
    [some (.ok (.command "Report".toList (some "(1)=5".toList))),
      some (.ok (.command "Report".toList (some "(1) = 5".toList)))] := by decide +kernel

-- A literal does not separate two signs, but a blank does.
example : (["x='a'=5", "x = 'a'=5"].map fun block =>
      (Reading.ofBlock .builtin block.toList).toOption.map (·.outcome)) =
    [some (.error .noAssignment), some (.ok (.assignment "x".toList "'a'=5".toList))] := by decide +kernel

end MissionScript
