import MissionScript.Proofs.Renaming.Body
import MissionScript.Proofs.Renaming.Names

/-!
# Renaming reaches every reference

What a command refers to after a renaming is what it referred to before, with the new name for the old one.
Some references are parts of trees; others are read from texts whenever somebody asks for them, while the
renaming goes over the words of the texts.
-/

namespace MissionScript

open Lettered

variable {ρ : Renaming} {s t : Text}

/-! ### Operands -/

namespace Renamed

variable {afterDot : Bool}

theorem isIdentifier_eq (related : Renamed ρ afterDot s t) : t.isIdentifier = s.isIdentifier := by
  cases identifier : s.isIdentifier with
  | true =>
      rw [related.eq_word_of_isIdentifier identifier]
      exact Renaming.isIdentifier_word identifier
  | false =>
      rw [Bool.eq_false_iff]
      intro named
      obtain ⟨filled, letters⟩ := isWordChar_of_isIdentifier named
      have same : t = ρ.word afterDot s :=
        related.eq_word (fun empty => filled (related.eq_nil_iff.mpr empty)) fun c member =>
          (related.mem_of_mem member).elim id (letters c)
      unfold Renaming.word at same
      split at same
      · rename_i renamed
        rw [renamed.2, ρ.old_isIdentifier] at identifier
        cases identifier
      · rw [same, identifier] at named
        cases named

/-- A dotted name behind a dot was the same before. -/
theorem eq_of_isDottedName (related : Renamed ρ true s t) (dotted : t.isDottedName) : t = s := by
  refine related.eq_of_dotted (fun c member => ?_) fun _ => rfl
  rcases related.mem_of_mem member with word | kept
  · exact .inl word
  · exact Text.dotted_of_isDottedName dotted c kept

theorem head?_startsNumber (related : Renamed ρ afterDot s t) :
    t.head?.any startsNumber = s.head?.any startsNumber := by
  have plain {name : Text} (identifier : name.isIdentifier) (rest : Text) :
      (name ++ rest).head?.any startsNumber = false := by
    obtain ⟨c, name, rfl⟩ := List.exists_cons_of_ne_nil (isWordChar_of_isIdentifier identifier).1
    exact startsNumber_of_isIdentifier identifier
  cases related with
  | nil => rfl
  | mark => rfl
  | word a filled letters =>
      rename_i s t word
      rw [writeWord_char, writeWord_char, Renaming.word]
      split
      · rename_i renamed
        rw [renamed.2, plain ρ.old_isIdentifier, plain ρ.new_isIdentifier]
      · obtain ⟨c, word, rfl⟩ := List.exists_cons_of_ne_nil filled
        rfl

/-- No number is made by a renaming. -/
theorem eq_of_onlyNumbers_renamed {named : Bool} (related : Renamed ρ afterDot s t)
    (start : startsWord s → named = afterDot) (numbers : OnlyNumbers named t) : t = s := by
  induction related generalizing named with
  | nil => rfl
  | mark between rest ih =>
      rename_i c s t
      have same : isNameChar c = (c == '.') := by
        simp [isNameChar, show isWordChar c = false from between]
      rw [ih (fun _ => same) numbers.2]
  | word a filled letters maximal rest ih =>
      rename_i afterDot s t word
      have begun := start (startsWord_writeWord filled letters)
      rw [writeWord_char] at numbers
      rw [ih (fun starts => by rw [maximal] at starts; cases starts)
        (numbers.of_word (Renaming.word_ne_nil filled) (Renaming.letters_word letters))]
      by_cases renamed : afterDot = false ∧ word = ρ.old
      · rw [Renaming.word, if_pos renamed] at numbers
        have identifier := ρ.new_isIdentifier
        obtain ⟨filledNew, lettersNew⟩ := isWordChar_of_isIdentifier identifier
        obtain ⟨c, new, same⟩ := List.exists_cons_of_ne_nil filledNew
        rw [same] at numbers identifier lettersNew
        rcases numbers.1 with after | other | digit
        · rw [begun, renamed.1] at after
          cases after
        · rw [lettersNew c (List.mem_cons_self ..)] at other
          cases other
        · have letter := startsNumber_of_isIdentifier identifier
          rw [startsNumber, digit] at letter
          cases letter
      · rw [Renaming.word, if_neg renamed]

/-- The pieces at the first separator come from such pieces. -/
theorem exists_cutAt_of_renamed {separator : Char} (related : Renamed ρ afterDot s t)
    (between : isWordChar separator = false) {l' r' : Text}
    (found : t.cutAt separator = some (l', r')) :
    ∃ l r, s.cutAt separator = some (l, r) ∧ Renamed ρ afterDot l l' ∧
      Renamed ρ (separator == '.') r r' := by
  cases cut : s.cutAt separator with
  | none =>
      rw [related.cutAt_none between cut] at found
      cases found
  | some parts =>
      obtain ⟨l, r⟩ := parts
      obtain ⟨left, right, cut', renamed⟩ := related.cutAt_some between cut
      rw [found] at cut'
      cases cut'
      exact ⟨l, r, rfl, renamed⟩

theorem cutAt_none_of_renamed {separator : Char} (related : Renamed ρ afterDot s t)
    (between : isWordChar separator = false) (absent : t.cutAt separator = none) :
    s.cutAt separator = none := by
  cases cut : s.cutAt separator with
  | none => rfl
  | some parts =>
      obtain ⟨left, right, cut', -⟩ := related.cutAt_some between cut
      rw [absent] at cut'
      cases cut'

/-- The first group comes from such a group. -/
theorem exists_scan_of_renamed (related : Renamed ρ false s t) {b : Bracket} {group' : Group}
    (found : b.scan t 0 = .matched group') :
    ∃ group, b.scan s 0 = .matched group ∧
      Renamed ρ false (Text.ofGlyphs group.before) (Text.ofGlyphs group'.before) ∧
      Renamed ρ false group.content group'.content ∧ (group'.after = [] → group.after = []) := by
  by_cases absent : ∀ group, b.scan s 0 ≠ .matched group
  · exact absurd found (related.scan_ne_matched absent group')
  · simp only [ne_eq, not_forall, not_not] at absent
    obtain ⟨group, here⟩ := absent
    obtain ⟨other, found', before, inside, after, -⟩ := related.exists_scan here
    rw [found] at found'
    cases found'
    exact ⟨group, here, before.ofGlyphs, inside.ofGlyphs, after.eq_nil_iff.mp⟩

end Renamed

namespace Operand

variable {o : Operand}

theorem exists_ofName_of_renamed (read : ofName t = .ok o) (related : Renamed ρ false s t) :
    ∃ own, ofName s = .ok own := by
  unfold ofName at read ⊢
  split at read
  · rename_i owner' field' cut'
    obtain ⟨owner, field, cut, left, right⟩ := related.exists_cutAt_of_renamed rfl cut'
    simp only [cut]
    split at read
    · rename_i accepted
      obtain ⟨identifier, dotted⟩ := Bool.and_eq_true_iff.mp accepted
      have same : field' = field := right.eq_of_isDottedName dotted
      rw [if_pos (by rw [← left.isIdentifier_eq, identifier, ← same, dotted]; rfl)]
      exact ⟨_, rfl⟩
    · cases read
  · rename_i absent
    simp only [related.cutAt_none_of_renamed rfl absent]
    split at read
    · rename_i identifier
      rw [if_pos (related.isIdentifier_eq ▸ identifier)]
      exact ⟨_, rfl⟩
    · cases read

/-- A renamed text is read as an operand only if the text before it was. -/
theorem exists_parse_of_renamed (read : parse t = .ok o) (related : Renamed ρ false s t) :
    ∃ own, parse s = .ok own := by
  induction length : s.length using Nat.strongRecOn generalizing s t o with
  | ind n ih =>
      subst length
      suffices trimmed : ∃ own, Reads s.trim own from trimmed.imp fun own reads => parse_of_reads reads
      have reads := reads_of_parse read
      have trims := related.trim
      have shorter : s.trim.length ≤ s.length := Text.length_trim_le s
      generalize s.trim = text at trims shorter
      generalize t.trim = text' at reads trims
      have begins {c : Char} (first : text'.head? = some c) :
          ∃ d, text.head? = some d ∧ startsNumber d = startsNumber c := by
        have same := trims.head?_startsNumber
        cases kept : text.head? with
        | none =>
            rw [List.head?_eq_none_iff] at kept
            rw [trims.eq_nil_iff.mpr kept] at first
            cases first
        | some d =>
            rw [first, kept] at same
            exact ⟨d, rfl, same.symm⟩
      cases reads with
      | number first digit value =>
          have same : text' = text :=
            trims.eq_of_onlyNumbers_renamed (fun _ => rfl) (OnlyNumbers.of_read? first digit value)
          subst same
          exact ⟨_, .number first digit value⟩
      | element first letter last found ends array single inner =>
          obtain ⟨d, first', kind⟩ := begins first
          obtain ⟨group, found', before, inside, after⟩ := trims.exists_scan_of_renamed found
          have smaller := Bracket.length_content_of_scan found'
          obtain ⟨index, inner'⟩ := ih _ (by omega) inner inside rfl
          exact ⟨_, .element first' (kind.trans letter) ((trims.getLast?_eq_some_iff rfl).mp last)
            found' (after ends) (before.isIdentifier_eq ▸ array)
            (inside.cutAt_none_of_renamed rfl single) inner'⟩
      | cell first letter last found ends array cut readRow readColumn =>
          obtain ⟨d, first', kind⟩ := begins first
          obtain ⟨group, found', before, inside, after⟩ := trims.exists_scan_of_renamed found
          obtain ⟨left, right, cut', ofRow, ofColumn⟩ := inside.exists_cutAt_of_renamed rfl cut
          have smaller := Bracket.length_content_of_scan found'
          have ⟨leftSmaller, rightSmaller⟩ := Text.length_of_cutAt cut'
          obtain ⟨row, readRow'⟩ := ih _ (by omega) readRow ofRow rfl
          obtain ⟨column, readColumn'⟩ := ih _ (by omega) readColumn ofColumn rfl
          exact ⟨_, .cell first' (kind.trans letter) ((trims.getLast?_eq_some_iff rfl).mp last) found'
            (after ends) (before.isIdentifier_eq ▸ array) cut' readRow' readColumn'⟩
      | name first letter last value =>
          obtain ⟨d, first', kind⟩ := begins first
          obtain ⟨own, value'⟩ := exists_ofName_of_renamed value trims
          exact ⟨own, .name first' (kind.trans letter)
            (fun ends => last ((trims.getLast?_eq_some_iff rfl).mpr ends)) value'⟩

end Operand

/-! ### Calls -/

namespace FunctionCall

/-- The names in an argument, as far as it is an operand. -/
def namesIn (argument : Text) : List Text :=
  match Operand.parse argument with
  | .ok o => o.names
  | .error _ => []

theorem mem_argumentNames {c : FunctionCall} {name : Text} :
    name ∈ c.argumentNames ↔ ∃ argument ∈ c.arguments, name ∈ namesIn argument := by
  have same : c.argumentNames =
      c.arguments.foldl (fun names argument => Text.addNames names (namesIn argument)) [] := by
    unfold argumentNames namesIn
    congr 1
    funext names argument
    cases Operand.parse argument <;> rfl
  rw [same, Text.mem_foldl_addNames]
  simp

theorem namesIn_renamed (related : Renamed ρ false s t) :
    namesIn t = (namesIn s).map (Text.renamed ρ.old ρ.new) := by
  unfold namesIn
  cases read : Operand.parse s with
  | ok o =>
      rw [(Operand.parse_renamed read related).1]
      exact Operand.names_rename o
  | error failure =>
      cases read' : Operand.parse t with
      | error failure' => rfl
      | ok o =>
          obtain ⟨own, same⟩ := Operand.exists_parse_of_renamed read' related
          rw [read] at same
          cases same

/-- Every argument of a call is renamed, if any. -/
theorem arguments_rename? (c : FunctionCall) :
    ((c.rename? .any ρ.old ρ.new).getD c).name = Text.renamed ρ.old ρ.new c.name ∧
      ((c.rename? .any ρ.old ρ.new).getD c).arguments = c.arguments.map ρ.text := by
  cases renamed : c.rename? .any ρ.old ρ.new with
  | some c' =>
      rw [Option.getD_some, eq_of_rename? renamed]
      exact ⟨rfl, List.map_append.symm⟩
  | none =>
      have any : (ObjectType.any == .any) = true := rfl
      have texts : (ObjectType.any == .function) = false := rfl
      simp only [rename?, texts, any, Bool.false_or, Bool.true_and, beq_iff_eq, Bool.false_eq_true,
        if_false, ite_eq_right_iff, reduceCtorEq, imp_false, Bool.or_eq_true, bne_iff_ne, ne_eq, not_or,
        not_not] at renamed
      refine ⟨(Text.renamed_of_ne renamed.1).symm, ?_⟩
      exact renamed.2.symm.trans List.map_append.symm

theorem mem_names_rename? (c : FunctionCall) (name : Text) :
    let c' := (c.rename? .any ρ.old ρ.new).getD c
    name ∈ c'.name :: c'.argumentNames ↔
      name ∈ (c.name :: c.argumentNames).map (Text.renamed ρ.old ρ.new) := by
  obtain ⟨sameName, sameArguments⟩ := c.arguments_rename? (ρ := ρ)
  have each (argument name : Text) : name ∈ namesIn (ρ.text argument) ↔
      name ∈ (namesIn argument).map (Text.renamed ρ.old ρ.new) := by
    rw [namesIn_renamed (Renamed.renamed_text ρ argument)]
  dsimp only
  rw [List.mem_cons, mem_argumentNames, sameName, sameArguments, exists_mem_renamed each, List.map_cons,
    List.mem_cons, List.mem_map]
  simp only [mem_argumentNames]

end FunctionCall

/-! ### Free text -/

namespace Text

/-- The name that a run of word characters is, unless a dot stands in front of it. -/
def reference? (run : Bool × Text) : Option Text :=
  if !run.1 && run.2.isIdentifier then some run.2 else none

/-- The names in the glyphs that follow the run being read. -/
def references (afterDot : Bool) (run : Text) (gs : List Glyph) : List Text :=
  (wordRuns afterDot run gs).filterMap reference?

theorem mem_identifiers {text name : Text} :
    name ∈ text.identifiers ↔ name ∈ references false [] text.glyphs := by
  have same : text.identifiers = addNames [] (references false [] text.glyphs) := rfl
  rw [same, mem_addNames]
  simp

theorem reference?_word (ρ : Renaming) (afterDot : Bool) (run : Text) :
    reference? (afterDot, ρ.word afterDot run) =
      (reference? (afterDot, run)).map (renamed ρ.old ρ.new) := by
  unfold reference? Renaming.word
  by_cases old : afterDot = false ∧ run = ρ.old
  · obtain ⟨rfl, rfl⟩ := old
    simp [ρ.old_isIdentifier, ρ.new_isIdentifier]
  · rw [if_neg old]
    cases afterDot with
    | true => rfl
    | false =>
        have other : run ≠ ρ.old := fun same => old ⟨rfl, same⟩
        cases run.isIdentifier with
        | true => simp [renamed_of_ne other]
        | false => rfl

variable {afterDot : Bool} {run : Text} {g : Glyph} {gs : List Glyph}

/-- A glyph between the words ends the run. -/
theorem references_mark (mark : g.quoted ∨ isWordChar g.char = false) :
    references afterDot run (g :: gs) =
      (reference? (afterDot, run.reverse)).toList ++
        references (!g.quoted && g.char == '.') [] gs := by
  have split : wordRuns afterDot run (g :: gs) =
      (afterDot, run.reverse) :: wordRuns (!g.quoted && g.char == '.') [] gs := by
    rw [wordRuns]
    cases quoted : g.quoted with
    | true => rfl
    | false =>
        have between : isWordChar g.char = false := mark.resolve_left (by simp [quoted])
        simp [between]
  rw [references, split, List.filterMap_cons]
  cases reference? (afterDot, run.reverse) <;> rfl

/-- There are no names in a literal. -/
theorem references_quoted {word : Text} (filled : word ≠ []) (quoted : g.quoted) :
    references afterDot run (writeWord g word ++ gs) =
      (reference? (afterDot, run.reverse)).toList ++ references false [] gs := by
  induction word generalizing afterDot run with
  | nil => exact absurd rfl filled
  | cons c word ih =>
      have first : (write g c).quoted := quoted
      rw [writeWord, List.map_cons, List.cons_append, references_mark (.inl first), first]
      cases word with
      | nil => rfl
      | cons d word => exact congrArg _ (ih (by simp))

theorem references_word {word : Text} (letters : ∀ c ∈ word, isWordChar c) (free : g.quoted = false) :
    references afterDot run (writeWord g word ++ gs) = references afterDot (word.reverse ++ run) gs := by
  induction word generalizing run with
  | nil => rfl
  | cons c word ih =>
      obtain ⟨letter, others⟩ := List.forall_mem_cons.mp letters
      have first : (write g c).quoted = false := free
      have letter' : isWordChar (write g c).char = true := letter
      have step : references afterDot run (write g c :: (writeWord g word ++ gs)) =
          references afterDot (c :: run) (writeWord g word ++ gs) := by
        rw [references, wordRuns, first, if_neg Bool.false_ne_true, if_pos letter']
        rfl
      rw [writeWord, List.map_cons, List.cons_append, List.reverse_cons, List.append_assoc]
      exact step.trans (ih others)

end Text

/-- The names of a renamed text are the renamed ones. What is in a literal is renamed as well, but there are
no names in it. -/
theorem Renamed.references {afterDot : Bool} (related : Renamed ρ afterDot s t) {p q : Literal}
    (alike : p.Alike q) (depth : Nat) (dot : Bool) (run : Text)
    (follows : startsWord s → p.inside = false → dot = afterDot) (apart : startsWord s → run = []) :
    Text.references dot (ρ.word dot run).reverse (MissionScript.glyphsFrom q depth t) =
      (Text.references dot run.reverse (MissionScript.glyphsFrom p depth s)).map
        (Text.renamed ρ.old ρ.new) := by
  have pending (dot : Bool) (run : Text) : (Text.reference? (dot, ρ.word dot run)).toList =
      (Text.reference? (dot, run)).toList.map (Text.renamed ρ.old ρ.new) := by
    rw [Text.reference?_word]
    cases Text.reference? (dot, run) <;> rfl
  have none (dot : Bool) : ρ.word dot [] = [] :=
    Renaming.word_of_ne (isWordChar_of_isIdentifier ρ.old_isIdentifier).1.symm
  induction related generalizing p q depth dot run with
  | nil =>
      have last (run : Text) : Text.references dot run.reverse [] =
          (Text.reference? (dot, run)).toList := by
        rw [Text.references, Text.wordRuns, List.reverse_reverse, List.filterMap_cons]
        cases Text.reference? (dot, run) <;> rfl
      simp only [MissionScript.glyphsFrom, last, pending]
  | mark between rest ih =>
      rename_i afterDot c s t
      have outside : isWordChar c = false := between
      simp only [MissionScript.glyphsFrom, ← alike.covers]
      rw [Text.references_mark (.inr outside), Text.references_mark (.inr outside), List.reverse_reverse,
        List.reverse_reverse, pending, List.map_append]
      congr 1
      have next := ih (alike.step c) (if p.covers c then depth else depthAfter depth c)
        (!p.covers c && c == '.') [] (fun _ closed => ?_) fun _ => rfl
      · rwa [none] at next
      · -- a literal ends with a quote, so no dot stands at its end
        cases covered : p.covers c with
        | false => rfl
        | true =>
            refine (beq_eq_false_iff_ne.mpr ?_).symm
            rintro rfl
            rw [Literal.step, covered] at closed
            revert closed
            simp
  | word a filled letters maximal rest ih =>
      rename_i afterDot s t word
      have filled' : ρ.word afterDot word ≠ [] := Renaming.word_ne_nil filled
      have letters' : ∀ c ∈ ρ.word afterDot word, isWordChar c := Renaming.letters_word letters
      have behind (inside : Bool) : Literal.Alike ⟨inside, word.getLast?.or p.previous⟩
          ⟨inside, (ρ.word afterDot word).getLast?.or q.previous⟩ :=
        .behind_word filled letters filled' letters'
      have begun := startsWord_writeWord (a := a) (s := s) filled letters
      obtain rfl := apart begun
      rw [none, writeWord_char, writeWord_char, glyphsFrom_word letters, glyphsFrom_word letters',
        ← alike.1]
      cases inside : p.inside with
      | true =>
          have next := ih (behind true) depth false [] (fun _ closed => Bool.noConfusion closed) fun _ => rfl
          rw [none] at next
          rw [Text.references_quoted filled' rfl, Text.references_quoted filled rfl, List.map_append,
            ← pending, List.reverse_reverse, none]
          exact congrArg _ next
      | false =>
          obtain rfl := follows begun inside
          have stop {p : Prop} (starts : startsWord s) : p := by
            rw [maximal] at starts
            cases starts
          have next := ih (behind false) depth dot word stop stop
          rwa [Text.references_word letters' rfl, Text.references_word letters rfl, List.reverse_nil,
            List.append_nil, List.append_nil]

theorem Text.mem_identifiers_text (ρ : Renaming) {text name : Text} :
    name ∈ (ρ.text text).identifiers ↔ name ∈ text.identifiers.map (renamed ρ.old ρ.new) := by
  have whole := (Renamed.renamed_text ρ text).references (p := {}) (q := {}) ⟨rfl, rfl⟩ 0 false []
    (fun _ _ => rfl) fun _ => rfl
  have none : ρ.word false [] = [] :=
    Renaming.word_of_ne (isWordChar_of_isIdentifier ρ.old_isIdentifier).1.symm
  rw [none] at whole
  have same : references false [] (ρ.text text).glyphs =
      (references false [] text.glyphs).map (renamed ρ.old ρ.new) := whole
  rw [mem_identifiers, same, List.mem_map, List.mem_map]
  simp only [mem_identifiers]

/-! ### Commands -/

namespace CommandBody

/-- Every body has a list of all the objects that it refers to, and a renaming renames the list. -/
theorem names?_rename? (ρ : Renaming) (body : CommandBody) :
    ∃ before after, body.names? .any = some before ∧
      ((body.rename? .any ρ.old ρ.new).getD body).names? .any = some after ∧
      ∀ name, name ∈ after ↔ name ∈ before.map (Text.renamed ρ.old ρ.new) := by
  have renames : body.Renames ρ.old ρ.new ((body.rename? .any ρ.old ρ.new).getD body) :=
    body.renames_rename?
  generalize made : (body.rename? .any ρ.old ρ.new).getD body = renamed at renames
  have image {names more names' more' : List Text}
      (first : ∀ name, name ∈ names' ↔ name ∈ names.map (Text.renamed ρ.old ρ.new))
      (second : ∀ name, name ∈ more' ↔ name ∈ more.map (Text.renamed ρ.old ρ.new)) (name : Text) :
      name ∈ Text.addNames names' more' ↔
        name ∈ (Text.addNames names more).map (Text.renamed ρ.old ρ.new) := by
    rw [Text.mem_addNames, first, second]
    simp only [List.mem_map, Text.mem_addNames, or_and_right, exists_or]
  have operand (o : Operand) (name : Text) : name ∈ (o.rename ρ.old ρ.new).names ↔
      name ∈ o.names.map (Text.renamed ρ.old ρ.new) := by
    rw [Operand.names_rename]
  cases renames with
  | structural => exact ⟨[], [], rfl, rfl, fun name => Iff.rfl⟩
  | assignment target expression =>
      exact ⟨_, _, rfl, rfl, image (operand target) fun _ => Expression.mem_names_rename⟩
  | call c c' =>
      have same : c' = (c.rename? .any ρ.old ρ.new).getD c := by
        rw [rename?] at made
        cases renamed : c.rename? .any ρ.old ρ.new with
        | none =>
            rw [renamed] at made
            cases made
            rfl
        | some c'' =>
            rw [renamed] at made
            cases made
            rfl
      exact ⟨_, _, rfl, rfl, same ▸ c.mem_names_rename?⟩
  | condition c => exact ⟨_, _, rfl, rfl, fun name => Condition.mem_names_rename⟩
  | range r => exact ⟨_, _, rfl, rfl, fun name => LoopRange.mem_names_rename⟩
  | solverLoop l => exact ⟨[l.solver], _, rfl, rfl, fun name => Iff.rfl⟩
  | objective o name =>
      refine ⟨_, _, rfl, rfl, fun name => ?_⟩
      rw [List.map_cons, List.mem_cons, List.mem_cons, operand]
  | constraint c name boundName =>
      refine ⟨_, _, rfl, rfl, fun name => ?_⟩
      rw [List.map_cons, List.mem_cons, List.mem_cons]
      exact or_congr_right (image (operand c.operand) (fun _ => Expression.mem_names_rename) name)
  | generic arguments arguments' =>
      have same : arguments' = ρ.text arguments := by
        rw [rename?] at made
        split at made
        · rename_i kept
          cases made
          exact kept.symm
        · cases made
          rfl
      exact ⟨_, _, rfl, rfl, fun name => same ▸ Text.mem_identifiers_text ρ⟩

end CommandBody

namespace Command

variable {old new : Text}

/-- After a renaming of an object of any type, a command refers to what it referred to before, with the
new name for the old one. A command that referred to the object reports the renaming, and one that does
not report it is unchanged. -/
theorem names_afterRename (c : Command) (oldIdentifier : old.isIdentifier)
    (newIdentifier : new.isIdentifier) (differ : old ≠ new) :
    ∃ before after, c.names .any = .ok before ∧ (c.afterRename .any old new).names .any = .ok after ∧
      (∀ name, name ∈ after ↔ name ∈ before.map (Text.renamed old new)) ∧ old ∉ after ∧
      (old ∈ before → (c.rename? .any old new).isSome) ∧
      (c.rename? .any old new = none → c.afterRename .any old new = c) := by
  obtain ⟨before, after, names, names', image⟩ :=
    c.body.names?_rename? ⟨old, new, oldIdentifier, newIdentifier⟩
  have body : (c.afterRename .any old new).body = (c.body.rename? .any old new).getD c.body := by
    rw [afterRename_eq]
    cases c.body.rename? .any old new <;> rfl
  have read : c.names .any = .ok before := by rw [Command.names, names]
  have read' : (c.afterRename .any old new).names .any = .ok after := by
    rw [Command.names, body, names']
  have gone : old ∉ after := by
    intro member
    obtain ⟨own, -, same⟩ := List.mem_map.mp ((image old).mp member)
    exact Text.renamed_ne_old differ same
  have kept (none : c.rename? .any old new = none) : c.afterRename .any old new = c := by
    rw [afterRename, none, Option.getD_none]
  refine ⟨before, after, read, read', image, gone, fun member => ?_, kept⟩
  by_contra none
  rw [kept (by simpa using none), read] at read'
  cases read'
  exact gone member

/-- A report on a variable, a parameter of the same name and a literal. -/
theorem names_afterRename_report :
    let report : Command := {
      kind := .generic
      typeName := "Report".toList
      generating := "Report i Sat.i 'i';".toList
      body := .generic "i Sat.i 'i'".toList }
    ∃ after, (report.afterRename .any "i".toList "k".toList).names .any = .ok after ∧
      "k".toList ∈ after ∧ "Sat".toList ∈ after ∧ "i".toList ∉ after ∧
      (report.rename? .any "i".toList "k".toList).isSome := by
  intro report
  obtain ⟨before, after, names, names', image, gone, reported, -⟩ :=
    names_afterRename report (show Text.isIdentifier "i".toList by decide)
      (show Text.isIdentifier "k".toList by decide) (by decide)
  have known : report.names .any = .ok ["i".toList, "Sat".toList] := by rfl
  rw [known] at names
  cases names
  exact ⟨after, names', (image _).mpr (by decide), (image _).mpr (by decide), gone,
    reported (by decide)⟩

end Command

end MissionScript
