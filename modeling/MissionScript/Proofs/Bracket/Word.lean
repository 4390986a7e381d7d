import MissionScript.Bracket.Group

/-!
# Words of brackets

The brackets of a text outside its literals make a word over the three families. What a word leaves open is
said by what it consists of: balanced words with the opening brackets between them that are not closed. The
check of a text finds nothing wrong exactly where the word is balanced, and what it finds says how the word
goes wrong.
-/

namespace MissionScript

/-- A bracket of a word. -/
inductive Mark where
  | opening (family : Bracket)
  | closing (family : Bracket)
deriving DecidableEq, Repr

namespace Mark

def char : Mark → Char
  | opening b => b.opening
  | closing b => b.closing

/-- The bracket that a character is. -/
def ofChar? (c : Char) : Option Mark :=
  match Bracket.ofOpening? c, Bracket.ofClosing? c with
  | some b, _ => some (opening b)
  | none, some b => some (closing b)
  | none, none => none

theorem ofChar?_char (m : Mark) : ofChar? m.char = some m := by
  rcases m with b | b
  all_goals
    cases b <;> rfl

theorem ofChar?_eq_some_iff {c : Char} {m : Mark} : ofChar? c = some m ↔ c = m.char := by
  constructor
  · intro found
    unfold ofChar? at found
    split at found
    · rename_i b opens
      cases found
      have same := List.find?_some opens
      exact (beq_iff_eq.mp same).symm
    · rename_i b _ closes
      cases found
      have same := List.find?_some closes
      exact (beq_iff_eq.mp same).symm
    · cases found
  · rintro rfl
    exact ofChar?_char m

end Mark

/-- The bracket that a glyph is, if it stands outside every literal. -/
def Glyph.mark? (g : Glyph) : Option Mark := if g.quoted then none else Mark.ofChar? g.char

/-- The brackets outside literals. -/
def marksOf (glyphs : List Glyph) : List Mark := glyphs.filterMap (·.mark?)

/-- The word that the brackets of a text outside its literals make. -/
def Text.marks (text : Text) : List Mark := marksOf text.glyphs

/-- Every bracket of the word is matched by one of its own family. -/
inductive Balanced : List Mark → Prop where
  | nil : Balanced []
  | group (b : Bracket) {inside after : List Mark} :
      Balanced inside → Balanced after → Balanced (.opening b :: (inside ++ .closing b :: after))

/-- The families that a word leaves open, the innermost first. -/
inductive Leaves : List Bracket → List Mark → Prop where
  | balanced {word : List Mark} : Balanced word → Leaves [] word
  | opened (b : Bracket) {others : List Bracket} {front inside : List Mark} :
      Leaves others front → Balanced inside → Leaves (b :: others) (front ++ .opening b :: inside)

/-- Some closing bracket does not match the innermost one that is open in front of it. -/
def Misclosed (word : List Mark) : Prop :=
  ∃ front b rest opened, word = front ++ .closing b :: rest ∧ Leaves opened front ∧
    opened.head? ≠ some b

/-- Every closing bracket of the word has its match, and some opening one has not. -/
def LeftOpen (word : List Mark) : Prop := ∃ b others, Leaves (b :: others) word

/-! ### Glyphs as brackets -/

namespace Glyph

variable {g : Glyph} {b : Bracket}

theorem mark?_eq_some_iff {m : Mark} : g.mark? = some m ↔ g.isFree ∧ g.char = m.char := by
  rw [mark?, isFree]
  cases g.quoted with
  | true => simp
  | false => simp [Mark.ofChar?_eq_some_iff]

theorem mark?_opening : g.mark? = some (.opening b) ↔ g.opens b := by
  rw [mark?_eq_some_iff, opens, Bool.and_eq_true, beq_iff_eq]
  rfl

theorem mark?_closing : g.mark? = some (.closing b) ↔ g.closes b := by
  rw [mark?_eq_some_iff, closes, Bool.and_eq_true, beq_iff_eq]
  rfl

theorem opens_eq_false (other : g.mark? ≠ some (.opening b)) : g.opens b = false :=
  Bool.eq_false_iff.mpr (mt mark?_opening.mpr other)

theorem closes_eq_false (other : g.mark? ≠ some (.closing b)) : g.closes b = false :=
  Bool.eq_false_iff.mpr (mt mark?_closing.mpr other)

theorem opens_of_mark?_eq_none (plain : g.mark? = none) (b : Bracket) : g.opens b = false :=
  opens_eq_false (by simp [plain])

theorem closes_of_mark?_eq_none (plain : g.mark? = none) (b : Bracket) : g.closes b = false :=
  closes_eq_false (by simp [plain])

theorem isTop_iff : g.isTop ↔ g.isFree ∧ g.depth = 0 ∧ g.mark? = none := by
  rw [isTop, isFree, mark?, Mark.ofChar?, isOpening, isClosing]
  cases g.quoted <;> cases Bracket.ofOpening? g.char <;> cases Bracket.ofClosing? g.char <;> simp

end Glyph

theorem marksOf_cons (g : Glyph) (rest : List Glyph) :
    marksOf (g :: rest) = g.mark?.toList ++ marksOf rest := by
  rw [marksOf, List.filterMap_cons]
  cases g.mark? with
  | none => rfl
  | some m => rfl

theorem marksOf_append (left right : List Glyph) :
    marksOf (left ++ right) = marksOf left ++ marksOf right :=
  List.filterMap_append

/-! ### Balanced words -/

theorem Balanced.append {left right : List Mark} (first : Balanced left) (second : Balanced right) :
    Balanced (left ++ right) := by
  induction first with
  | nil => exact second
  | group b inside _ _ ih =>
      rw [List.cons_append, List.append_assoc, List.cons_append]
      exact .group b inside ih

namespace Leaves

variable {opened : List Bracket} {word : List Mark} {b : Bracket}

theorem append {more : List Mark} (leaves : Leaves opened word) (balanced : Balanced more) :
    Leaves opened (word ++ more) := by
  cases leaves with
  | balanced first => exact .balanced (first.append balanced)
  | opened b others inside =>
      rw [List.append_assoc, List.cons_append]
      exact .opened b others (inside.append balanced)

theorem opening (leaves : Leaves opened word) (b : Bracket) :
    Leaves (b :: opened) (word ++ [.opening b]) :=
  .opened b leaves .nil

/-- The bracket that closes the innermost group completes a balanced word. -/
theorem closing (leaves : Leaves (b :: opened) word) : Leaves opened (word ++ [.closing b]) := by
  cases leaves with
  | opened _ others inside =>
      rw [List.append_assoc, List.cons_append]
      exact others.append (.group b inside .nil)

end Leaves

/-! ### The check -/

/-- What is wrong with the nesting of a word that follows, with the families in `opened` open. -/
def wordFault : (opened : List Bracket) → List Mark → Option ParseCause
  | [], [] => none
  | _ :: _, [] => some .unmatchedBracket
  | opened, .opening b :: word => wordFault (b :: opened) word
  | [], .closing _ :: _ => some .unbalancedBracket
  | innermost :: others, .closing b :: word =>
    if innermost = b then wordFault others word else some .unbalancedBracket

/-- The check looks at nothing but the brackets. -/
theorem nestingFault_eq_wordFault (opened : List Bracket) (glyphs : List Glyph) :
    nestingFault opened glyphs = wordFault opened (marksOf glyphs) := by
  fun_induction nestingFault opened glyphs with
  | case1 => rfl
  | case2 => rfl
  | case3 opened g rest quoted ih =>
      have none : g.mark? = none := if_pos quoted
      rw [ih, marksOf_cons, none]
      rfl
  | case4 opened g rest free b opens ih =>
      have mark : g.mark? = some (.opening b) := by
        rw [Glyph.mark?, if_neg free, Mark.ofChar?, opens]
      rw [ih, marksOf_cons, mark]
      cases opened <;> rfl
  | case5 opened g rest free opens closes ih =>
      have none : g.mark? = none := by
        rw [Glyph.mark?, if_neg free, Mark.ofChar?, opens, closes]
      rw [ih, marksOf_cons, none]
      rfl
  | case6 g rest free b closes opens =>
      have mark : g.mark? = some (.closing b) := by
        rw [Glyph.mark?, if_neg free, Mark.ofChar?, opens, closes]
      rw [marksOf_cons, mark]
      rfl
  | case7 g rest free opens innermost others closes ih =>
      have mark : g.mark? = some (.closing innermost) := by
        rw [Glyph.mark?, if_neg free, Mark.ofChar?, opens, closes]
      rw [ih, marksOf_cons, mark]
      exact (if_pos rfl).symm
  | case8 g rest free b closes opens innermost others other =>
      have mark : g.mark? = some (.closing b) := by
        rw [Glyph.mark?, if_neg free, Mark.ofChar?, opens, closes]
      rw [marksOf_cons, mark]
      exact (if_neg other).symm

section Fault

variable {opened : List Bracket} {word : List Mark}

theorem wordFault_opening (opened : List Bracket) (b : Bracket) (word : List Mark) :
    wordFault opened (.opening b :: word) = wordFault (b :: opened) word := by
  cases opened <;> rfl

theorem wordFault_closing (b : Bracket) (opened : List Bracket) (word : List Mark) :
    wordFault (b :: opened) (.closing b :: word) = wordFault opened word :=
  if_pos rfl

/-- A balanced word is passed over. -/
theorem Balanced.wordFault_append (balanced : Balanced word) (opened : List Bracket)
    (more : List Mark) : wordFault opened (word ++ more) = wordFault opened more := by
  induction balanced generalizing opened more with
  | nil => rfl
  | group b _ _ inner outer =>
      rw [List.cons_append, wordFault_opening, List.append_assoc, inner, List.cons_append,
        wordFault_closing, outer]

/-- Behind a word the check goes on with what the word leaves open. -/
theorem Leaves.wordFault_append (leaves : Leaves opened word) (more : List Mark) :
    wordFault [] (word ++ more) = wordFault opened more := by
  induction leaves generalizing more with
  | balanced balanced => exact balanced.wordFault_append [] more
  | opened b _ inside ih =>
      rw [List.append_assoc, ih, List.cons_append, wordFault_opening, inside.wordFault_append]

theorem Leaves.wordFault_nil (leaves : Leaves opened word) : wordFault [] word = wordFault opened [] := by
  have behind := leaves.wordFault_append []
  rwa [List.append_nil] at behind

/-- What the check finds, said of the whole word, with the part read so far in front. -/
theorem wordFault_cases {front : List Mark} (leaves : Leaves opened front) (word : List Mark) :
    (wordFault opened word = none ∧ Balanced (front ++ word)) ∨
      (wordFault opened word = some .unmatchedBracket ∧ LeftOpen (front ++ word)) ∨
        (wordFault opened word = some .unbalancedBracket ∧ Misclosed (front ++ word)) := by
  induction word generalizing opened front with
  | nil =>
      rw [List.append_nil]
      cases opened with
      | nil =>
          cases leaves with
          | balanced balanced => exact .inl ⟨rfl, balanced⟩
      | cons b others => exact .inr (.inl ⟨rfl, b, others, leaves⟩)
  | cons m word ih =>
      cases m with
      | opening b =>
          have whole := ih (leaves.opening b)
          rwa [List.append_assoc, ← wordFault_opening] at whole
      | closing b =>
          by_cases matched : opened.head? = some b
          · obtain ⟨others, rfl⟩ := List.head?_eq_some_iff.mp matched
            have whole := ih leaves.closing
            rwa [List.append_assoc, ← wordFault_closing b] at whole
          · refine .inr (.inr ⟨?_, front, b, word, opened, rfl, leaves, matched⟩)
            cases opened with
            | nil => rfl
            | cons innermost others =>
                have other : innermost ≠ b := fun same => matched (congrArg some same)
                exact if_neg other

theorem wordFault_eq_none_iff : wordFault [] word = none ↔ Balanced word := by
  constructor
  · intro none
    rcases wordFault_cases (.balanced .nil) word with ⟨-, balanced⟩ | ⟨some, -⟩ | ⟨some, -⟩
    · exact balanced
    · rw [none] at some
      cases some
    · rw [none] at some
      cases some
  · intro balanced
    exact (Leaves.balanced balanced).wordFault_nil

theorem wordFault_eq_unmatched_iff : wordFault [] word = some .unmatchedBracket ↔ LeftOpen word := by
  constructor
  · intro unmatched
    rcases wordFault_cases (.balanced .nil) word with ⟨found, -⟩ | ⟨-, left⟩ | ⟨found, -⟩
    · rw [unmatched] at found
      cases found
    · exact left
    · rw [unmatched] at found
      cases found
  · rintro ⟨b, others, leaves⟩
    exact leaves.wordFault_nil

theorem wordFault_eq_unbalanced_iff : wordFault [] word = some .unbalancedBracket ↔ Misclosed word := by
  constructor
  · intro unbalanced
    rcases wordFault_cases (.balanced .nil) word with ⟨found, -⟩ | ⟨found, -⟩ | ⟨-, misclosed⟩
    · rw [unbalanced] at found
      cases found
    · rw [unbalanced] at found
      cases found
    · exact misclosed
  · rintro ⟨front, b, rest, opened, rfl, leaves, other⟩
    rw [leaves.wordFault_append]
    cases opened with
    | nil => rfl
    | cons innermost others =>
        have different : innermost ≠ b := fun same => other (congrArg some same)
        exact if_neg different

end Fault

/-! ### Texts -/

section Checked

variable {text : Text}

theorem checkBalance_eq (text : Text) : checkBalance text =
    match wordFault [] text.marks with
    | none => .ok ()
    | some cause => .error { cause, text } := by
  rw [checkBalance, nestingFault_eq_wordFault]
  rfl

theorem checkBalance_eq_ok_iff : checkBalance text = .ok () ↔ Balanced text.marks := by
  rw [← wordFault_eq_none_iff, checkBalance_eq]
  cases wordFault [] text.marks <;> simp

theorem checkBalance_eq_error_iff {cause : ParseCause} :
    checkBalance text = .error { cause, text } ↔ wordFault [] text.marks = some cause := by
  rw [checkBalance_eq]
  cases wordFault [] text.marks <;> simp

end Checked

end MissionScript
