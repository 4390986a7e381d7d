import MissionScript.Proofs.Bracket.Outermost
import MissionScript.Proofs.Bytewise.Slice
import MissionScript.Proofs.Script.Decompose

/-!
# Scanning for groups

A scan that keeps offsets remembers where the first opening bracket stands and counts the groups that are open.
It takes one off its counter only behind an opening bracket, so the counter never falls below zero, and it
answers with the offsets of the brackets that the group has. What stands between them and around them can be
cut out.

The splitters of the argument grammars cut at delimiters and at the brackets of groups. A group that follows
another one is looked for behind the closing bracket of the first.
-/

namespace MissionScript

/-! ### The last character of a kind -/

namespace Text

variable {p : Char → Bool} {offset : Nat} {text : Text}

/-- The offset of the last character that satisfies `p`, the text starting at `offset`. -/
def findLastFrom (p : Char → Bool) : (offset : Nat) → Text → Option Nat
  | _, [] => none
  | offset, c :: text =>
    match findLastFrom p (offset + c.utf8Size) text with
    | some last => some last
    | none => if p c then some offset else none

/-- The offset of the last character that satisfies `p`. -/
def findLast? (p : Char → Bool) (text : Text) : Option Nat := findLastFrom p 0 text

theorem findLastFrom_eq_none_iff : findLastFrom p offset text = none ↔ ∀ c ∈ text, p c = false := by
  induction text generalizing offset with
  | nil => exact iff_of_true rfl nofun
  | cons c text ih =>
      rw [findLastFrom, List.forall_mem_cons]
      cases further : findLastFrom p (offset + c.utf8Size) text with
      | some last =>
          have others : ¬∀ c ∈ text, p c = false := fun none => by
            rw [ih.mpr none] at further
            cases further
          simp [others]
      | none =>
          have others := ih.mp further
          cases here : p c with
          | true => simp
          | false => exact iff_of_true rfl ⟨rfl, others⟩

theorem le_of_findLastFrom {last : Nat} (found : findLastFrom p offset text = some last) : offset ≤ last := by
  induction text generalizing offset with
  | nil => cases found
  | cons c text ih =>
      rw [findLastFrom] at found
      split at found
      · rename_i behind
        cases found
        exact Nat.le_trans (Nat.le_add_right ..) (ih behind)
      · split at found
        · cases found
          exact Nat.le_refl _
        · cases found

/-- A character is the last of its kind if there is none behind it. -/
theorem findLastFrom_append_cons_iff {c : Char} (here : p c) (left right : Text) :
    findLastFrom p offset (left ++ c :: right) = some (offset + left.bytes) ↔ ∀ d ∈ right, p d = false := by
  induction left generalizing offset with
  | nil =>
      rw [List.nil_append, findLastFrom, bytes_nil, Nat.add_zero]
      cases further : findLastFrom p (offset + c.utf8Size) right with
      | none =>
          have others := findLastFrom_eq_none_iff.mp further
          exact iff_of_true (if_pos here) others
      | some last =>
          have above := le_of_findLastFrom further
          have size := c.utf8Size_pos
          have others : ¬∀ d ∈ right, p d = false := fun none => by
            rw [findLastFrom_eq_none_iff.mpr none] at further
            cases further
          simp only [others, Option.some.injEq, iff_false]
          omega
  | cons d left ih =>
      rw [List.cons_append, findLastFrom, bytes_cons, ← Nat.add_assoc, ← ih]
      cases further : findLastFrom p (offset + d.utf8Size) (left ++ c :: right) with
      | some last => rfl
      | none =>
          have absent := findLastFrom_eq_none_iff.mp further c (by simp)
          rw [here] at absent
          cases absent

/-- A character is the first of its kind if there is none in front of it. -/
theorem findFrom_append_cons_iff {c : Char} (here : p c) (left right : Text) :
    findFrom p offset (left ++ c :: right) = some (offset + left.bytes) ↔ ∀ d ∈ left, p d = false := by
  induction left generalizing offset with
  | nil => exact iff_of_true (if_pos here) nofun
  | cons d left ih =>
      have size := d.utf8Size_pos
      rw [List.cons_append, findFrom, bytes_cons, ← Nat.add_assoc, List.forall_mem_cons]
      cases other : p d with
      | true =>
          simp only [if_true, Option.some.injEq, Bool.true_eq_false, false_and, iff_false]
          omega
      | false =>
          rw [if_neg Bool.false_ne_true, ih]
          exact (and_iff_right rfl).symm

end Text

/-! ### The scan -/

/-- What a scan answers in offsets. -/
inductive OffsetScan where
  | notFound
  /-- Where the brackets of the group stand, and whether nothing but blanks is around it. -/
  | matched (first last : Nat) (outer : Bool)
  | unmatched (first : Nat)
deriving DecidableEq, Repr

/-- The offsets of what a scan answers. -/
def Scan.offsets : Scan → OffsetScan
  | notFound => .notFound
  | matched group => .matched group.openOffset group.closeOffset group.isOuter
  | unmatched before => .unmatched (Text.ofGlyphs before).bytes

namespace Bytewise

variable {b : Bracket} {text : Text} {start : Nat}

/-- The two offsets are those of the first and the last character that is not blank. -/
def spansWhole (text : Text) (first last : Nat) : Bool :=
  text.find? (!isBlank ·) == some first && text.findLast? (!isBlank ·) == some last

/-- Go on with a scan. `first` is where the first opening bracket stands, once there is one. -/
def scanFrom (b : Bracket) (text : Text) (start : Nat) :
    (first : Option Nat) → (depth : Nat) → List (Nat × Char) → Option OffsetScan
  | none, _, [] => some .notFound
  | some first, _, [] => some (.unmatched first)
  | first, depth, (i, c) :: rest =>
    if i < start then scanFrom b text start first depth rest
    else if c == b.opening then scanFrom b text start (some (first.getD i)) (depth + 1) rest
    else if c == b.closing then
      match first, depth with
      | none, depth => scanFrom b text start none depth rest
      | some _, 0 => none
      | some first, 1 => some (.matched first i (spansWhole text first i))
      | some first, depth + 2 => scanFrom b text start (some first) (depth + 1) rest
    else scanFrom b text start first depth rest

/-- The first group of the family whose opening bracket stands at the offset `start` or later. -/
def scan (b : Bracket) (text : Text) (start : Nat) : Option OffsetScan :=
  scanFrom b text start none 0 text.free

section Pass

variable {offset first depth next : Nat} {gs before inside after rest : List Glyph} {g : Glyph}

/-! ### Up to the opening bracket -/

theorem scanFrom_skip (other : start - offset = 0 → g.opens b = false) :
    scanFrom b text start none 0 (placesOf Glyph.isFree offset (g :: rest)) =
      scanFrom b text start none 0 (placesOf Glyph.isFree (offset + g.char.utf8Size) rest) := by
  rw [placesOf_cons]
  cases free : g.isFree with
  | false => rw [if_neg Bool.false_ne_true]
  | true =>
      rw [if_pos rfl, scanFrom]
      by_cases early : offset < start
      · rw [if_pos early]
      · have unopened := other (Nat.sub_eq_zero_of_le (Nat.le_of_not_lt early))
        rw [Glyph.opens, free, Bool.true_and] at unopened
        rw [if_neg early, unopened, if_neg Bool.false_ne_true, ite_self]

theorem scanFrom_opening (late : start ≤ offset) (opens : g.opens b) :
    scanFrom b text start none 0 (placesOf Glyph.isFree offset (g :: rest)) =
      scanFrom b text start (some offset) 1 (placesOf Glyph.isFree (offset + 1) rest) := by
  obtain ⟨free, opening⟩ := Bool.and_eq_true_iff.mp opens
  rw [placesOf_cons, if_pos free, scanFrom, if_neg (Nat.not_lt.mpr late), if_pos opening,
    Bracket.utf8Size_of_opens opens]
  rfl

theorem scanFrom_eq_notFound (absent : b.splitOpening (start - offset) gs = none) :
    scanFrom b text start none 0 (placesOf Glyph.isFree offset gs) = some .notFound := by
  induction gs generalizing offset with
  | nil => rfl
  | cons g gs ih =>
      rw [Bracket.splitOpening] at absent
      split at absent
      · cases absent
      · rename_i other
        rw [Option.map_eq_none_iff, Nat.sub_sub] at absent
        rw [scanFrom_skip (by simpa using other), ih absent]

theorem scanFrom_of_splitOpening (split : b.splitOpening (start - offset) gs = some (before, rest)) :
    scanFrom b text start none 0 (placesOf Glyph.isFree offset gs) =
      scanFrom b text start (some (offset + (Text.ofGlyphs before).bytes)) 1
        (placesOf Glyph.isFree (offset + (Text.ofGlyphs before).bytes + 1) rest) := by
  induction gs generalizing offset before with
  | nil => cases split
  | cons g gs ih =>
      rw [Bracket.splitOpening] at split
      split at split
      · rename_i here
        cases split
        rw [Bool.and_eq_true, beq_iff_eq] at here
        exact scanFrom_opening (Nat.le_of_sub_eq_zero here.1) here.2
      · rename_i other
        rw [Nat.sub_sub, Option.map_eq_some_iff] at split
        obtain ⟨⟨before, rest⟩, split, same⟩ := split
        cases same
        rw [scanFrom_skip (by simpa using other), ih split, Text.bytes_ofGlyphs_cons, Nat.add_assoc]

/-! ### Up to the closing bracket -/

theorem scanFrom_closing (late : start ≤ offset) (closes : g.closes b) :
    scanFrom b text start (some first) 1 (placesOf Glyph.isFree offset (g :: rest)) =
      some (.matched first offset (spansWhole text first offset)) := by
  have unopened := Glyph.opens_eq_false_of_closes closes b
  obtain ⟨free, closing⟩ := Bool.and_eq_true_iff.mp closes
  rw [Glyph.opens, free, Bool.true_and] at unopened
  rw [placesOf_cons, if_pos free, scanFrom, if_neg (Nat.not_lt.mpr late), unopened,
    if_neg Bool.false_ne_true, if_pos closing]

/-- Within a group the counter is the count of open groups, which the glyph changes. -/
theorem scanFrom_inside (late : start ≤ offset) (level : (next : Int) = depth + b.rise g) :
    scanFrom b text start (some first) (depth + 1) (placesOf Glyph.isFree offset (g :: rest)) =
      scanFrom b text start (some first) (next + 1)
        (placesOf Glyph.isFree (offset + g.char.utf8Size) rest) := by
  rw [placesOf_cons]
  cases free : g.isFree with
  | false =>
      have same : next = depth := by
        rw [Bracket.rise, Glyph.opens, Glyph.closes, free] at level
        exact Int.ofNat_inj.mp (by simpa using level)
      rw [same, if_neg Bool.false_ne_true]
  | true =>
      rw [Bracket.rise, Glyph.opens, Glyph.closes, free, Bool.true_and, Bool.true_and] at level
      rw [if_pos rfl, scanFrom.eq_def]
      dsimp only
      rw [if_neg (Nat.not_lt.mpr late)]
      by_cases opening : g.char == b.opening
      · rw [if_pos opening] at level
        obtain rfl : next = depth + 1 := by omega
        rw [if_pos opening]
        rfl
      · rw [if_neg opening] at level
        rw [if_neg opening]
        by_cases closing : g.char == b.closing
        · rw [if_pos closing] at level
          obtain rfl : depth = next + 1 := by omega
          rw [if_pos closing]
        · rw [if_neg closing] at level
          obtain rfl : next = depth := by omega
          rw [if_neg closing]

theorem scanFrom_of_splitClosing (late : start ≤ offset)
    (found : b.splitClosing depth gs = some (inside, after)) :
    scanFrom b text start (some first) (depth + 1) (placesOf Glyph.isFree offset gs) =
      some (.matched first (offset + (Text.ofGlyphs inside).bytes)
        (spansWhole text first (offset + (Text.ofGlyphs inside).bytes))) := by
  induction gs generalizing offset depth inside with
  | nil => cases found
  | cons g gs ih =>
      rcases b.splitClosing_step depth g gs with ⟨rfl, closes, here⟩ | ⟨next, level, step⟩
      · cases here.symm.trans found
        exact scanFrom_closing late closes
      · rw [step, Option.map_eq_some_iff] at found
        obtain ⟨⟨inside, after⟩, found, same⟩ := found
        cases same
        rw [scanFrom_inside late level, ih (Nat.le_trans late (Nat.le_add_right ..)) found,
          Text.bytes_ofGlyphs_cons, Nat.add_assoc]

theorem scanFrom_of_splitClosing_eq_none (late : start ≤ offset) (endless : b.splitClosing depth gs = none) :
    scanFrom b text start (some first) (depth + 1) (placesOf Glyph.isFree offset gs) =
      some (.unmatched first) := by
  induction gs generalizing offset depth with
  | nil => rfl
  | cons g gs ih =>
      rcases b.splitClosing_step depth g gs with ⟨-, -, here⟩ | ⟨next, level, step⟩
      · rw [here] at endless
        cases endless
      · rw [step, Option.map_eq_none_iff] at endless
        rw [scanFrom_inside late level, ih (Nat.le_trans late (Nat.le_add_right ..)) endless]

end Pass

/-- Nothing but blanks stands around a group exactly if its brackets are the first and the last character that
is not blank. -/
theorem spansWhole_eq {left inside right : Text} {c d : Char} (first : !isBlank c) (last : !isBlank d) :
    spansWhole (left ++ c :: (inside ++ d :: right)) left.bytes (left ++ c :: inside).bytes =
      (left.isBlankText && right.isBlankText) := by
  have front : Text.findFrom (!isBlank ·) 0 (left ++ c :: (inside ++ d :: right)) =
      some (0 + left.bytes) ↔ ∀ e ∈ left, (!isBlank e) = false :=
    Text.findFrom_append_cons_iff first left _
  have back : Text.findLastFrom (!isBlank ·) 0 ((left ++ c :: inside) ++ d :: right) =
      some (0 + Text.bytes (left ++ c :: inside)) ↔ ∀ e ∈ right, (!isBlank e) = false :=
    Text.findLastFrom_append_cons_iff last _ right
  rw [Nat.zero_add] at front back
  rw [List.append_assoc, List.cons_append] at back
  rw [Bool.eq_iff_iff, spansWhole, Bool.and_eq_true, Bool.and_eq_true, beq_iff_eq, beq_iff_eq]
  refine and_congr (front.trans ?_) (back.trans ?_)
  all_goals simp [Text.isBlankText]

/-- A scan that keeps offsets is never at fault, and it finds what a scan finds. -/
theorem scan_eq (b : Bracket) (text : Text) (start : Nat) :
    scan b text start = some (b.scan text start).offsets := by
  have scans := b.scans_scanGlyphs start text.glyphs
  rw [show b.scanGlyphs start text.glyphs = b.scan text start from rfl] at scans
  rw [scan, Text.free_eq]
  generalize b.scan text start = answer at scans
  cases scans with
  | notFound absent => exact scanFrom_eq_notFound absent
  | unmatched split whole opens endless =>
      have late := (Bracket.not_opens_of_splitOpening 0 split).1
      rw [scanFrom_of_splitOpening split, Nat.zero_add]
      rw [Nat.zero_add] at late
      exact scanFrom_of_splitClosing_eq_none (Nat.le_succ_of_le late) endless
  | @matched before inside after g h split whole opens closes found =>
      have late := (Bracket.not_opens_of_splitOpening 0 split).1
      have parts : text = Text.ofGlyphs before ++
          g.char :: (Text.ofGlyphs inside ++ h.char :: Text.ofGlyphs after) := by
        rw [← Text.ofGlyphs_glyphs text, whole]
        simp [Text.ofGlyphs]
      have last : (Text.ofGlyphs before).bytes + 1 + (Text.ofGlyphs inside).bytes =
          (Text.ofGlyphs before ++ g.char :: Text.ofGlyphs inside).bytes := by
        rw [Text.bytes_append, Text.bytes_cons, Bracket.utf8Size_of_opens opens, Nat.add_assoc]
      have spans : spansWhole text (Text.ofGlyphs before).bytes
          ((Text.ofGlyphs before).bytes + 1 + (Text.ofGlyphs inside).bytes) =
            ((Text.ofGlyphs before).isBlankText && (Text.ofGlyphs after).isBlankText) := by
        rw [last, parts]
        exact spansWhole_eq (Bracket.isBlank_eq_false_of_opens opens)
          (Bracket.isBlank_eq_false_of_closes closes)
      rw [Nat.zero_add] at late
      rw [scanFrom_of_splitOpening split, Nat.zero_add,
        scanFrom_of_splitClosing (Nat.le_succ_of_le late) found, spans]
      rfl

/-! ### The parts of a group -/

section Group

variable {group : Group}

theorem utf8Size_opening (b : Bracket) : b.opening.utf8Size = 1 := by cases b <;> rfl

theorem utf8Size_closing (b : Bracket) : b.closing.utf8Size = 1 := by cases b <;> rfl

theorem text_eq_of_scan (found : b.scan text start = .matched group) :
    text = Text.ofGlyphs group.before ++
      b.opening :: (group.content ++ b.closing :: Text.ofGlyphs group.after) := by
  have scans := b.scans_scanGlyphs start text.glyphs
  rw [show b.scanGlyphs start text.glyphs = .matched group from found] at scans
  cases scans with
  | matched _ whole opens closes _ => exact Bracket.text_eq whole opens closes

/-- From an opening bracket on, a scan finds the group that it starts. -/
theorem scan_at {before rest : List Glyph} {g : Glyph} (whole : text.glyphs = before ++ g :: rest)
    (opens : g.opens b) : b.scan text (Text.ofGlyphs before).bytes =
      match b.splitClosing 0 rest with
      | none => .unmatched before
      | some (inside, after) => .matched ⟨before, inside, after⟩ := by
  have here : b.splitOpening 0 (g :: rest) = some ([], rest) := by
    rw [Bracket.splitOpening, opens]
    rfl
  rw [Bracket.scan, whole, Bracket.scanGlyphs_append, Bracket.scanGlyphs, here]
  dsimp only
  cases b.splitClosing 0 rest with
  | none => exact congrArg Scan.unmatched (List.append_nil before)
  | some cut => exact congrArg (fun front => Scan.matched ⟨front, cut.1, cut.2⟩) (List.append_nil before)

/-- The contents stand between the brackets. -/
theorem slice_content (found : b.scan text start = .matched group) :
    text.slice? ⟨group.openOffset + 1, group.closeOffset⟩ = some group.content := by
  have cut := Text.slice?_append (Text.ofGlyphs group.before ++ [b.opening]) group.content
    (b.closing :: Text.ofGlyphs group.after)
  rw [List.append_assoc, List.singleton_append, ← text_eq_of_scan found, Text.bytes_append, Text.bytes_cons,
    utf8Size_opening] at cut
  exact cut

theorem slice_before (found : b.scan text start = .matched group) :
    text.slice? ⟨0, group.openOffset⟩ = some (Text.ofGlyphs group.before) := by
  have cut := Text.slice?_front (Text.ofGlyphs group.before)
    (b.opening :: (group.content ++ b.closing :: Text.ofGlyphs group.after))
  rwa [← text_eq_of_scan found] at cut

theorem bytes_of_scan (found : b.scan text start = .matched group) :
    text.bytes = group.closeOffset + 1 + (Text.ofGlyphs group.after).bytes := by
  have size := congrArg Text.bytes (text_eq_of_scan found)
  rw [Text.bytes_append, Text.bytes_cons, Text.bytes_append, Text.bytes_cons, utf8Size_opening,
    utf8Size_closing] at size
  rw [size, Group.closeOffset, Group.openOffset, Group.content]
  omega

/-- A group stands behind the offset that it is looked for from. -/
theorem bounds_of_scan (found : b.scan text start = .matched group) :
    start ≤ group.openOffset ∧ group.openOffset < group.closeOffset ∧ group.closeOffset < text.bytes := by
  have size := bytes_of_scan found
  have late : start ≤ group.openOffset := by
    have scans := b.scans_scanGlyphs start text.glyphs
    rw [show b.scanGlyphs start text.glyphs = .matched group from found] at scans
    cases scans with
    | matched split _ _ _ _ =>
        have late := (Bracket.not_opens_of_splitOpening 0 split).1
        rwa [Nat.zero_add] at late
  refine ⟨late, ?_, by omega⟩
  rw [Group.closeOffset]
  omega

/-- The group ends the text if its closing bracket is the last byte. -/
theorem closeOffset_eq_iff (found : b.scan text start = .matched group) :
    group.closeOffset + 1 = text.bytes ↔ group.after = [] := by
  rw [bytes_of_scan found]
  constructor
  · intro last
    cases after : group.after with
    | nil => rfl
    | cons g gs =>
        have size := g.char.utf8Size_pos
        rw [after, Text.bytes_ofGlyphs_cons] at last
        omega
  · intro none
    rw [none]
    rfl

end Group

/-! ### Splitting at delimiters -/

/-- The trimmed pieces that are not empty. -/
def tokens (pieces : List Text) : List Text := (pieces.map (·.trim)).filter (!·.isEmpty)

theorem tokens_map (pieces : List (List Glyph)) : tokens (pieces.map Text.ofGlyphs) = tidy pieces := by
  rw [tokens, tidy, List.map_map]
  rfl

/-- Split at the characters outside literals that satisfy `p`. -/
def splitFree (p : Char → Bool) (text : Text) : Option (List Text) := do
  return tokens (← cutAt text 0 (text.free.filter (p ·.2)))

theorem splitFree_eq (p : Char → Bool) (text : Text) :
    splitFree p text = some (MissionScript.splitFree p text) := by
  rw [splitFree, Text.free_eq, filter_placesOf, cutAt_eq]
  exact congrArg some (tokens_map _)

/-- Split at the characters outside literals and groups that satisfy `p`. -/
def splitTop (p : Char → Bool) (text : Text) : Option (List Text) := do
  return tokens (← cutAt text 0 (text.top.filter (p ·.2)))

theorem splitTop_eq (p : Char → Bool) (text : Text) :
    splitTop p text = some (MissionScript.splitTop p text) := by
  rw [splitTop, Text.top_eq, filter_placesOf, cutAt_eq]
  exact congrArg some (tokens_map _)

/-- Split at blanks. -/
def separateSpaces (text : Text) : Option (List Text) := splitFree isBlank text

theorem separateSpaces_eq (text : Text) : separateSpaces text = some (MissionScript.separateSpaces text) :=
  splitFree_eq isBlank text

/-- Split a dotted name; a number is left whole. -/
def separateDots (text : Text) : Option (List Text) :=
  if (Decimal.read? text.trim).isSome then some [text.trim] else splitFree (· == '.') text.trim

theorem separateDots_eq (text : Text) : separateDots text = some (MissionScript.separateDots text) := by
  rw [separateDots, MissionScript.separateDots, splitFree_eq]
  split <;> rfl

/-- Split at any of the delimiters. -/
def separateBy (delimiters text : Text) : Option (List Text) := splitFree (isDelimiter delimiters) text

theorem separateBy_eq (delimiters text : Text) :
    separateBy delimiters text = some (MissionScript.separateBy delimiters text) :=
  splitFree_eq (isDelimiter delimiters) text

/-! ### One group -/

/-- Strip the outer group of the family and split its contents at any of the delimiters. -/
def separateGroup (family : Bracket) (delimiters : Text) (required : Bool) (chunk : Text) :
    ExceptT ParseError Option (List Text) := do
  let text := chunk.trim
  match ← scan family text 0 with
  | .matched first last true => splitTop (isDelimiter delimiters) (← text.slice? ⟨first + 1, last⟩)
  | .unmatched _ => throw { cause := .unmatchedBracket, text }
  | _ =>
    if required then throw { cause := .outerBracketMissing family, text }
    else splitTop (isDelimiter delimiters) text

theorem separateGroup_eq (family : Bracket) (delimiters : Text) (required : Bool) (chunk : Text) :
    separateGroup family delimiters required chunk =
      given (MissionScript.separateGroup family delimiters required chunk) := by
  rw [separateGroup, MissionScript.separateGroup, scan_eq, lift_some, given_ok_bind]
  cases found : family.scan chunk.trim 0 with
  | notFound =>
      cases required with
      | true => rfl
      | false => exact congrArg liftM (splitTop_eq _ _)
  | unmatched before => rfl
  | matched group =>
      dsimp only [Scan.offsets]
      cases outer : group.isOuter with
      | true =>
          dsimp only
          rw [slice_content found, lift_some, given_ok_bind, splitTop_eq]
          rfl
      | false =>
          cases required with
          | true => rfl
          | false => exact congrArg liftM (splitTop_eq _ _)

/-! ### Every group -/

/-- The trimmed contents of the groups of the family from the offset `start` on, each looked for behind the
closing bracket of the one before. Nothing if a group is never closed. -/
def groupsFrom (family : Bracket) (text : Text) (start : Nat) : Option (Option (List Text)) :=
  match _found : scan family text start with
  | none => none
  | some .notFound => some (some [])
  | some (.unmatched _) => some none
  | some (.matched first last _) => do
    let inner ← text.slice? ⟨first + 1, last⟩
    let groups ← groupsFrom family text (last + 1)
    return groups.map (inner.trim :: ·)
termination_by text.bytes - start
decreasing_by
  rw [scan_eq, Option.some.injEq] at _found
  cases found : family.scan text start with
  | notFound => rw [found] at _found; cases _found
  | unmatched before => rw [found] at _found; cases _found
  | matched group =>
      rw [found] at _found
      cases _found
      have := bounds_of_scan found
      omega

theorem groupsFrom_of_restarts {family : Bracket} {start : Nat} {contents : Option (List Text)}
    (restarts : family.Restarts text start contents) : groupsFrom family text start = some contents := by
  induction restarts with
  | done found =>
      rw [groupsFrom, scan_eq, found]
      rfl
  | endless found =>
      rw [groupsFrom, scan_eq, found]
      rfl
  | next found _ ih =>
      rw [groupsFrom, scan_eq, found]
      dsimp only [Scan.offsets]
      rw [slice_content found, ih]
      rfl

/-- The trimmed contents of the groups of the family that are not inside another one. -/
def separateGroups (family : Bracket) (text : Text) : ExceptT ParseError Option (List Text) := do
  match ← groupsFrom family text 0 with
  | some contents => return contents
  | none => throw { cause := .unmatchedBracket, text }

theorem separateGroups_eq (family : Bracket) (text : Text) :
    separateGroups family text = given (MissionScript.separateGroups family text) := by
  have whole : text.glyphs = [] ++ text.glyphs := rfl
  have restarts : family.Restarts text 0 (family.outermost? text.glyphs) :=
    Bracket.restarts_outermost whole
  rw [separateGroups, MissionScript.separateGroups, groupsFrom_of_restarts restarts, lift_some, given_ok_bind]
  cases family.outermost? text.glyphs <;> rfl

end Bytewise

end MissionScript
