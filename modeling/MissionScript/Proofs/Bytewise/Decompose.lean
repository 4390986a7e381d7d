import MissionScript.Proofs.Bytewise.Scan
import MissionScript.Proofs.Renaming.Split

/-!
# Decomposing by offsets

A chunk is decomposed in one pass that keeps the start of the piece, the count of open groups and the closing
bracket of the group that is a piece of its own. Within a group the count is not zero, so nothing is cut there
but at that bracket.
-/

namespace MissionScript

namespace Bytewise

variable {text : Text} {families : List Bracket}

/-! ### Subscripts -/

/-- The first opening bracket of one of the families outside literals. -/
def firstOpening (families : List Bracket) (text : Text) : Option (Nat × Bracket) :=
  text.free.findSome? fun (i, c) => (families.find? (·.opening == c)).map (i, ·)

/-- Whether a fragment is an array subscript. -/
def isSubscript (families : List Bracket) (single : Bool) (fragment : Text) : Option Bool := do
  let text := fragment.trim
  match firstOpening families text with
  | none => return false
  | some (i, family) =>
    match ← scan family text i with
    | .matched first last _ =>
      if last + 1 != text.bytes then return false
      else
        let name ← text.slice? ⟨0, i⟩
        let inside ← text.slice? ⟨first + 1, last⟩
        let indices := inside.splitOn ','
        return (name.isEmpty || name.isDottedName) && indices.length ≤ 2 &&
          indices.all fun index => isIndex single (Text.trim index)
    | _ => return false

theorem find?_opens (families : List Bracket) {g : Glyph} (free : g.isFree) :
    families.find? (·.opening == g.char) = families.find? g.opens := by
  congr 1
  funext b
  rw [Glyph.opens, free, Bool.true_and]
  exact Bool.beq_comm

theorem findSome?_placesOf (families : List Bracket) (offset : Nat) (gs : List Glyph) :
    ((placesOf Glyph.isFree offset gs).findSome? fun (i, c) =>
        (families.find? (·.opening == c)).map (i, ·)) =
      (splitFirst (fun g => families.any g.opens) gs).bind fun (before, g, _) =>
        (families.find? g.opens).map (offset + (Text.ofGlyphs before).bytes, ·) := by
  induction gs generalizing offset with
  | nil => rfl
  | cons g gs ih =>
      have further : ((splitFirst (fun g => families.any g.opens) gs).map fun (before, found, after) =>
          (g :: before, found, after)).bind (fun (before, g, _) =>
            (families.find? g.opens).map (offset + (Text.ofGlyphs before).bytes, ·)) =
          (splitFirst (fun g => families.any g.opens) gs).bind fun (before, h, _) =>
            (families.find? h.opens).map (offset + g.char.utf8Size + (Text.ofGlyphs before).bytes, ·) := by
        rw [Option.bind_map]
        congr 1
        funext cut
        simp only [Function.comp_apply, Text.bytes_ofGlyphs_cons, Nat.add_assoc]
      rw [placesOf_cons, splitFirst]
      cases free : g.isFree with
      | false =>
          have unopened : families.any g.opens = false := by
            simp [Glyph.opens, free]
          rw [unopened, if_neg Bool.false_ne_true, if_neg Bool.false_ne_true, ih, further]
      | true =>
          rw [if_pos rfl, List.findSome?_cons]
          dsimp only
          rw [find?_opens families free]
          cases found : families.find? g.opens with
          | none =>
              have unopened : families.any g.opens = false := by
                simpa using found
              rw [unopened, if_neg Bool.false_ne_true, Option.map_none, ih, further]
          | some b =>
              have opened : families.any g.opens := by
                have known := List.mem_of_find?_eq_some found
                exact List.any_eq_true.mpr ⟨b, known, List.find?_some found⟩
              rw [if_pos opened, Option.map_some, Option.bind_some, found]
              rfl

theorem isSubscript_eq (families : List Bracket) (single : Bool) (fragment : Text) :
    isSubscript families single fragment = some (MissionScript.isSubscript families single fragment) := by
  have firstBracket := findSome?_placesOf families 0 fragment.trim.glyphs
  rw [← Text.free_eq] at firstBracket
  rw [isSubscript, MissionScript.isSubscript]
  dsimp only
  rw [firstOpening, firstBracket]
  cases cut : splitFirst (fun g => families.any g.opens) fragment.trim.glyphs with
  | none => rfl
  | some parts =>
      obtain ⟨before, g, rest⟩ := parts
      have whole := (append_of_splitFirst cut).1
      dsimp only [Option.bind_some]
      cases known : families.find? g.opens with
      | none => rfl
      | some family =>
          have opens := List.find?_some known
          have found := scan_at whole opens
          dsimp only [Option.map_some]
          rw [Nat.zero_add, scan_eq]
          cases closing : family.splitClosing 0 rest with
          | none =>
              rw [closing] at found
              rw [found]
              rfl
          | some cut =>
              obtain ⟨inside, after⟩ := cut
              rw [closing] at found
              rw [found]
              dsimp only [Scan.offsets, Option.bind_eq_bind, Option.bind_some]
              cases after with
              | nil =>
                  have last := (closeOffset_eq_iff found).mpr rfl
                  have front := slice_before found
                  have content := slice_content found
                  rw [last, bne_self_eq_false, if_neg Bool.false_ne_true]
                  rw [show (Text.ofGlyphs before).bytes = (Group.mk before inside []).openOffset from rfl,
                    front, content]
                  rfl
              | cons h after =>
                  have further : (Group.mk before inside (h :: after)).closeOffset + 1 ≠
                      fragment.trim.bytes := fun last => by
                    cases (closeOffset_eq_iff found).mp last
                  rw [if_pos (bne_iff_ne.mpr further)]
                  rfl

/-! ### Options at the end -/

/-- Where the first brace group outside groups opens, and where the last comma outside groups before it
stands. -/
def findOptions : (depth : Nat) → (comma : Option Nat) → List (Nat × Char) → Option (Nat × Option Nat)
  | _, _, [] => none
  | depth, comma, (i, c) :: rest =>
    if c == '\x7b' && depth == 0 then some (i, comma)
    else findOptions (depthAfter depth c) (if c == ',' && depth == 0 then some i else comma) rest

/-- The two tokens of `text, {options}`. -/
def splitOptions (text : Text) : Option (Option (List Text)) :=
  match findOptions 0 none text.free with
  | none => some none
  | some (i, comma) => do
    match ← scan .brace text i with
    | .matched _ last _ =>
      if last + 1 != text.trimEnd.bytes then return none
      else match comma with
        | none => return none
        | some comma =>
          let head ← text.slice? ⟨0, comma⟩
          let options ← text.slice? ⟨comma + 1, text.bytes⟩
          return if head.trim.isEmpty then none else some [head.trim, options.trim]
    | _ => return none

/-- The last place of a kind is the first glyph, or it is the last one behind it. -/
theorem offset_splitLast_cons (p : Glyph → Bool) (offset : Nat) (g : Glyph) (gs : List Glyph) :
    ((splitLast p (g :: gs)).map fun (head, _) => offset + (Text.ofGlyphs head).bytes) =
      ((splitLast p gs).map fun (head, _) => offset + g.char.utf8Size + (Text.ofGlyphs head).bytes).or
        (if p g then some offset else none) := by
  rw [splitLast]
  cases splitLast p gs with
  | none => cases p g <;> rfl
  | some cut => simp [Text.bytes_ofGlyphs_cons, Nat.add_assoc]

theorem findOptions_placesOf {depth : Nat} {gs : List Glyph} (counted : Counted depth gs) (offset : Nat)
    (comma : Option Nat) :
    findOptions depth comma (placesOf Glyph.isFree offset gs) =
      (splitFirst (fun g => g.opens .brace && g.depth == 0) gs).map fun (before, _, _) =>
        (offset + (Text.ofGlyphs before).bytes,
          ((splitLast (fun g => g.isTop && g.char == ',') before).map fun (head, _) =>
            offset + (Text.ofGlyphs head).bytes).or comma) := by
  induction counted generalizing offset comma with
  | nil => rfl
  | @cons g rest counted ih =>
      have further : ((splitFirst (fun g => g.opens .brace && g.depth == 0) rest).map
          fun (before, found, after) => (g :: before, found, after)).map (fun (before, _, _) =>
            (offset + (Text.ofGlyphs before).bytes,
              ((splitLast (fun g => g.isTop && g.char == ',') before).map fun (head, _) =>
                offset + (Text.ofGlyphs head).bytes).or comma)) =
          findOptions (if g.quoted then g.depth else depthAfter g.depth g.char)
            (if g.isTop && g.char == ',' then some offset else comma)
            (placesOf Glyph.isFree (offset + g.char.utf8Size) rest) := by
        rw [ih, Option.map_map]
        congr 1
        funext cut
        simp only [Function.comp_apply, offset_splitLast_cons, Text.bytes_ofGlyphs_cons, Nat.add_assoc,
          Option.or_assoc]
        split <;> rfl
      rw [placesOf_cons, splitFirst]
      cases free : g.isFree with
      | false =>
          have quoted : g.quoted = true := by simpa [Glyph.isFree] using free
          have unopened : (g.opens .brace && g.depth == 0) = false := by simp [Glyph.opens, free]
          have other : (g.isTop && g.char == ',') = false := by simp [Glyph.isTop, free]
          rw [unopened, if_neg Bool.false_ne_true, if_neg Bool.false_ne_true, further, quoted, other]
          rfl
      | true =>
          have quoted : g.quoted = false := by simpa [Glyph.isFree] using free
          have opening : (g.opens .brace && g.depth == 0) = (g.char == '\x7b' && g.depth == 0) := by
            rw [Glyph.opens, free]
            rfl
          have comma? : (g.isTop && g.char == ',') = (g.char == ',' && g.depth == 0) := by
            by_cases comma : g.char = ','
            · have plain : isOpening ',' = false ∧ isClosing ',' = false := by decide
              simp [Glyph.isTop, free, comma, plain]
            · rw [beq_eq_false_iff_ne.mpr comma, Bool.and_false, Bool.false_and]
          rw [if_pos rfl, findOptions, opening]
          by_cases here : (g.char == '\x7b' && g.depth == 0) = true
          · rw [if_pos here, if_pos here]
            rfl
          · rw [if_neg here, if_neg here, further, quoted, comma?]
            rfl

/-- A text ends with a bracket and blanks exactly if the bracket is the last character that is not blank. -/
theorem bytes_trimEnd_eq_iff {left right : Text} {c : Char} (filled : isBlank c = false) :
    left.bytes + c.utf8Size = (Text.trimEnd (left ++ c :: right)).bytes ↔ right.isBlankText := by
  have whole : left ++ c :: right = (left ++ [c]) ++ right := by simp
  have kept : Text.dropEndWhile isBlank (left ++ [c]) = left ++ [c] := by
    refine Text.dropEndWhile_eq_self fun d last => ?_
    rw [List.getLast?_concat] at last
    cases last
    exact filled
  have ends := Text.dropEndWhile_append_eq isBlank (left ++ [c]) right
  rw [← Text.trimEnd_eq_nil_iff, whole, Text.trimEnd, ends, Text.trimEnd]
  by_cases blank : Text.dropEndWhile isBlank right = []
  · rw [if_pos blank, kept]
    simp [blank]
  · have size := Text.bytes_pos blank
    rw [if_neg blank]
    simp only [Text.bytes_append, Text.bytes_cons, Text.bytes_nil, blank, iff_false]
    omega

/-- Only blanks stand behind a group if its closing bracket is the last byte of the trimmed text. -/
theorem closeOffset_trimEnd_iff {family : Bracket} {start : Nat} {group : Group}
    (found : family.scan text start = .matched group) :
    group.closeOffset + 1 = text.trimEnd.bytes ↔ (Text.ofGlyphs group.after).isBlankText := by
  have filled : isBlank family.closing = false := by cases family <;> decide
  have whole : text = (Text.ofGlyphs group.before ++ family.opening :: group.content) ++
      family.closing :: Text.ofGlyphs group.after := by
    rw [List.append_assoc, List.cons_append]
    exact text_eq_of_scan found
  have close : group.closeOffset + 1 =
      (Text.ofGlyphs group.before ++ family.opening :: group.content).bytes + family.closing.utf8Size := by
    rw [Text.bytes_append, Text.bytes_cons, utf8Size_opening, utf8Size_closing, Group.closeOffset,
      Group.openOffset, Group.content, Nat.add_assoc (Text.ofGlyphs group.before).bytes]
  rw [close, whole]
  exact bytes_trimEnd_eq_iff filled

theorem splitOptions_eq (text : Text) : splitOptions text = some (splitOptions? text) := by
  have found := findOptions_placesOf (counted_glyphs text) 0 none
  rw [← Text.free_eq] at found
  rw [splitOptions, splitOptions?, found]
  cases cut : splitFirst (fun g => g.opens .brace && g.depth == 0) text.glyphs with
  | none => rfl
  | some parts =>
      obtain ⟨before, g, rest⟩ := parts
      obtain ⟨whole, here⟩ := append_of_splitFirst cut
      have opens := (Bool.and_eq_true_iff.mp here).1
      have found := scan_at whole opens
      simp only [Option.map_some, Nat.zero_add, scan_eq, Option.bind_eq_bind, Option.bind_some]
      cases closing : Bracket.brace.splitClosing 0 rest with
      | none =>
          rw [closing] at found
          rw [found]
          rfl
      | some cut =>
          obtain ⟨inside, after⟩ := cut
          rw [closing] at found
          rw [found]
          have last := closeOffset_trimEnd_iff found
          dsimp only [Scan.offsets, Option.bind_eq_bind, Option.bind_some]
          cases blank : (Text.ofGlyphs after).isBlankText with
          | false =>
              rw [blank] at last
              rw [if_pos (by simpa using last)]
              rfl
          | true =>
              rw [blank] at last
              rw [if_neg (by simpa using last)]
              cases comma : splitLast (fun g => g.isTop && g.char == ',') before with
              | none => rfl
              | some cut =>
                  obtain ⟨head, options⟩ := cut
                  obtain ⟨h, top, joined⟩ := append_of_splitLast comma
                  have comma' : h.char = ',' := beq_iff_eq.mp (Bool.and_eq_true_iff.mp top).2
                  have parts : text = Text.ofGlyphs head ++
                      ([','] ++ Text.ofGlyphs (options ++ g :: rest)) := by
                    rw [← Text.ofGlyphs_glyphs text, whole, joined, ← comma']
                    simp [Text.ofGlyphs]
                  have front := Text.slice?_front (Text.ofGlyphs head)
                    ([','] ++ Text.ofGlyphs (options ++ g :: rest))
                  have back : Text.slice? (Text.ofGlyphs head ++ ([','] ++ Text.ofGlyphs (options ++ g :: rest)))
                      ⟨(Text.ofGlyphs head).bytes + 1, _⟩ = _ := Text.slice?_behind _ rfl
                  rw [← parts] at front back
                  have dropped : text.drop ((Text.ofGlyphs head).length + 1) =
                      Text.ofGlyphs (options ++ g :: rest) :=
                    drop_of_glyphs whole (append_of_splitLast comma)
                  dsimp only [Option.map_some, Option.some_or, Option.bind_some]
                  rw [front, back, dropped]
                  dsimp only [Option.bind_some]
                  cases (Text.ofGlyphs head).trim.isEmpty <;> rfl

/-! ### Groups that stay whole -/

/-- Whether a group stays with the piece that it ends. -/
def isGlued (family : Bracket) (subscripts : Bool) (fragment : Text) : Option Bool :=
  if subscripts then isSubscript [family] false fragment else some false

theorem isGlued_eq (family : Bracket) (subscripts : Bool) (fragment : Text) :
    isGlued family subscripts fragment =
      some (subscripts && MissionScript.isSubscript [family] false fragment) := by
  rw [isGlued, isSubscript_eq]
  cases subscripts <;> rfl

/-- Go on with cutting a text at blanks, commas and groups. `start` is where the piece starts, `depth` counts
the open groups, and `close` is where the group ends that is a piece of its own. -/
def cutGroups (family : Bracket) (subscripts : Bool) (text : Text) : (start depth : Nat) →
    (close : Option Nat) → List (Nat × Char) → ExceptT ParseError Option (List Text)
  | start, _, _, [] => do return [← text.slice? ⟨start, text.bytes⟩]
  | start, depth, close, (i, c) :: rest => do
    if isOpening c then
      if depth == 0 && c == family.opening then
        match ← scan family text i with
        | .matched _ last _ =>
          let fragment ← text.slice? ⟨start, last + 1⟩
          if ← isGlued family subscripts fragment then cutGroups family subscripts text start (depth + 1) close rest
          else
            let piece ← text.slice? ⟨start, i⟩
            return piece :: (← cutGroups family subscripts text i (depth + 1) (some last) rest)
        | _ => throw { cause := .unmatchedBracket, text }
      else cutGroups family subscripts text start (depth + 1) close rest
    else if isClosing c then
      if close == some i then
        let group ← text.slice? ⟨start, i + 1⟩
        return group :: (← cutGroups family subscripts text (i + 1) (depth - 1) none rest)
      else cutGroups family subscripts text start (depth - 1) close rest
    else if depth == 0 && isSeparator c then
      let piece ← text.slice? ⟨start, i⟩
      return piece :: (← cutGroups family subscripts text (i + c.utf8Size) depth close rest)
    else cutGroups family subscripts text start depth close rest

section Groups

variable {family : Bracket} {subscripts : Bool} {start depth offset : Nat} {close : Option Nat}
  {g h : Glyph} {done piece inside rest after : List Glyph} {opened : List Bracket}

/-- Within a group nothing is cut in front of the bracket that it ends with. -/
theorem cutGroups_inside (counted : Counted depth (inside ++ h :: after))
    (deeper : ∀ k ∈ inside, 0 < k.depth)
    (early : ∀ last ∈ close, offset + (Text.ofGlyphs inside).bytes ≤ last) :
    cutGroups family subscripts text start depth close
        (placesOf Glyph.isFree offset (inside ++ h :: after)) =
      cutGroups family subscripts text start h.depth close
        (placesOf Glyph.isFree (offset + (Text.ofGlyphs inside).bytes) (h :: after)) := by
  induction inside generalizing depth offset with
  | nil =>
      cases counted
      rfl
  | cons k inside ih =>
      obtain ⟨here, below⟩ := List.forall_mem_cons.mp deeper
      have size := k.char.utf8Size_pos
      rw [Text.bytes_ofGlyphs_cons, ← Nat.add_assoc] at early ⊢
      cases counted with
      | cons counted =>
          have further := ih counted below early
          rw [← further, List.cons_append, placesOf_cons]
          cases quoted : k.quoted with
          | true => simp [Glyph.isFree, quoted]
          | false =>
              have apart : (close == some offset) = false := by
                refine beq_eq_false_iff_ne.mpr fun same => ?_
                have := early offset same
                omega
              have deep : (k.depth == 0) = false := by simpa using Nat.ne_of_gt here
              have free : k.isFree := by simp [Glyph.isFree, quoted]
              rw [if_pos free, if_neg Bool.false_ne_true, cutGroups, deep, apart, depthAfter]
              cases isOpening k.char with
              | true => rfl
              | false => cases isClosing k.char <;> rfl

theorem isOpening_of_opens (opens : g.opens family) : isOpening g.char = true := by
  rw [Glyph.char_of_opens opens, isOpening, Bracket.ofOpening?_opening]
  rfl

theorem isOpening_of_closes (closes : h.closes family) : isOpening h.char = false := by
  rw [Glyph.char_of_closes closes]
  cases family <;> rfl

theorem isClosing_of_closes (closes : h.closes family) : isClosing h.char = true := by
  rw [Glyph.char_of_closes closes, isClosing, Bracket.ofClosing?_closing]
  rfl

/-- At the opening bracket of a group outside groups, the piece in front of it is cut off unless the group is
a subscript of it. -/
theorem cutGroups_opening (read : text.Read done piece (g :: (inside ++ h :: after)))
    (opens : g.opens family) (closes : h.closes family)
    (found : family.splitClosing 0 (inside ++ h :: after) = some (inside, after)) :
    cutGroups family subscripts text (Text.ofGlyphs done).bytes 0 close
        (placesOf Glyph.isFree ((Text.ofGlyphs done).bytes + (Text.ofGlyphs piece).bytes)
          (g :: (inside ++ h :: after))) =
      if subscripts &&
          MissionScript.isSubscript [family] false (Text.ofGlyphs (piece ++ g :: (inside ++ [h]))) then
        cutGroups family subscripts text (Text.ofGlyphs done).bytes 1 close
          (placesOf Glyph.isFree ((Text.ofGlyphs done).bytes + (Text.ofGlyphs piece).bytes + 1)
            (inside ++ h :: after))
      else do
        let pieces ← cutGroups family subscripts text
          ((Text.ofGlyphs done).bytes + (Text.ofGlyphs piece).bytes) 1
          (some ((Text.ofGlyphs done).bytes + (Text.ofGlyphs piece).bytes + 1 + (Text.ofGlyphs inside).bytes))
          (placesOf Glyph.isFree ((Text.ofGlyphs done).bytes + (Text.ofGlyphs piece).bytes + 1)
            (inside ++ h :: after))
        return Text.ofGlyphs piece :: pieces := by
  have free : g.isFree := (Bool.and_eq_true_iff.mp opens).1
  have here : ((0 : Nat) == 0 && g.char == family.opening) = true := by
    rw [Glyph.char_of_opens opens]
    simp
  have matched : family.scan text ((Text.ofGlyphs done).bytes + (Text.ofGlyphs piece).bytes) =
      .matched ⟨done ++ piece, inside, after⟩ := by
    have whole : text.glyphs = (done ++ piece) ++ g :: (inside ++ h :: after) := by
      rw [read.whole, List.append_assoc]
    have there := scan_at whole opens
    rw [found] at there
    rw [← Text.bytes_ofGlyphs_append]
    exact there
  have last : (Group.mk (done ++ piece) inside after).closeOffset =
      (Text.ofGlyphs done).bytes + (Text.ofGlyphs piece).bytes + 1 + (Text.ofGlyphs inside).bytes := by
    rw [Group.closeOffset, Group.openOffset, Text.bytes_ofGlyphs_append]
  have fragment : text.slice? ⟨(Text.ofGlyphs done).bytes,
      (Text.ofGlyphs done).bytes + (Text.ofGlyphs piece).bytes + 1 + (Text.ofGlyphs inside).bytes + 1⟩ =
        some (Text.ofGlyphs (piece ++ g :: (inside ++ [h]))) := by
    have group : text.Read done (piece ++ g :: (inside ++ [h])) after :=
      ⟨by rw [read.whole]; simp⟩
    have cut := group.slice
    simp only [Text.bytes_ofGlyphs_append, Text.bytes_ofGlyphs_cons, Text.bytes_ofGlyphs_nil,
      Bracket.utf8Size_of_opens opens, Bracket.utf8Size_of_closes closes] at cut
    rw [← cut]
    congr 2
    omega
  rw [placesOf_cons, if_pos free, cutGroups, isOpening_of_opens opens, if_pos rfl, if_pos here, scan_eq, matched,
    Bracket.utf8Size_of_opens opens]
  dsimp only [Scan.offsets]
  rw [last, lift_some, given_ok_bind]
  dsimp only
  rw [fragment, lift_some, given_ok_bind, isGlued_eq, lift_some, given_ok_bind, read.slice, lift_some,
    given_ok_bind, Nat.zero_add]

/-- At a closing bracket the group is cut off if it is a piece of its own. -/
theorem cutGroups_closing (closes : h.closes family) :
    cutGroups family subscripts text start depth close (placesOf Glyph.isFree offset (h :: after)) =
      if close == some offset then do
        let group ← text.slice? ⟨start, offset + 1⟩
        return group :: (← cutGroups family subscripts text (offset + 1) (depth - 1) none
          (placesOf Glyph.isFree (offset + 1) after))
      else
        cutGroups family subscripts text start (depth - 1) close
          (placesOf Glyph.isFree (offset + 1) after) := by
  have free : h.isFree := (Bool.and_eq_true_iff.mp closes).1
  rw [placesOf_cons, if_pos free, cutGroups, isOpening_of_closes closes, isClosing_of_closes closes,
    if_neg Bool.false_ne_true, if_pos rfl, Bracket.utf8Size_of_closes closes]

/-- In a nested text the glyphs know how many groups are open in front of them. -/
theorem counted_of_nested {gs : List Glyph} (nested : Nested opened gs) : Counted opened.length gs := by
  induction nested with
  | nil => exact .nil 0
  | plain mark level _ ih =>
      rw [← level] at ih ⊢
      exact .cons (by simpa only [depth_step, mark] using ih)
  | opening b mark level _ ih =>
      rw [List.length_cons, ← level] at ih
      rw [← level]
      exact .cons (by simpa only [depth_step, mark] using ih)
  | @closing b opened g _ mark level _ ih =>
      have less : g.depth - 1 = opened.length := by rw [level, Nat.add_sub_cancel]
      rw [← less] at ih
      rw [List.length_cons, ← level]
      exact .cons (by simpa only [depth_step, mark] using ih)

theorem plain_of_mark?_eq_none (free : g.isFree) (mark : g.mark? = none) :
    isOpening g.char = false ∧ isClosing g.char = false := by
  have quoted : g.quoted = false := by simpa [Glyph.isFree] using free
  rw [Glyph.mark?, Mark.ofChar?, quoted, if_neg Bool.false_ne_true] at mark
  rw [isOpening, isClosing]
  cases opening : Bracket.ofOpening? g.char <;> cases closing : Bracket.ofClosing? g.char <;> simp_all

theorem rest_of_plain (nested : Nested opened (g :: rest)) (mark : g.mark? = none) :
    Nested opened rest := by
  cases nested with
  | plain _ _ behind => exact behind
  | opening b other => rw [mark] at other; cases other
  | closing b other => rw [mark] at other; cases other

theorem closes_and_counted (nested : Nested [] (g :: (inside ++ h :: after))) (opens : g.opens family)
    (found : family.splitClosing 0 (inside ++ h :: after) = some (inside, after)) :
    Closes family [] [] (inside ++ h :: after) inside h after ∧ Counted 1 (inside ++ h :: after) := by
  obtain ⟨h', closed⟩ := nested.closes_of_splitClosing opens found
  obtain ⟨rfl, -⟩ := List.cons_eq_cons.mp (List.append_cancel_left closed.glyphs_eq)
  exact ⟨closed, counted_of_nested (nested.rest_of_opens opens)⟩

theorem bytes_group (opens : g.opens family) (closes : h.closes family) (inside : List Glyph) :
    (Text.ofGlyphs (g :: (inside ++ [h]))).bytes = 1 + (Text.ofGlyphs inside).bytes + 1 := by
  rw [Text.bytes_ofGlyphs_cons, Text.bytes_ofGlyphs_concat, Bracket.utf8Size_of_opens opens,
    Bracket.utf8Size_of_closes closes, Nat.add_assoc]

/-- A glyph that neither separates pieces nor starts a group of the family changes only the count of open
groups. -/
theorem exists_cutGroups_step (nested : Nested opened (g :: rest))
    (unopened : (g.opens family && g.depth == 0) = false) (apart : (g.isTop && isSeparator g.char) = false) :
    ∃ others, Nested others rest ∧
      cutGroups family subscripts text start opened.length none (placesOf Glyph.isFree offset (g :: rest)) =
        cutGroups family subscripts text start others.length none
          (placesOf Glyph.isFree (offset + g.char.utf8Size) rest) := by
  rw [placesOf_cons]
  cases free : g.isFree with
  | false =>
      have mark : g.mark? = none := by
        have quoted : g.quoted = true := by simpa [Glyph.isFree] using free
        rw [Glyph.mark?, if_pos quoted]
      exact ⟨opened, rest_of_plain nested mark, rfl⟩
  | true =>
      rw [if_pos rfl, cutGroups]
      cases nested with
      | plain mark level behind =>
          obtain ⟨opening, closing⟩ := plain_of_mark?_eq_none free mark
          have apart' : (opened.length == 0 && isSeparator g.char) = false := by
            rw [Glyph.isTop, free, opening, closing, level] at apart
            simpa using apart
          rw [opening, closing, apart']
          exact ⟨opened, behind, rfl⟩
      | opening b mark level behind =>
          have opens := isOpening_of_opens (Glyph.mark?_opening.mp mark)
          have unopened' : (opened.length == 0 && g.char == family.opening) = false := by
            rw [Glyph.opens, free, Bool.true_and, level, Bool.and_comm] at unopened
            exact unopened
          rw [opens, unopened']
          exact ⟨b :: opened, behind, rfl⟩
      | @closing b opened _ _ mark level behind =>
          have closes := Glyph.mark?_closing.mp mark
          rw [isOpening_of_closes closes, isClosing_of_closes closes]
          exact ⟨opened, behind, rfl⟩

/-- Cutting a nested text keeps to the pieces that it parts in. -/
theorem cutGroups_of_parted {pieces : List (List Glyph)} {glyphs : List Glyph}
    (parted : Parted family subscripts piece glyphs pieces) (nested : Nested opened glyphs)
    (read : text.Read done piece.reverse glyphs) :
    cutGroups family subscripts text (Text.ofGlyphs done).bytes opened.length none
        (placesOf Glyph.isFree ((Text.ofGlyphs done).bytes + (Text.ofGlyphs piece.reverse).bytes) glyphs) =
      given (.ok (pieces.map Text.ofGlyphs)) := by
  induction parted generalizing opened done with
  | done piece =>
      have last := read.slice_rest
      rw [List.append_nil] at last
      rw [placesOf_nil, cutGroups, last]
      rfl
  | @glued piece inside after g h pieces opens level found glued _ ih =>
      obtain rfl : opened = [] := List.length_eq_zero_iff.mp (nested.level.symm.trans level)
      obtain ⟨closed, counted⟩ := closes_and_counted nested opens found
      have group : text.Read done ((g :: (inside ++ [h])).reverse ++ piece).reverse after :=
        ⟨by rw [read.whole]; simp⟩
      have further := ih closed.behind group
      rw [List.reverse_append, List.reverse_reverse, Text.bytes_ofGlyphs_append,
        bytes_group opens closed.closes, ← Nat.add_assoc, ← Nat.add_assoc, ← Nat.add_assoc] at further
      have early : ∀ last ∈ (none : Option Nat), (Text.ofGlyphs done).bytes +
          (Text.ofGlyphs piece.reverse).bytes + 1 + (Text.ofGlyphs inside).bytes ≤ last :=
        fun last absent => by cases absent
      change cutGroups family subscripts text _ 0 none _ = _
      rw [cutGroups_opening read opens closed.closes found, if_pos glued,
        cutGroups_inside counted closed.deeper early, cutGroups_closing closed.closes, closed.level]
      exact further
  | @group piece inside after g h pieces opens level found alone _ ih =>
      obtain rfl : opened = [] := List.length_eq_zero_iff.mp (nested.level.symm.trans level)
      obtain ⟨closed, counted⟩ := closes_and_counted nested opens found
      have group : text.Read (done ++ piece.reverse) (g :: (inside ++ [h])) after :=
        ⟨by rw [read.whole]; simp⟩
      have slice := group.slice
      have further := ih closed.behind group.cut
      rw [bytes_group opens closed.closes, Text.bytes_ofGlyphs_append, ← Nat.add_assoc,
        ← Nat.add_assoc] at slice
      rw [List.reverse_nil, Text.bytes_ofGlyphs_nil, Nat.add_zero, Text.bytes_ofGlyphs_append,
        bytes_group opens closed.closes, Text.bytes_ofGlyphs_append, ← Nat.add_assoc, ← Nat.add_assoc,
        List.length_nil] at further
      have early : ∀ last ∈ some ((Text.ofGlyphs done).bytes + (Text.ofGlyphs piece.reverse).bytes + 1 +
          (Text.ofGlyphs inside).bytes),
            (Text.ofGlyphs done).bytes + (Text.ofGlyphs piece.reverse).bytes + 1 +
              (Text.ofGlyphs inside).bytes ≤ last := by
        rintro last ⟨⟩
        exact Nat.le_refl _
      change cutGroups family subscripts text _ 0 none _ = _
      rw [cutGroups_opening read opens closed.closes found, alone, if_neg Bool.false_ne_true,
        cutGroups_inside counted closed.deeper early, cutGroups_closing closed.closes, closed.level,
        beq_self_eq_true, if_pos rfl, slice, lift_some, given_ok_bind, Nat.add_sub_cancel,
        List.length_nil, further]
      rfl
  | @separator piece rest g pieces top separates _ ih =>
      obtain ⟨free, level, mark⟩ := Glyph.isTop_iff.mp top
      obtain rfl : opened = [] := List.length_eq_zero_iff.mp (nested.level.symm.trans level)
      obtain ⟨opening, closing⟩ := plain_of_mark?_eq_none free mark
      have further := ih (rest_of_plain nested mark) read.next.cut
      rw [List.reverse_nil, Text.bytes_ofGlyphs_cut, Text.bytes_ofGlyphs_nil, Nat.add_zero] at further
      rw [placesOf_cons, if_pos free, cutGroups, opening, closing, separates, read.slice, lift_some,
        given_ok_bind, further]
      rfl
  | @other piece rest g pieces unopened apart _ ih =>
      have longer : text.Read done (g :: piece).reverse rest :=
        ⟨by rw [read.whole]; simp⟩
      obtain ⟨others, behind, step⟩ := exists_cutGroups_step nested unopened apart
      have further := ih behind longer
      rw [List.reverse_cons, Text.bytes_ofGlyphs_concat, ← Nat.add_assoc] at further
      rw [step, further]

end Groups

/-! ### Decomposing -/

/-- The text without the group of the family around the whole of it. -/
def stripped (family : Bracket) (strip : Bool) (text : Text) : Option Text := do
  if strip then
    match ← scan family text 0 with
    | .matched first last true => return (← text.slice? ⟨first + 1, last⟩).trim
    | _ => return text
  else return text

theorem stripped_eq (family : Bracket) (strip : Bool) (text : Text) :
    stripped family strip text = some (text.stripped family strip) := by
  unfold stripped Text.stripped
  cases strip with
  | false => rfl
  | true =>
      rw [if_pos rfl, scan_eq]
      cases found : family.scan text 0 with
      | notFound => rfl
      | unmatched before => rfl
      | matched group =>
          dsimp only [Scan.offsets, Option.bind_eq_bind, Option.bind_some]
          cases group.isOuter with
          | false => rfl
          | true =>
              dsimp only
              rw [slice_content found]
              rfl

/-- Split by blanks and commas, keeping the groups of the family whole. -/
def decompose (family : Bracket) (subscripts strip : Bool) (chunk : Text) :
    ExceptT ParseError Option (List Text) := do
  given (checkBalance (chunk.readied subscripts))
  let text ← stripped family strip (chunk.readied subscripts)
  match ← splitOptions text with
  | some options => return options
  | none =>
    match ← scan family text 0 with
    | .unmatched _ => throw { cause := .unmatchedBracket, text }
    | .notFound => splitTop isSeparator text
    | .matched .. => return tokens (← cutGroups family subscripts text 0 0 none text.free)

theorem decompose_eq (family : Bracket) (subscripts strip : Bool) (chunk : Text) :
    decompose family subscripts strip chunk = given (MissionScript.decompose family subscripts strip chunk) := by
  rw [decompose, MissionScript.decompose_eq, stripped_eq]
  refine given_bind _ fun _ balanced => ?_
  have balanced := checkBalance_stripped balanced family strip
  generalize (chunk.readied subscripts).stripped family strip = text at balanced
  obtain ⟨pieces, parted, cut, -⟩ := exists_cutUp balanced family subscripts
  have groups : cutGroups family subscripts text 0 0 none text.free = given (.ok (pieces.map Text.ofGlyphs)) :=
    cutGroups_of_parted parted (nested_of_checkBalance balanced) (.start text)
  rw [Bracket.cutUp, lift_some, given_ok_bind, splitOptions_eq, lift_some, given_ok_bind, scan_eq, cut]
  cases splitOptions? text with
  | some options => rfl
  | none =>
      rw [lift_some, given_ok_bind]
      cases family.scan text 0 with
      | unmatched before => rfl
      | notFound => exact congrArg liftM (splitTop_eq isSeparator text)
      | matched group =>
          dsimp only [Scan.offsets]
          rw [groups, given_ok_bind, tokens_map]
          rfl

end Bytewise

end MissionScript
