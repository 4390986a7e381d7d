import MissionScript.Proofs.Bracket.Offsets
import MissionScript.Proofs.Script.Tiling

/-!
# Slices

A reader that keeps offsets looks for characters with their byte offsets and takes slices between them. A
slice is at fault if its offsets are not in order, lie behind the end of the text or fall within a character;
a counter is at fault if it falls below zero. The readers of `Bytewise` are written in this way and have no
result where one of their steps is at fault.

Most of them pass over the characters outside literals with a counter of open groups and take the slices
between the characters that they cut at. What has been read of a text is what has been cut off and the piece
behind it; the offsets that the reader keeps are the byte lengths of the two.
-/

namespace MissionScript

namespace Text

variable {text part : Text} {start stop : Nat}

/-- A character of the text starts at the byte offset, or the text ends there. -/
def IsBoundary (text : Text) (offset : Nat) : Prop :=
  ∃ front back : Text, text = front ++ back ∧ front.bytes = offset

theorem eq_of_cutAtByte? {n : Nat} {front rest : Text} (cut : cutAtByte? n text = some (front, rest)) :
    text = front ++ rest ∧ front.bytes = n := by
  fun_induction cutAtByte? n text generalizing front with
  | case1 text =>
      cases cut
      exact ⟨rfl, rfl⟩
  | case2 => cases cut
  | case3 n c text fits ih =>
      obtain ⟨⟨front, rest⟩, cut, same⟩ := Option.map_eq_some_iff.mp cut
      cases same
      obtain ⟨rfl, size⟩ := ih cut
      refine ⟨rfl, ?_⟩
      rw [bytes_cons, size]
      omega
  | case4 => cases cut

theorem slice?_eq_some_iff : text.slice? ⟨start, stop⟩ = some part ↔
    ∃ before after : Text, text = before ++ (part ++ after) ∧ before.bytes = start ∧
      before.bytes + part.bytes = stop := by
  constructor
  · intro cut
    obtain ⟨⟨front, after⟩, outer, cut⟩ := Option.bind_eq_some_iff.mp cut
    obtain ⟨⟨before, part⟩, inner, same⟩ := Option.bind_eq_some_iff.mp cut
    cases same
    obtain ⟨rfl, total⟩ := eq_of_cutAtByte? outer
    obtain ⟨rfl, size⟩ := eq_of_cutAtByte? inner
    exact ⟨before, after, List.append_assoc .., size, by rw [← bytes_append, total]⟩
  · rintro ⟨before, after, rfl, rfl, rfl⟩
    exact slice?_append before part after

/-- There is a slice exactly between two offsets in order that fall on characters of the text. -/
theorem slice?_isSome_iff : (text.slice? ⟨start, stop⟩).isSome ↔
    start ≤ stop ∧ stop ≤ text.bytes ∧ text.IsBoundary start ∧ text.IsBoundary stop := by
  rw [Option.isSome_iff_exists]
  constructor
  · rintro ⟨part, cut⟩
    obtain ⟨before, after, rfl, rfl, rfl⟩ := slice?_eq_some_iff.mp cut
    refine ⟨Nat.le_add_right .., ?_, ⟨before, part ++ after, rfl, rfl⟩,
      ⟨before ++ part, after, (List.append_assoc ..).symm, bytes_append ..⟩⟩
    rw [bytes_append, bytes_append]
    omega
  · rintro ⟨order, -, ⟨before, rest, rfl, rfl⟩, ⟨front, after, whole, rfl⟩⟩
    rcases List.append_eq_append_iff.mp whole with ⟨part, rfl, rfl⟩ | ⟨part, rfl, rfl⟩
    · exact ⟨part, slice?_eq_some_iff.mpr ⟨before, after, rfl, rfl, (bytes_append ..).symm⟩⟩
    · have none : part = [] := by
        by_contra filled
        have size := bytes_pos filled
        rw [bytes_append] at order
        omega
      subst none
      refine ⟨[], slice?_eq_some_iff.mpr ⟨front, rest, ?_, ?_, ?_⟩⟩
      · rw [List.append_nil, List.nil_append]
      · rw [List.append_nil]
      · rw [bytes_nil, Nat.add_zero]

example : slice? "aé".toList ⟨1, 3⟩ = some "é".toList ∧ slice? "aé".toList ⟨1, 2⟩ = none := by decide

/-- A slice that does not start at the start is shorter than the text. -/
theorem length_of_slice? (cut : text.slice? ⟨start, stop⟩ = some part) (later : 0 < start) :
    part.length < text.length := by
  obtain ⟨before, after, rfl, rfl, -⟩ := slice?_eq_some_iff.mp cut
  cases before with
  | nil => exact absurd later (Nat.lt_irrefl 0)
  | cons c before =>
      simp only [List.length_cons, List.length_append]
      omega

theorem slice?_front (front rest : Text) : slice? (front ++ rest) ⟨0, front.bytes⟩ = some front := by
  have cut := slice?_append [] front rest
  rwa [List.nil_append, bytes_nil, Nat.zero_add] at cut

theorem slice?_back (front rest : Text) :
    slice? (front ++ rest) ⟨front.bytes, (front ++ rest).bytes⟩ = some rest := by
  have cut := slice?_append front rest []
  rwa [List.append_nil, ← bytes_append] at cut

/-- What is left of a text behind a front of that many bytes. -/
theorem slice?_behind {front mark : Text} (rest : Text) {width : Nat} (wide : mark.bytes = width) :
    slice? (front ++ (mark ++ rest)) ⟨front.bytes + width, (front ++ (mark ++ rest)).bytes⟩ = some rest := by
  have cut := slice?_back (front ++ mark) rest
  rwa [List.append_assoc, bytes_append, wide] at cut

/-! ### The first character of a kind -/

/-- The offset of the first character that satisfies `p`, the text starting at `offset`. -/
def findFrom (p : Char → Bool) : (offset : Nat) → Text → Option Nat
  | _, [] => none
  | offset, c :: text => if p c then some offset else findFrom p (offset + c.utf8Size) text

/-- The offset of the first character that satisfies `p`. -/
def find? (p : Char → Bool) (text : Text) : Option Nat := findFrom p 0 text

theorem findFrom_eq (p : Char → Bool) (offset : Nat) (text : Text) :
    findFrom p offset text =
      match text.dropWhile (!p ·) with
      | [] => none
      | _ :: _ => some (offset + bytes (text.takeWhile (!p ·))) := by
  induction text generalizing offset with
  | nil => rfl
  | cons c text ih =>
      rw [findFrom]
      cases here : p c with
      | true => simp [here]
      | false =>
          rw [if_neg Bool.false_ne_true, ih, List.dropWhile_cons_of_pos (by simp [here]),
            List.takeWhile_cons_of_pos (by simp [here]), bytes_cons, Nat.add_assoc]

end Text

namespace Bytewise

/-! ### Results without a fault -/

section Given

variable {ε δ α β : Type}

/-- A reader that is not at fault has a result, which may be an error of the text. -/
def given (result : Except ε α) : ExceptT ε Option α := ExceptT.mk (some result)

theorem lift_some (a : α) : (liftM (some a) : ExceptT ε Option α) = given (.ok a) := rfl

theorem given_ok_bind (a : α) (next : α → ExceptT ε Option β) : given (.ok a) >>= next = next a := rfl

/-- A chain of readers without a fault has none. -/
theorem given_bind (x : Except ε α) {next : α → ExceptT ε Option β} {f : α → Except ε β}
    (each : ∀ a, x = .ok a → next a = given (f a)) : given x >>= next = given (x >>= f) := by
  cases x with
  | error e => rfl
  | ok a => exact each a rfl

theorem given_map (f : α → β) (x : Except ε α) : (given x >>= fun a => pure (f a)) = given (x.map f) := by
  cases x <;> rfl

theorem adapt_given (f : ε → δ) (x : Except ε α) : ExceptT.adapt f (given x) = given (x.mapError f) := rfl

/-- A reader without a fault has none on any list. -/
theorem given_mapM {f : α → ExceptT ε Option β} {g : α → Except ε β} (each : ∀ a, f a = given (g a))
    (as : List α) : as.mapM f = given (as.mapM g) := by
  induction as with
  | nil => rfl
  | cons a as ih =>
      rw [List.mapM_cons, List.mapM_cons, each, ih]
      exact given_bind _ fun _ _ => given_bind _ fun _ _ => rfl

end Given

/-! ### Cutting at one character -/

/-- Cut a text in front of its first character that satisfies `p`; without one, at its end. -/
def cutBefore (p : Char → Bool) (text : Text) : Option (Text × Text) := do
  let stop := (text.find? p).getD text.bytes
  return (← text.slice? ⟨0, stop⟩, ← text.slice? ⟨stop, text.bytes⟩)

theorem cutBefore_eq (p : Char → Bool) (text : Text) :
    cutBefore p text = some (text.takeWhile (!p ·), text.dropWhile (!p ·)) := by
  have whole : text.takeWhile (!p ·) ++ text.dropWhile (!p ·) = text := List.takeWhile_append_dropWhile
  have front := Text.slice?_front (text.takeWhile (!p ·)) (text.dropWhile (!p ·))
  have back := Text.slice?_back (text.takeWhile (!p ·)) (text.dropWhile (!p ·))
  have stop : (text.find? p).getD text.bytes = Text.bytes (text.takeWhile (!p ·)) := by
    rw [Text.find?, Text.findFrom_eq]
    split
    · rename_i none
      rw [none, List.append_nil] at whole
      rw [whole]
      rfl
    · exact Nat.zero_add _
  rw [whole] at front back
  rw [cutBefore, stop, front, back]
  rfl

/-- What stands before and after the first `mark`, a character of one byte. -/
def cutAround (mark : Char) (text : Text) : Option (Option (Text × Text)) :=
  match text.find? (· == mark) with
  | none => some none
  | some i => do
    return some (← text.slice? ⟨0, i⟩, ← text.slice? ⟨i + 1, text.bytes⟩)

theorem cutAround_eq {mark : Char} (single : mark.utf8Size = 1) (text : Text) :
    cutAround mark text = some (text.cutAt mark) := by
  cases cut : text.cutAt mark with
  | none =>
      have absent := Text.cutAt_eq_none_iff.mp cut
      have none : text.find? (· == mark) = none := by
        have kept : text.dropWhile (!· == mark) = [] :=
          List.dropWhile_eq_nil_iff.mpr fun c member => by
            have other : c ≠ mark := fun same => absent (same ▸ member)
            simpa using other
        rw [Text.find?, Text.findFrom_eq, kept]
      rw [cutAround, none]
  | some sides =>
      obtain ⟨left, right⟩ := sides
      obtain ⟨rfl, absent⟩ := Text.cutAt_eq_some_iff.mp cut
      have each : ∀ c ∈ left, (!c == mark) = true := fun c member => by
        have other : c ≠ mark := fun same => absent (same ▸ member)
        simpa using other
      have here : (left ++ mark :: right).find? (· == mark) = some left.bytes := by
        rw [Text.find?, Text.findFrom_eq, List.dropWhile_append_of_pos each,
          List.takeWhile_append_of_pos each]
        simp
      have wide : Text.bytes [mark] = 1 := by simp [single]
      have front := Text.slice?_front left (mark :: right)
      have back : (left ++ mark :: right).slice? ⟨left.bytes + 1, Text.bytes (left ++ mark :: right)⟩ =
          some right := Text.slice?_behind right wide
      rw [cutAround, here]
      dsimp only
      rw [front, back]
      rfl

end Bytewise

namespace Text

theorem bytes_ofGlyphs_nil : (ofGlyphs []).bytes = 0 := rfl

theorem bytes_ofGlyphs_append (left right : List Glyph) :
    (ofGlyphs (left ++ right)).bytes = (ofGlyphs left).bytes + (ofGlyphs right).bytes := by
  rw [ofGlyphs_append, bytes_append]

theorem bytes_ofGlyphs_concat (gs : List Glyph) (g : Glyph) :
    (ofGlyphs (gs ++ [g])).bytes = (ofGlyphs gs).bytes + g.char.utf8Size := by
  rw [bytes_ofGlyphs_append, bytes_ofGlyphs_cons, bytes_ofGlyphs_nil, Nat.add_zero]

/-- The offset behind a piece with a mark at its end. -/
theorem bytes_ofGlyphs_cut (done piece : List Glyph) (g : Glyph) :
    (ofGlyphs (done ++ (piece ++ [g]))).bytes =
      (ofGlyphs done).bytes + (ofGlyphs piece).bytes + g.char.utf8Size := by
  rw [bytes_ofGlyphs_append, bytes_ofGlyphs_concat, Nat.add_assoc]

end Text

/-! ### The places of a kind of glyph -/

section Places

variable {p : Glyph → Bool} {offset : Nat} {g : Glyph} {gs : List Glyph}

/-- The characters of the glyphs that satisfy `p`, with their byte offsets; the first glyph stands at
`offset`. -/
def placesOf (p : Glyph → Bool) (offset : Nat) (gs : List Glyph) : List (Nat × Char) :=
  ((placedFrom offset gs).filter (p ·.2)).map fun (i, g) => (i, g.char)

@[simp] theorem placesOf_nil : placesOf p offset [] = [] := rfl

theorem placesOf_cons : placesOf p offset (g :: gs) =
    if p g then (offset, g.char) :: placesOf p (offset + g.char.utf8Size) gs
    else placesOf p (offset + g.char.utf8Size) gs := by
  rw [placesOf, placedFrom, List.filter_cons]
  split <;> rfl

theorem filter_placesOf (p : Glyph → Bool) (q : Char → Bool) (offset : Nat) (gs : List Glyph) :
    (placesOf p offset gs).filter (q ·.2) = placesOf (fun g => p g && q g.char) offset gs := by
  induction gs generalizing offset with
  | nil => rfl
  | cons g gs ih =>
      rw [placesOf_cons, placesOf_cons]
      cases here : p g with
      | false => simpa [here] using ih _
      | true =>
          cases char : q g.char with
          | false => simpa [here, char] using ih _
          | true => simpa [here, char] using ih _

/-- The first place of a kind is where its first glyph stands. -/
theorem head?_placesOf (p : Glyph → Bool) (offset : Nat) (gs : List Glyph) :
    (placesOf p offset gs).head? = ((gs.dropWhile (!p ·)).head?).map fun g =>
      (offset + (Text.ofGlyphs (gs.takeWhile (!p ·))).bytes, g.char) := by
  induction gs generalizing offset with
  | nil => rfl
  | cons g gs ih =>
      rw [placesOf_cons]
      cases here : p g with
      | true => simp [here, Text.bytes_ofGlyphs_nil]
      | false =>
          rw [if_neg Bool.false_ne_true, ih, List.dropWhile_cons_of_pos (by simp [here]),
            List.takeWhile_cons_of_pos (by simp [here]), Text.bytes_ofGlyphs_cons, Nat.add_assoc]

/-- The places in front of the first glyph of a kind. -/
theorem takeWhile_placesOf (p : Glyph → Bool) (q : Char → Bool) (offset : Nat) (gs : List Glyph) :
    (placesOf p offset gs).takeWhile (!q ·.2) =
      placesOf p offset (gs.takeWhile fun g => !(p g && q g.char)) := by
  induction gs generalizing offset with
  | nil => rfl
  | cons g gs ih =>
      rw [placesOf_cons]
      cases here : p g with
      | false =>
          rw [if_neg Bool.false_ne_true, ih, List.takeWhile_cons_of_pos (by simp [here]), placesOf_cons, here,
            if_neg Bool.false_ne_true]
      | true =>
          cases char : q g.char with
          | false =>
              rw [if_pos rfl, List.takeWhile_cons_of_pos (by simp [char]),
                List.takeWhile_cons_of_pos (by simp [char]), placesOf_cons, here, if_pos rfl, ih]
          | true =>
              rw [if_pos rfl, List.takeWhile_cons_of_neg (by simp [char]),
                List.takeWhile_cons_of_neg (by simp [here, char]), placesOf_nil]

end Places

theorem Text.free_eq (text : Text) : text.free = placesOf Glyph.isFree 0 text.glyphs := rfl

/-! ### Counting groups -/

/-- Outside all groups, and no bracket itself. -/
def isTopAt (depth : Nat) (c : Char) : Bool := depth == 0 && !isOpening c && !isClosing c

theorem Glyph.isTop_eq (g : Glyph) : g.isTop = (g.isFree && isTopAt g.depth g.char) := by
  rw [isTop, isTopAt]
  simp only [Bool.and_assoc]

/-- The glyphs know the count of open groups in front of them, when it is `depth` in front of the first. -/
inductive Counted : (depth : Nat) → List Glyph → Prop where
  | nil (depth : Nat) : Counted depth []
  | cons {g : Glyph} {rest : List Glyph} :
      Counted (if g.quoted then g.depth else depthAfter g.depth g.char) rest → Counted g.depth (g :: rest)

theorem counted_glyphsFrom (p : Literal) (depth : Nat) (text : Text) :
    Counted depth (glyphsFrom p depth text) := by
  induction text generalizing p depth with
  | nil => exact .nil depth
  | cons c text ih =>
      have behind := ih (p.step c) (if p.covers c then depth else depthAfter depth c)
      exact @Counted.cons ⟨c, p.covers c, depth⟩ _ behind

theorem counted_glyphs (text : Text) : Counted 0 text.glyphs := counted_glyphsFrom {} 0 text

theorem Counted.takeWhile {depth : Nat} {gs : List Glyph} (counted : Counted depth gs) (p : Glyph → Bool) :
    Counted depth (gs.takeWhile p) := by
  induction counted with
  | nil depth => exact .nil depth
  | @cons g rest _ ih =>
      rw [List.takeWhile_cons]
      split
      · exact .cons ih
      · exact .nil g.depth

/-- The characters outside groups, where `depth` groups are open in front of the first. -/
def topFrom : (depth : Nat) → List (Nat × Char) → List (Nat × Char)
  | _, [] => []
  | depth, (i, c) :: rest =>
    if isTopAt depth c then (i, c) :: topFrom depth rest else topFrom (depthAfter depth c) rest

theorem depthAfter_of_isTopAt {depth : Nat} {c : Char} (top : isTopAt depth c) :
    depthAfter depth c = depth := by
  simp only [isTopAt, Bool.and_eq_true, Bool.not_eq_true'] at top
  rw [depthAfter, top.1.2, top.2]
  rfl

theorem topFrom_placesOf {depth : Nat} {gs : List Glyph} (counted : Counted depth gs) (offset : Nat) :
    topFrom depth (placesOf Glyph.isFree offset gs) = placesOf Glyph.isTop offset gs := by
  induction counted generalizing offset with
  | nil => rfl
  | @cons g rest counted ih =>
      rw [placesOf_cons, placesOf_cons, Glyph.isTop_eq]
      cases quoted : g.quoted with
      | true =>
          rw [quoted] at ih
          simpa [Glyph.isFree, quoted] using ih _
      | false =>
          rw [quoted] at ih
          simp only [Glyph.isFree, quoted, Bool.not_false, if_true, Bool.true_and, topFrom]
          by_cases top : isTopAt g.depth g.char
          · rw [if_pos top, if_pos top, ← ih]
            simp [depthAfter_of_isTopAt top]
          · rw [if_neg top, if_neg top, ← ih]
            simp

namespace Text

/-- The characters outside literals and groups, with their byte offsets. -/
def top (text : Text) : List (Nat × Char) := topFrom 0 text.free

theorem top_eq (text : Text) : text.top = placesOf Glyph.isTop 0 text.glyphs :=
  topFrom_placesOf (counted_glyphs text) 0

/-! ### What has been read -/

/-- A text has been read up to `rest`: `done` has been cut off, and `piece` has been read since. -/
structure Read (text : Text) (done piece rest : List Glyph) : Prop where
  whole : text.glyphs = done ++ (piece ++ rest)

namespace Read

variable {text : Text} {done piece rest more : List Glyph} {g : Glyph}

theorem start (text : Text) : text.Read [] [] text.glyphs := ⟨rfl⟩

theorem next (read : text.Read done piece (g :: rest)) : text.Read done (piece ++ [g]) rest :=
  ⟨by rw [read.whole, List.append_assoc, List.singleton_append]⟩

theorem taken (read : text.Read done [] (more ++ rest)) : text.Read done more rest := ⟨read.whole⟩

/-- Some glyphs are cut off. -/
theorem behind (read : text.Read done [] (more ++ rest)) : text.Read (done ++ more) [] rest :=
  ⟨by rw [read.whole, List.append_assoc]; rfl⟩

/-- The piece is cut off. -/
theorem cut (read : text.Read done piece rest) : text.Read (done ++ piece) [] rest :=
  ⟨by rw [read.whole, List.append_assoc, List.nil_append]⟩

theorem text_eq (read : text.Read done piece rest) :
    text = ofGlyphs done ++ (ofGlyphs piece ++ ofGlyphs rest) := by
  rw [← ofGlyphs_append, ← ofGlyphs_append, ← read.whole, ofGlyphs_glyphs]

theorem slice (read : text.Read done piece rest) :
    text.slice? ⟨(ofGlyphs done).bytes, (ofGlyphs done).bytes + (ofGlyphs piece).bytes⟩ =
      some (ofGlyphs piece) := by
  have cut := slice?_append (ofGlyphs done) (ofGlyphs piece) (ofGlyphs rest)
  rwa [← read.text_eq] at cut

/-- What has not been cut off. -/
theorem slice_rest (read : text.Read done piece rest) :
    text.slice? ⟨(ofGlyphs done).bytes, text.bytes⟩ = some (ofGlyphs (piece ++ rest)) := by
  have cut := slice?_back (ofGlyphs done) (ofGlyphs piece ++ ofGlyphs rest)
  rwa [← read.text_eq, ← ofGlyphs_append] at cut

end Read

end Text

/-! ### Cutting -/

namespace Bytewise

variable {text : Text} {done piece rest : List Glyph}

/-- The slices of a text in front of these characters and behind the last of them, from `start` on. -/
def cutAt (text : Text) : (start : Nat) → List (Nat × Char) → Option (List Text)
  | start, [] => do return [← text.slice? ⟨start, text.bytes⟩]
  | start, (i, c) :: marks => do
    let piece ← text.slice? ⟨start, i⟩
    let pieces ← cutAt text (i + c.utf8Size) marks
    return piece :: pieces

theorem cutAt_placesOf (p : Glyph → Bool) (read : text.Read done piece rest) :
    cutAt text (Text.ofGlyphs done).bytes
        (placesOf p ((Text.ofGlyphs done).bytes + (Text.ofGlyphs piece).bytes) rest) =
      some (((rest.splitOnP p).modifyHead (piece ++ ·)).map Text.ofGlyphs) := by
  induction rest generalizing done piece with
  | nil =>
      have last := read.slice_rest
      rw [placesOf_nil, cutAt, last]
      simp
  | cons g rest ih =>
      rw [placesOf_cons, List.splitOnP_cons_eq_if_modifyHead]
      cases here : p g with
      | false =>
          have further := ih read.next
          rw [Text.bytes_ofGlyphs_concat, ← Nat.add_assoc] at further
          simp only [Bool.false_eq_true, if_false, List.modifyHead_modifyHead]
          refine further.trans ?_
          simp [Function.comp_def]
      | true =>
          have further := ih read.next.cut
          rw [Text.bytes_ofGlyphs_cut, Text.bytes_ofGlyphs_nil, Nat.add_zero] at further
          simp only [if_true, cutAt, read.slice, Option.bind_eq_bind, Option.bind_some, further]
          cases rest.splitOnP p <;> simp

/-- Cutting a text at the places of a kind gives what stands between them. -/
theorem cutAt_eq (p : Glyph → Bool) (text : Text) :
    cutAt text 0 (placesOf p 0 text.glyphs) = some ((text.glyphs.splitOnP p).map Text.ofGlyphs) := by
  refine (cutAt_placesOf p (.start text)).trans ?_
  cases text.glyphs.splitOnP p <;> rfl

end Bytewise

end MissionScript
