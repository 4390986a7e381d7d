import MissionScript.Script.Error
import MissionScript.Text.Glyph

/-!
# Bracket groups

Finding the group that an opening bracket starts, and checking that the groups of a text nest.
Brackets inside string literals do not count. A found group is the text cut into what stands before,
inside and after it, so offsets are lengths of parts of the text and always lie on its characters.
-/

namespace MissionScript

/-- Cut at the first glyph that satisfies `p`. -/
def splitFirst (p : Glyph → Bool) : List Glyph → Option (List Glyph × Glyph × List Glyph)
  | [] => none
  | g :: rest =>
    if p g then some ([], g, rest)
    else (splitFirst p rest).map fun (before, found, after) => (g :: before, found, after)

theorem append_of_splitFirst {p : Glyph → Bool} {glyphs before after : List Glyph} {found : Glyph}
    (split : splitFirst p glyphs = some (before, found, after)) :
    glyphs = before ++ found :: after ∧ p found := by
  induction glyphs generalizing before with
  | nil => simp [splitFirst] at split
  | cons g rest ih =>
    by_cases here : p g
    · simp only [splitFirst, here, if_true, Option.some.injEq, Prod.mk.injEq] at split
      obtain ⟨rfl, rfl, rfl⟩ := split
      exact ⟨rfl, here⟩
    · simp only [splitFirst, here, Bool.false_eq_true, if_false, Option.map_eq_some_iff,
        Prod.exists, Prod.mk.injEq] at split
      obtain ⟨before', found', after', inner, rfl, rfl, rfl⟩ := split
      obtain ⟨joined, holds⟩ := ih inner
      exact ⟨by simp [joined], holds⟩

namespace Bracket

/-- Cut at the first opening bracket of the family at byte `start` or later. -/
def splitOpening (b : Bracket) : (start : Nat) → List Glyph → Option (List Glyph × List Glyph)
  | _, [] => none
  | start, g :: rest =>
    if start == 0 && g.opens b then some ([], rest)
    else (splitOpening b (start - g.char.utf8Size) rest).map fun (before, after) =>
      (g :: before, after)

/-- Cut at the bracket that closes a group, read from inside it with `depth` further groups of the
family open. -/
def splitClosing (b : Bracket) : (depth : Nat) → List Glyph → Option (List Glyph × List Glyph)
  | _, [] => none
  | depth, g :: rest =>
    if g.opens b then
      (splitClosing b (depth + 1) rest).map fun (inside, after) => (g :: inside, after)
    else if g.closes b then
      match depth with
      | 0 => some ([], rest)
      | depth + 1 => (splitClosing b depth rest).map fun (inside, after) => (g :: inside, after)
    else (splitClosing b depth rest).map fun (inside, after) => (g :: inside, after)

theorem append_of_splitOpening {b : Bracket} {start : Nat} {glyphs before after : List Glyph}
    (split : b.splitOpening start glyphs = some (before, after)) :
    ∃ found : Glyph, found.opens b ∧ glyphs = before ++ found :: after := by
  induction glyphs generalizing start before with
  | nil => simp [splitOpening] at split
  | cons g rest ih =>
    by_cases here : (start == 0 && g.opens b) = true
    · simp only [splitOpening, here, if_true, Option.some.injEq, Prod.mk.injEq] at split
      obtain ⟨rfl, rfl⟩ := split
      exact ⟨g, (Bool.and_eq_true_iff.mp here).2, rfl⟩
    · simp only [splitOpening, here, Bool.false_eq_true, if_false, Option.map_eq_some_iff,
        Prod.exists, Prod.mk.injEq] at split
      obtain ⟨before', after', inner, rfl, rfl⟩ := split
      obtain ⟨found, opens, joined⟩ := ih inner
      exact ⟨found, opens, by simp [joined]⟩

theorem append_of_splitClosing {b : Bracket} {depth : Nat} {glyphs inside after : List Glyph}
    (split : b.splitClosing depth glyphs = some (inside, after)) :
    ∃ found : Glyph, found.closes b ∧ glyphs = inside ++ found :: after := by
  induction glyphs generalizing depth inside with
  | nil => simp [splitClosing] at split
  | cons g rest ih =>
    have further {d : Nat}
        (inner : (b.splitClosing d rest).map (fun (i, a) => (g :: i, a)) = some (inside, after)) :
        ∃ found : Glyph, found.closes b ∧ g :: rest = inside ++ found :: after := by
      simp only [Option.map_eq_some_iff, Prod.exists, Prod.mk.injEq] at inner
      obtain ⟨inside', after', inner, rfl, rfl⟩ := inner
      obtain ⟨found, closes, joined⟩ := ih inner
      exact ⟨found, closes, by simp [joined]⟩
    unfold splitClosing at split
    split at split
    · exact further split
    · split at split
      · rename_i closes
        cases depth with
        | zero =>
          simp only [Option.some.injEq, Prod.mk.injEq] at split
          obtain ⟨rfl, rfl⟩ := split
          exact ⟨g, closes, rfl⟩
        | succ depth => exact further split
      · exact further split

end Bracket

/-- A group with its surroundings: the text is `before`, an opening bracket, `inside`, the matching
closing bracket, `after`. -/
structure Group where
  before : List Glyph
  inside : List Glyph
  after : List Glyph
deriving Repr

namespace Group

/-- Byte offset of the opening bracket. -/
def openOffset (g : Group) : Nat := (Text.ofGlyphs g.before).bytes

/-- Byte offset of the closing bracket. -/
def closeOffset (g : Group) : Nat := g.openOffset + 1 + (Text.ofGlyphs g.inside).bytes

/-- The group runs from the first to the last character of the text that is not blank. -/
def isOuter (g : Group) : Bool :=
  (Text.ofGlyphs g.before).isBlankText && (Text.ofGlyphs g.after).isBlankText

/-- The characters between the brackets. -/
def content (g : Group) : Text := Text.ofGlyphs g.inside

end Group

/-- Result of looking for a group. -/
inductive Scan where
  /-- No opening bracket of the family stands at the start offset or later. -/
  | notFound
  | matched (group : Group)
  /-- The group that is opened after `before` is never closed. -/
  | unmatched (before : List Glyph)
deriving Repr

namespace Scan

def group? : Scan → Option Group
  | matched group => some group
  | _ => none

end Scan

namespace Bracket

/-- The first group of the family in the glyphs of a text whose opening bracket stands at byte
`start` or later. -/
def scanGlyphs (b : Bracket) (start : Nat) (glyphs : List Glyph) : Scan :=
  match b.splitOpening start glyphs with
  | none => .notFound
  | some (before, rest) =>
    match b.splitClosing 0 rest with
    | none => .unmatched before
    | some (inside, after) => .matched ⟨before, inside, after⟩

/-- The first group of the family whose opening bracket stands at byte `start` or later. -/
def scan (b : Bracket) (text : Text) (start : Nat) : Scan := b.scanGlyphs start text.glyphs

theorem length_of_scanGlyphs {b : Bracket} {start : Nat} {glyphs : List Glyph} {group : Group}
    (found : b.scanGlyphs start glyphs = .matched group) :
    group.before.length + group.inside.length + group.after.length + 2 = glyphs.length := by
  unfold scanGlyphs at found
  split at found
  · cases found
  · rename_i before rest opening
    split at found
    · cases found
    · rename_i inside after closing
      cases found
      obtain ⟨_, _, rfl⟩ := append_of_splitOpening opening
      obtain ⟨_, _, rfl⟩ := append_of_splitClosing closing
      simp only [List.length_append, List.length_cons]
      omega

theorem length_content_of_scan {b : Bracket} {text : Text} {start : Nat} {group : Group}
    (found : b.scan text start = .matched group) : group.content.length < text.length := by
  have := length_of_scanGlyphs found
  simp only [Text.length_glyphs] at this
  simp only [Group.content, Text.length_ofGlyphs]
  omega

/-- The contents of the groups of the family that are not inside another one, in order. Nothing if
the last of them is never closed. -/
def outermost? (b : Bracket) (glyphs : List Glyph) : Option (List Text) :=
  match _found : b.scanGlyphs 0 glyphs with
  | .notFound => some []
  | .unmatched _ => none
  | .matched group => (b.outermost? group.after).map (group.content.trim :: ·)
termination_by glyphs.length
decreasing_by
  have := length_of_scanGlyphs _found
  omega

end Bracket

/-- What is wrong with the nesting of the glyphs that follow, with the families in `opened` open,
innermost first. -/
def nestingFault : (opened : List Bracket) → List Glyph → Option ParseCause
  | [], [] => none
  | _ :: _, [] => some .unmatchedBracket
  | opened, g :: rest =>
    if g.quoted then nestingFault opened rest
    else match Bracket.ofOpening? g.char, Bracket.ofClosing? g.char with
      | some b, _ => nestingFault (b :: opened) rest
      | none, none => nestingFault opened rest
      | none, some b =>
        match opened with
        | [] => some .unbalancedBracket
        | innermost :: others =>
          if innermost = b then nestingFault others rest else some .unbalancedBracket

/-- Check that the groups of all three families nest. -/
def checkBalance (text : Text) : Except ParseError Unit :=
  match nestingFault [] text.glyphs with
  | none => .ok ()
  | some cause => .error { cause, text }

end MissionScript
