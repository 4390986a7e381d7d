import MissionScript.Command.Basic
import MissionScript.Proofs.Renaming.Arguments
import MissionScript.Proofs.Renaming.Names

/-!
# Renaming and results

The commands that report to a solver keep some of their text as the name of the result. A renamed
objective is called what its operand is displayed as, so its text has to be written that way.
-/

namespace MissionScript

open Lettered

variable {ρ : Renaming} {s t : Text}

theorem splitSolverCall_renamed {x : Text × Text} (read : splitSolverCall s = .ok x)
    (related : Renamed ρ false s t) :
    ∃ argument, splitSolverCall t = .ok (ρ.word false x.1, argument) ∧
      Renamed ρ false x.2 argument := by
  have trims := related.trim
  unfold splitSolverCall at read ⊢
  dsimp only at read ⊢
  rw [trims.any_eq (betweenWords_contains (by decide))]
  split at read
  · cases read
  rename_i plain
  rw [if_neg plain]
  obtain ⟨_, balanced, read⟩ := Outcome.bind_eq_ok_iff.mp read
  obtain ⟨pieces, cut, read⟩ := Outcome.bind_eq_ok_iff.mp read
  rw [Outcome.mapError_eq_ok_iff] at balanced cut
  have balanced' := trims.checkBalance_ok balanced
  obtain ⟨pieces', cut', both⟩ := trims.decompose_ok cut
  split at read
  case h_2 => cases read
  rename_i solver group
  obtain ⟨solver', _, first, more, rfl⟩ := List.forall₂_cons_left_iff.mp both
  obtain ⟨group', _, second, empty, rfl⟩ := List.forall₂_cons_left_iff.mp more
  cases empty
  split at read
  · cases read
  rename_i named
  rw [Bool.not_eq_true, Bool.not_eq_false'] at named
  have solves : solver' = ρ.word false solver := first.eq_word_of_isIdentifier named
  have named' : Text.isIdentifier solver' := solves ▸ Renaming.isIdentifier_word named
  obtain ⟨arguments, inner, read⟩ := Outcome.bind_eq_ok_iff.mp read
  rw [Outcome.mapError_eq_ok_iff] at inner
  obtain ⟨arguments', inner', related'⟩ :=
    second.separateGroup (separates_isDelimiter (by decide) (by decide)) inner
  split at read
  case h_2 => cases read
  case h_3 => cases read
  rename_i argument
  cases read
  obtain ⟨argument', _, last, empty, rfl⟩ := List.forall₂_cons_left_iff.mp related'
  cases empty
  refine ⟨argument', ?_, last⟩
  refine Outcome.bind_eq_ok_iff.mpr ⟨_, Outcome.mapError_eq_ok_iff.mpr balanced', ?_⟩
  refine Outcome.bind_eq_ok_iff.mpr ⟨_, Outcome.mapError_eq_ok_iff.mpr cut', ?_⟩
  dsimp only
  rw [named', if_neg (by simp), ← solves]
  exact Outcome.bind_eq_ok_iff.mpr ⟨_, Outcome.mapError_eq_ok_iff.mpr inner', rfl⟩

/-- The name of the result is what the renamed operand is displayed as, if the operand is renamed. -/
def RenamableName (ρ : Renaming) (operand : Operand) (name : Text) : Prop :=
  ρ.old ∈ operand.names → ρ.text name = (operand.rename ρ.old ρ.new).display

/-- The operand and its name after a renaming. -/
theorem rename_named {operand : Operand} {name name' : Text} (read : Operand.parse name = .ok operand)
    (renamable : RenamableName ρ operand name) (related : Renamed ρ false name name') :
    (if operand.names.contains ρ.old then operand.rename ρ.old ρ.new else operand) =
        operand.rename ρ.old ρ.new ∧
      (if operand.names.contains ρ.old then (operand.rename ρ.old ρ.new).display else name) =
        name' := by
  by_cases member : ρ.old ∈ operand.names
  · have contained := List.contains_iff_mem.mpr member
    rw [if_pos contained, if_pos contained, ← renamable member, related.eq_text]
    exact ⟨rfl, rfl⟩
  · have absent : ¬ operand.names.contains ρ.old := fun inside =>
      member (List.contains_iff_mem.mp inside)
    rw [if_neg absent, if_neg absent, Operand.rename_of_not_mem member,
      (Operand.parse_renamed read related).2 member]
    exact ⟨rfl, rfl⟩

theorem Objective.eq_of_rename? {old new : Text} {o o' : Objective}
    (renamed : o.rename? .any old new = some o') :
    o' = { o with
      solver := if o.solver = old then new else o.solver
      name := if o.operand.names.contains old then (o.operand.rename old new).display else o.name
      operand := if o.operand.names.contains old then o.operand.rename old new else o.operand } := by
  have any : (ObjectType.any == .any || ObjectType.any == .solver) = true := rfl
  have operands : (ObjectType.any != .solver) = true := rfl
  simp only [rename?, any, operands, Bool.true_and, beq_iff_eq] at renamed
  obtain ⟨-, made⟩ := Option.ite_none_right_eq_some.mp renamed
  cases made
  cases o.operand.names.contains old with
  | false => rfl
  | true => rfl

theorem Objective.parse_renamed {o o' : Objective} (read : Objective.parse s = .ok o)
    (renamable : RenamableName ρ o.operand o.name) (related : Renamed ρ false s t)
    (renamed : o.rename? .any ρ.old ρ.new = some o') : Objective.parse t = .ok o' := by
  unfold Objective.parse at read ⊢
  obtain ⟨⟨solver, name⟩, cut, read⟩ := Outcome.bind_eq_ok_iff.mp read
  obtain ⟨name', cut', inside⟩ := splitSolverCall_renamed cut related
  obtain ⟨operand, readOperand, read⟩ := Outcome.bind_eq_ok_iff.mp read
  rw [Outcome.mapError_eq_ok_iff] at readOperand
  refine Outcome.bind_eq_ok_iff.mpr ⟨_, cut', ?_⟩
  have readOperand' := (Operand.parse_renamed readOperand inside).1
  refine Outcome.bind_eq_ok_iff.mpr ⟨_, Outcome.mapError_eq_ok_iff.mpr readOperand', ?_⟩
  split at read
  · cases read
  rename_i named
  rw [Operand.isNumber_rename, if_neg named]
  cases read
  have ⟨sameOperand, sameName⟩ := rename_named readOperand renamable inside
  rw [Objective.eq_of_rename? renamed, sameOperand, sameName, ← ρ.word_eq]
  rfl

/-! ### Constraints -/

/-- The next free character is the same mark in both, or it is in neither. -/
theorem Renamed.followed_eq {afterDot : Bool} {gs gt : List Glyph}
    (related : Renamed ρ afterDot gs gt) {mark : Char} (between : isWordChar mark = false) :
    (gt.find? Glyph.isFree).any (·.char == mark) = (gs.find? Glyph.isFree).any (·.char == mark) := by
  induction related with
  | nil => rfl
  | mark outside rest ih =>
      rw [List.find?_cons, List.find?_cons]
      split
      · rfl
      · exact ih
  | word g filled letters maximal rest ih =>
      have passed {word : Text} (filled : word ≠ []) (letters : ∀ c ∈ word, isWordChar c)
          (gs : List Glyph) :
          ((writeWord g word ++ gs).find? Glyph.isFree).any (·.char == mark) =
            (!g.isFree && (gs.find? Glyph.isFree).any (·.char == mark)) := by
        cases free : g.isFree with
        | true =>
            obtain ⟨c, word, rfl⟩ := List.exists_cons_of_ne_nil filled
            have other : (c == mark) = false := by
              rw [beq_eq_false_iff_ne]
              rintro rfl
              rw [letters c (List.mem_cons_self ..)] at between
              cases between
            change (List.find? Glyph.isFree (write g c :: _)).any _ = _
            rw [List.find?_cons_of_pos (show (write g c).isFree from free)]
            exact other
        | false =>
            have none : (writeWord g word).find? Glyph.isFree = none := by
              rw [List.find?_eq_none]
              intro h member
              obtain ⟨c, -, rfl⟩ := List.mem_map.mp member
              exact Bool.eq_false_iff.mp free
            rw [List.find?_append, none]
            rfl
      rw [passed filled letters, passed (Renaming.word_ne_nil filled)
        (Renaming.letters_word letters), ih]

/-- The glyph behind a free one is no dot and not in a word if the next free one is `=`. -/
theorem Renamed.drop_followed {g : Glyph} {gs gt : List Glyph} (related : Renamed ρ false gs gt)
    (free : g.isFree) (opens : LiteralsOpen (g :: gs))
    (followed : (gs.find? Glyph.isFree).any (·.char == '=')) :
    Renamed ρ false (gs.drop 1) (gt.drop 1) := by
  have marked {h : Glyph} {rest : List Glyph} (opens : LiteralsOpen (g :: h :: rest))
      (followed : ((h :: rest).find? Glyph.isFree).any (·.char == '=')) :
      h.char = '=' ∨ h.char = '\'' := by
    cases quoted : h.quoted with
    | true => exact .inr ((List.isChain_cons_cons.mp opens).1 free quoted)
    | false =>
        have outside : h.isFree = true := by rw [Glyph.isFree, quoted]; rfl
        rw [List.find?_cons_of_pos outside] at followed
        exact .inl (beq_iff_eq.mp followed)
  cases related with
  | nil => exact .nil
  | mark between rest =>
      rename_i h gs gt
      have plain : (letter h == '.') = false := by
        rw [beq_eq_false_iff_ne]
        intro dot
        rcases marked opens followed with equal | quote
        · rw [show h.char = '.' from dot] at equal
          cases equal
        · rw [show h.char = '.' from dot] at quote
          cases quote
      rw [plain] at rest
      exact rest
  | word h filled letters =>
      obtain ⟨c, word, rfl⟩ := List.exists_cons_of_ne_nil filled
      have word := letters c (List.mem_cons_self ..)
      rcases marked (h := write h c) opens followed with equal | quote
      · rw [show c = '=' from equal] at word
        cases word
      · rw [show c = '\'' from quote] at word
        cases word

/-- The pieces around a relation to be satisfied. -/
structure ConstraintAlike (ρ : Renaming) (afterDot : Bool) (gs : List Glyph)
    (x y : Text × ConstraintKind × Text) : Prop where
  left : Renamed ρ afterDot x.1 y.1
  starts : startsWord gs = false → startsWord x.1 = false
  kind : x.2.1 = y.2.1
  right : Renamed ρ false x.2.2 y.2.2

/-- The next free glyph is `=`. -/
def followed (rest : List Glyph) : Bool := (rest.find? Glyph.isFree).any (·.char == '=')

section Equations

variable {whole : Text} {g : Glyph} {rest : List Glyph}

theorem splitConstraint_less (free : g.isFree) (less : g.char = '<') :
    splitConstraint whole (g :: rest) =
      if followed rest then .ok ([], .lessOrEqual, Text.ofGlyphs (rest.drop 1))
      else .error (.strictInequality whole) := by
  rw [splitConstraint]
  simp [free, less, followed]

theorem splitConstraint_greater (free : g.isFree) (greater : g.char = '>') :
    splitConstraint whole (g :: rest) =
      if followed rest then .ok ([], .greaterOrEqual, Text.ofGlyphs (rest.drop 1))
      else .error (.strictInequality whole) := by
  rw [splitConstraint]
  simp [free, greater, followed]

theorem splitConstraint_equal (free : g.isFree) (equal : g.char = '=') :
    splitConstraint whole (g :: rest) =
      if followed rest then .ok ([], .equality, Text.ofGlyphs (rest.drop 1))
      else .ok ([], .equality, Text.ofGlyphs rest) := by
  cases next : followed rest with
  | false =>
      have single : (rest.find? Glyph.isFree).any (·.char == '=') = false := next
      simp [splitConstraint, free, equal, single]
  | true =>
      have double : (rest.find? Glyph.isFree).any (·.char == '=') = true := next
      simp [splitConstraint, free, equal, double]

theorem splitConstraint_other (other : (g.isFree && ['<', '>', '='].contains g.char) = false) :
    splitConstraint whole (g :: rest) =
      (splitConstraint whole rest).map fun x => (g.char :: x.1, x.2) := by
  rw [splitConstraint]
  cases free : g.isFree with
  | false => rfl
  | true =>
      rw [free, Bool.true_and, Bool.eq_false_iff, ne_eq, List.contains_iff_mem] at other
      simp only [List.mem_cons, List.not_mem_nil, or_false, not_or] at other
      simp [other]

end Equations

theorem splitConstraint_run (whole : Text) {run : List Glyph} (letters : ∀ g ∈ run, inWord g)
    (gs : List Glyph) :
    splitConstraint whole (run ++ gs) = (splitConstraint whole gs).map
      fun x => (Text.ofGlyphs run ++ x.1, x.2) := by
  induction run with
  | nil => cases h : splitConstraint whole gs <;> simp [Text.ofGlyphs, h, Except.map]
  | cons g run ih =>
      have word : inWord g.char := letters g (List.mem_cons_self ..)
      have other : ['<', '>', '='].contains g.char = false :=
        betweenWords_contains (by decide) g.char word
      rw [List.cons_append, splitConstraint_other (by rw [other, Bool.and_false]),
        ih fun h member => letters h (List.mem_cons_of_mem _ member)]
      cases splitConstraint whole gs with
      | error => rfl
      | ok => rfl

/-- A text is cut at the same comparison sign as before. -/
theorem Renamed.splitConstraint_marked {afterDot : Bool} {g : Glyph} {gs gt : List Glyph}
    {whole whole' : Text} (rest : Renamed ρ (letter g == '.') gs gt) (opens : LiteralsOpen (g :: gs))
    (free : g.isFree) (among : g.char ∈ ['<', '>', '=']) {x : Text × ConstraintKind × Text}
    (cut : splitConstraint whole (g :: gs) = .ok x) :
    ∃ y, MissionScript.splitConstraint whole' (g :: gt) = .ok y ∧
      ConstraintAlike ρ afterDot (g :: gs) x y := by
  have following : Renamed ρ false gs gt := by
    have plain : (letter g == '.') = false := by
      rw [beq_eq_false_iff_ne]
      intro dot
      rw [show g.char = '.' from dot] at among
      revert among
      decide
    rwa [plain] at rest
  have next : followed gt = followed gs := rest.followed_eq rfl
  have behind (is : followed gs = true) := (following.drop_followed free opens is).ofGlyphs
  simp only [List.mem_cons, List.not_mem_nil, or_false] at among
  rcases among with less | greater | equal
  · rw [splitConstraint_less free less] at cut ⊢
    rw [next]
    split at cut
    · rename_i is
      cases cut
      exact ⟨_, if_pos is, .nil, fun _ => rfl, rfl, behind is⟩
    · cases cut
  · rw [splitConstraint_greater free greater] at cut ⊢
    rw [next]
    split at cut
    · rename_i is
      cases cut
      exact ⟨_, if_pos is, .nil, fun _ => rfl, rfl, behind is⟩
    · cases cut
  · rw [splitConstraint_equal free equal] at cut ⊢
    rw [next]
    split at cut
    · rename_i is
      cases cut
      exact ⟨_, if_pos is, .nil, fun _ => rfl, rfl, behind is⟩
    · rename_i is
      cases cut
      exact ⟨_, if_neg is, .nil, fun _ => rfl, rfl, following.ofGlyphs⟩

theorem Renamed.splitConstraint {afterDot : Bool} {gs gt : List Glyph} {whole whole' : Text}
    (related : Renamed ρ afterDot gs gt) (opens : LiteralsOpen gs)
    {x : Text × ConstraintKind × Text} (cut : splitConstraint whole gs = .ok x) :
    ∃ y, MissionScript.splitConstraint whole' gt = .ok y ∧ ConstraintAlike ρ afterDot gs x y := by
  induction related generalizing x with
  | nil => cases cut
  | mark between rest ih =>
      rename_i afterDot g gs gt
      by_cases marked : (g.isFree && ['<', '>', '='].contains g.char) = true
      · obtain ⟨free, among⟩ := Bool.and_eq_true_iff.mp marked
        exact rest.splitConstraint_marked opens free (List.contains_iff_mem.mp among) cut
      · rw [Bool.not_eq_true] at marked
        rw [splitConstraint_other marked] at cut ⊢
        obtain ⟨y, inner, rfl⟩ := Outcome.map_eq_ok_iff.mp cut
        obtain ⟨z, inner', alike⟩ := ih opens.tail inner
        exact ⟨_, Outcome.map_eq_ok_iff.mpr ⟨z, inner', rfl⟩, .mark between alike.left,
          fun _ => between, alike.kind, alike.right⟩
  | word g filled letters maximal rest ih =>
      rename_i afterDot gs gt word
      rw [splitConstraint_run _ fun h => inWord_of_mem_writeWord letters] at cut
      rw [splitConstraint_run _ fun h =>
        inWord_of_mem_writeWord (Renaming.letters_word letters)]
      obtain ⟨y, inner, rfl⟩ := Outcome.map_eq_ok_iff.mp cut
      have further : LiteralsOpen gs := opens.right_of_append
      obtain ⟨z, inner', alike⟩ := ih further inner
      refine ⟨_, Outcome.map_eq_ok_iff.mpr ⟨z, inner', rfl⟩, ?_, fun outside => ?_, alike.kind,
        alike.right⟩
      · rw [ofGlyphs_writeWord, ofGlyphs_writeWord]
        exact .word g.char filled letters (alike.starts maximal) alike.left
      · rw [startsWord_writeWord filled letters] at outside
        cases outside

/-- A bound and its text after a renaming. -/
theorem rename_bound {bound : Expression} {name name' : Text} (read : Expression.parse name = .ok bound)
    (renamable : bound.Renamable ρ) (related : Renamed ρ false name name') :
    (if bound.names.contains ρ.old then bound.rename ρ.old ρ.new else bound) =
        bound.rename ρ.old ρ.new ∧
      (if bound.names.contains ρ.old then ρ.text name else name) = name' := by
  by_cases member : ρ.old ∈ bound.names
  · have contained := List.contains_iff_mem.mpr member
    rw [if_pos contained, if_pos contained, related.eq_text]
    exact ⟨rfl, rfl⟩
  · have absent : ¬ bound.names.contains ρ.old := fun inside =>
      member (List.contains_iff_mem.mp inside)
    rw [if_neg absent, if_neg absent, Expression.rename_of_not_mem member,
      (Expression.parse_renamed read renamable related).2 member]
    exact ⟨rfl, rfl⟩

/-- The constrained value is called what it is displayed as, and the bound can be renamed. -/
structure Constraint.Renamable (ρ : Renaming) (c : Constraint) : Prop where
  name : RenamableName ρ c.operand c.name
  bound : c.bound.Renamable ρ

theorem Constraint.eq_of_rename? {old new : Text} {c c' : Constraint}
    (renamed : c.rename? .any old new = some c') :
    c' = { c with
      solver := if c.solver = old then new else c.solver
      name := if c.operand.names.contains old then (c.operand.rename old new).display else c.name
      operand := if c.operand.names.contains old then c.operand.rename old new else c.operand
      boundName := if c.bound.names.contains old then Text.replaceWord old new c.boundName
        else c.boundName
      bound := if c.bound.names.contains old then c.bound.rename old new else c.bound } := by
  have any : (ObjectType.any == .any || ObjectType.any == .solver) = true := rfl
  have operands : (ObjectType.any != .solver) = true := rfl
  simp only [rename?, any, operands, Bool.true_and, beq_iff_eq] at renamed
  obtain ⟨-, made⟩ := Option.ite_none_right_eq_some.mp renamed
  cases made
  cases c.operand.names.contains old with
  | false => rfl
  | true => rfl

theorem Constraint.parse_renamed {c c' : Constraint} (read : Constraint.parse s = .ok c)
    (renamable : c.Renamable ρ) (related : Renamed ρ false s t)
    (renamed : c.rename? .any ρ.old ρ.new = some c') : Constraint.parse t = .ok c' := by
  unfold Constraint.parse at read ⊢
  obtain ⟨⟨solver, text⟩, cut, read⟩ := Outcome.bind_eq_ok_iff.mp read
  obtain ⟨text', cut', inside⟩ := splitSolverCall_renamed cut related
  obtain ⟨⟨left, kind, right⟩, halves, read⟩ := Outcome.bind_eq_ok_iff.mp read
  obtain ⟨⟨left', _, right'⟩, halves', before, -, rfl, after⟩ := 
    inside.glyphs.splitConstraint (literalsOpen_glyphsFrom ..) halves
  refine Outcome.bind_eq_ok_iff.mpr ⟨_, cut', ?_⟩
  refine Outcome.bind_eq_ok_iff.mpr ⟨_, halves', ?_⟩
  dsimp only at read before after ⊢
  rw [before.trim.isEmpty_eq, after.trim.isEmpty_eq]
  split at read
  · cases read
  rename_i complete
  rw [if_neg complete]
  obtain ⟨operand, readOperand, read⟩ := Outcome.bind_eq_ok_iff.mp read
  rw [Outcome.mapError_eq_ok_iff] at readOperand
  have readOperand' := (Operand.parse_renamed readOperand before.trim).1
  refine Outcome.bind_eq_ok_iff.mpr ⟨_, Outcome.mapError_eq_ok_iff.mpr readOperand', ?_⟩
  split at read
  · cases read
  rename_i named
  rw [Operand.isNumber_rename, if_neg named]
  obtain ⟨bound, readBound, read⟩ := Outcome.bind_eq_ok_iff.mp read
  rw [Outcome.mapError_eq_ok_iff] at readBound
  cases read
  have readBound' := (Expression.parse_renamed readBound renamable.bound after.trim).1
  refine Outcome.bind_eq_ok_iff.mpr ⟨_, Outcome.mapError_eq_ok_iff.mpr readBound', ?_⟩
  have ⟨sameOperand, sameName⟩ := rename_named readOperand renamable.name before.trim
  have ⟨sameBound, sameText⟩ := rename_bound readBound renamable.bound after.trim
  rw [Constraint.eq_of_rename? renamed]
  dsimp only
  rw [sameOperand, sameName, sameBound, ← ρ.word_eq]
  change _ = Except.ok (Constraint.mk _ _ _ _ (if _ then ρ.text right.trim else _) _ _)
  rw [sameText]
  rfl

end MissionScript
