import MissionScript.Proofs.Sequence.Loops
import MissionScript.Proofs.Sequence.Ownership
import MissionScript.Sequence.Listing

/-!
# Searches and listings

The search for a command that refers to an object and the listing of a sequence go through the same
commands in the same order as the list of all commands. The indentation of a line tells how many commands
its command is nested in.
-/

namespace MissionScript

/-- Whether a command refers to an object. A command that cannot hold objects of the type does not. -/
def Command.refersTo (c : Command) (objectType : ObjectType) (name : Text) : Bool :=
  match c.names objectType with
  | .ok names => names.contains name
  | .error _ => false

namespace Arena

variable {a : Arena} {h other outer head next : Handle} {node : Node} {limit depth : Nat}

/-- How many commands a command is in the branches of. -/
def enclosures (a : Arena) (h : Handle) : Nat := a.handles.countP (a.encloses · h)

/-- The line of a command in a listing. -/
def lineOf (a : Arena) (style : ListingStyle) (h : Handle) : Text :=
  match a.node? h with
  | none => []
  | some node => style.line { depth := a.enclosures h, handle := h, node }

/-! ## Depth -/

section

variable (sound : a.linkage.Sound)

include sound

theorem encloses_iff : a.encloses outer h ↔ a.Nested outer h := by
  rw [encloses, Bool.and_eq_true, bne_iff_ne, List.contains_iff_mem, mem_subtree_iff_nested sound]
  constructor
  · rintro ⟨different, -, same | nested⟩
    · exact absurd same.symm different
    · exact nested
  · intro nested
    refine ⟨fun same => not_nested_self sound h (same ▸ nested), ?_, .inr nested⟩
    by_contra stale
    exact not_nested_of_stale stale nested

/-- What follows a command is as deep. -/
theorem enclosures_next (follows : a.next? h = some next) : a.enclosures next = a.enclosures h := by
  refine List.countP_congr fun outer _ => ?_
  rw [encloses_iff sound, encloses_iff sound, nested_next_iff sound follows]

/-- The first command of a branch is one deeper than its owner. -/
theorem enclosures_head {branch : Nat} (first : a.child? h branch = some head) :
    a.enclosures head = a.enclosures h + 1 := by
  have leads : a.linkage.target (.inside h branch) = some head := first
  have holds : a.Holds h head := (holds_head_iff sound first).mpr rfl
  have split : a.handles.Perm (h :: a.handles.erase h) :=
    List.perm_cons_erase (mem_handles.mpr (sound.live leads).1)
  have own : ¬ a.encloses h h := fun encloses => not_nested_self sound h ((encloses_iff sound).mp encloses)
  have whole : a.encloses h head := (encloses_iff sound).mpr (.single holds)
  rw [enclosures, enclosures, split.countP_eq, split.countP_eq, List.countP_cons_of_pos (by exact whole),
    List.countP_cons_of_neg (by exact own)]
  refine congrArg (· + 1) (List.countP_congr fun outer member => ?_)
  have different : outer ≠ h := (nodup_handles.mem_erase_iff.mp member).1
  rw [encloses_iff sound, encloses_iff sound, holds.nested_iff sound, or_iff_right different]

/-- A root is in no branch. -/
theorem enclosures_root (root : a.IsRoot h) : a.enclosures h = 0 := by
  refine List.countP_eq_zero.mpr fun outer _ encloses => ?_
  obtain ⟨owner, -, branch, member⟩ :=
    Relation.TransGen.tail'_iff.mp ((encloses_iff sound).mp encloses)
  cases start : a.child? owner branch with
  | none =>
      rw [start, chain_none] at member
      cases member
  | some first =>
      rw [start] at member
      rcases exists_link_of_mem_follow member with rfl | ⟨last, -, link⟩
      · exact root.outside owner branch start
      · exact root.unowned sound (.after last) link

/-- A walk that starts at the depth of a command meets every command at its depth. -/
theorem depth_of_mem_walkFrom {enters : Node → Bool} {visit : Visit}
    (member : visit ∈ a.walkFrom enters limit (a.enclosures h) h) :
    visit.depth = a.enclosures visit.handle ∧ a.node? visit.handle = some visit.node := by
  induction limit generalizing h with
  | zero => cases member
  | succ limit ih =>
      rw [walkFrom] at member
      cases found : a.node? h with
      | none =>
          rw [found] at member
          cases member
      | some node =>
          rw [found] at member
          simp only [List.mem_append, List.mem_cons] at member
          rcases member with (rfl | inside) | behind
          · exact ⟨rfl, found⟩
          · split at inside
            · obtain ⟨head, isHead, inside⟩ := List.mem_flatMap.mp inside
              obtain ⟨branch, first⟩ := (child?_eq_some_iff found).mpr isHead
              rw [← enclosures_head sound first] at inside
              exact ih inside
            · cases inside
          · obtain ⟨next, isNext, behind⟩ := List.mem_flatMap.mp behind
            have follows : a.next? h = some next := by
              rw [next?, found]
              exact Option.mem_toList.mp isNext
            rw [← enclosures_next sound follows] at behind
            exact ih behind

end

/-! ## Listings -/

/-- A walk into the commands that own branches passes over nothing. -/
theorem walkFrom_entersOwners (branches : a.BranchesOwned) (limit depth : Nat) (h : Handle) :
    a.walkFrom entersOwners limit depth h = a.walkFrom (fun _ => true) limit depth h := by
  induction limit generalizing depth h with
  | zero => rfl
  | succ limit ih =>
      rw [walkFrom, walkFrom]
      cases found : a.node? h with
      | none => rfl
      | some node =>
          have same (depth : Nat) : a.walkFrom entersOwners limit depth =
              a.walkFrom (fun _ => true) limit depth := funext (ih depth)
          dsimp only
          rw [same, same]
          by_cases enters : entersOwners node
          · rw [if_pos enters, if_pos rfl]
          · rw [if_neg enters, if_pos rfl, heads_of_not_entered branches found enters]
            rfl

theorem listing_eq (wf : a.WellFormed) (root : a.IsRoot h) (style : ListingStyle) :
    a.listing style h = listingHeader ++ (a.commandsFrom h).flatMap (a.lineOf style) ++ ['\n'] := by
  have top := enclosures_root wf.sound root
  have lines : (a.walk entersOwners h).flatMap style.line =
      (a.commandsFrom h).flatMap (a.lineOf style) := by
    rw [commandsFrom, List.flatMap_map, walk, walk, walkFrom_entersOwners wf.branches]
    refine List.flatMap_congr fun visit member => ?_
    rw [← top] at member
    obtain ⟨depth, found⟩ := depth_of_mem_walkFrom wf.sound member
    rw [lineOf, found, ← depth]
  rw [listing, lines]

/-! ## Searches -/

/-- A search that looks everywhere finds the first answer in the order of a walk. -/
theorem searchFrom_eq_findSome? {α : Type} {visit : Handle → Option α}
    (blind : ∀ h, a.node? h = none → visit h = none) (limit depth : Nat) (owner h : Handle) :
    a.searchFrom (fun _ => true) (fun _ => visit) limit owner h =
      ((a.walkFrom (fun _ => true) limit depth h).map (·.handle)).findSome? visit := by
  have inside {handles : List Handle} {search : Handle → Option α} {walk : Handle → List Visit}
      (each : ∀ h, search h = ((walk h).map (·.handle)).findSome? visit) :
      ((handles.flatMap walk).map (·.handle)).findSome? visit = handles.findSome? search := by
    rw [List.map_flatMap, ← List.head?_filterMap, List.filterMap_flatMap, List.head?_flatMap]
    simp only [List.head?_filterMap, ← each]
  induction limit generalizing owner depth h with
  | zero => rfl
  | succ limit ih =>
      rw [searchFrom, walkFrom]
      cases found : a.node? h with
      | none =>
          rw [blind h found]
          rfl
      | some node =>
          simp only [List.map_append, List.map_cons, List.findSome?_append, List.findSome?_cons, if_true]
          rw [inside (ih (depth + 1) h), inside (ih depth owner)]
          cases visit h with
          | some answer => rfl
          | none =>
              cases node.heads.findSome? (a.searchFrom (fun _ => true) (fun _ => visit) limit h) with
              | some answer => rfl
              | none => cases node.next <;> simp

theorem find_eq (sound : a.linkage.Sound) (h : Handle) (objectType : ObjectType) (name : Text) :
    a.find h objectType name = (((a.commandsFrom h).filterMap a.command?).find?
      (·.refersTo objectType name)).map (·.typeName) := by
  have blind (h : Handle) (absent : a.node? h = none) : a.refersTo objectType name h = none := by
    rw [refersTo, command?, absent]
    rfl
  have whole : a.walkFrom (fun _ => true) (a.slots.size + 1) 0 h = a.walk (fun _ => true) h :=
    walkFrom_succ sound (a.card_below_le h)
  have answer (h : Handle) : a.refersTo objectType name h =
      (a.command? h).bind fun c => if c.refersTo objectType name then some c.typeName else none := by
    rw [refersTo]
    congr 1
    funext c
    rw [Command.refersTo]
    cases c.names objectType <;> rfl
  rw [find, searchFrom_eq_findSome? blind _ 0, whole, ← commandsFrom]
  induction a.commandsFrom h with
  | nil => rfl
  | cons first rest ih =>
      rw [List.findSome?_cons, answer, ih, List.filterMap_cons]
      cases a.command? first with
      | none => rfl
      | some c =>
          rw [Option.bind_some, List.find?_cons]
          cases c.refersTo objectType name <;> rfl

/-- A search answers with the type name of the first of all commands that refers to the object. A listing
has a line for each of all commands, in their order. -/
theorem find_and_listing_eq (wf : a.WellFormed) (root : a.IsRoot h) :
    (∀ objectType name, a.find h objectType name =
      (((a.commandsFrom h).filterMap a.command?).find? (·.refersTo objectType name)).map (·.typeName)) ∧
    ∀ style, a.listing style h =
      listingHeader ++ (a.commandsFrom h).flatMap (a.lineOf style) ++ ['\n'] :=
  ⟨find_eq wf.sound h, listing_eq wf root⟩

/-- The first sequence of the sample has twelve commands, in a row and down to two levels deep. -/
theorem find_and_listing_eq_nested : sample.WellFormed ∧ sample.IsRoot (.ofIndex 0) ∧
    sample.enclosures (.ofIndex 7) = 2 ∧
    (∀ objectType name, sample.find (.ofIndex 0) objectType name =
      ((((List.range 12).map Handle.ofIndex).filterMap sample.command?).find?
        (·.refersTo objectType name)).map (·.typeName)) ∧
    ∀ style, sample.listing style (.ofIndex 0) =
      listingHeader ++ ((List.range 12).map Handle.ofIndex).flatMap (sample.lineOf style) ++ ['\n'] := by
  have root : sample.IsRoot (.ofIndex 0) := by decide +kernel
  have commands : sample.commandsFrom (.ofIndex 0) = (List.range 12).map Handle.ofIndex := by
    decide +kernel
  have agree := find_and_listing_eq wellFormed_sample root
  rw [commands] at agree
  exact ⟨wellFormed_sample, root, by decide +kernel, agree⟩

example : sample.listing ⟨true, false, []⟩ (.ofIndex 12) =
    ("\n---------- Mission Sequence ----------\n(cmd#12)NoOp\n(cmd#13)BeginScript\n" ++
      "(cmd#14)If\n.....(cmd#15)EndIf\n\n").toList := by decide +kernel

end Arena

end MissionScript
