import DeviceTypes.Proofs.Tree.Basic
import DeviceTypes.Proofs.Universe.Lasting
/-!
# What a tree says of a type

The text of a handle, its layout and the way its values are passed are all
read off its tree. For the layout this is `Ordered.layoutAnew_eq_layout`; here
are the text (`Ordered.spell_eq_spell_unfold`) and the passing
(`passedByReference_eq_byReference`). Handles of the same tree are therefore
described in the same way, in whatever universes they live
(`Indistinct.of_unfold`).
-/

namespace DeviceTypes

/-- What is written behind the pointee of a pointer. -/
def AddressSpace.spellStar : AddressSpace → String
  | .generic => "*"
  | space => s!" addrspace({space.name})*"

theorem Compound.spell_pointer (inner : Handle → String) (pointee : Handle) (space : AddressSpace) :
    (pointer pointee space).spell inner = inner pointee ++ space.spellStar := by
  cases space <;> rfl

/-- The texts of members between braces. -/
def Aggregate.spellBraces : List String → String
  | [] => " \x7b\x7d"
  | texts => " \x7b " ++ ", ".intercalate texts ++ " \x7d"

theorem Aggregate.spellMembers_eq (inner : Handle → String) (members : List Member) :
    spellMembers inner members = spellBraces (members.map (Member.spell inner)) := by
  cases members with
  | nil => rfl
  | cons m rest => rw [spellMembers, List.map_cons, spellBraces] <;> simp

namespace Tree

mutual

/-- The text of a type from the texts of its parts. -/
def spell : Tree → String
  | unknown _ => "<unknown>"
  | primitive p => p.name
  | pointer pointee space => pointee.spell ++ space.spellStar
  | array element length => s!"[{length} x " ++ element.spell ++ "]"
  | aggregate kind members alignment packing passing =>
    Aggregate.spellHead ⟨kind, [], alignment, packing, passing⟩ ++
      Aggregate.spellBraces (spellEach members)

/-- The texts of all members. -/
def spellEach : List (String × Tree) → List String
  | [] => []
  | m :: rest => (m.1 ++ ": " ++ m.2.spell) :: spellEach rest

end

theorem spellEach_eq (members : List (String × Tree)) :
    spellEach members = members.map fun m => m.1 ++ ": " ++ m.2.spell := by
  induction members with
  | nil => rw [spellEach, List.map_nil]
  | cons m rest ih => rw [spellEach, List.map_cons, ih]

/-- Whether values of the type go by reference; only aggregates ever do. -/
def byReference (target : Target) : Tree → Except Rejection Bool
  | unknown h => .error (.unknownHandle h)
  | aggregate _ _ _ _ passing => .ok (target.byReference passing)
  | primitive _ | pointer .. | array .. => .ok false

end Tree

/-- Writing out the tree of a shape is writing out the shape. -/
theorem Shape.spell_tree (f : Handle → Tree) (s : Shape) :
    (s.tree f).spell = spellReading.shape (fun x => (f x).spell) s := by
  match s with
  | .primitive p => rw [tree, Tree.spell]; rfl
  | .compound (.pointer pointee space) =>
    rw [tree, Tree.spell]
    exact (Compound.spell_pointer (fun x => (f x).spell) pointee space).symm
  | .compound (.array element length) => rw [tree, Tree.spell]; rfl
  | .compound (.aggregate a) =>
    change _ = a.spellHead ++ Aggregate.spellMembers (fun x => (f x).spell) a.members
    rw [tree, Tree.spell, Tree.spellEach_eq, List.map_map, Aggregate.spellMembers_eq]
    rfl

variable {t : Table} {u v : Universe} {h k : Handle}

/-- **A handle is written out as its tree is.** -/
theorem Table.Ordered.spell_eq_spell_unfold (ho : t.Ordered) (h : Handle) :
    t.spell h = (t.unfold h).spell := by
  rw [t.spell_eq_read]
  exact ho.read_eq_of_tree (fun h => by rw [Tree.spell]; rfl) Shape.spell_tree h

namespace Universe

/-- **Values are passed as the tree says.** -/
theorem passedByReference_eq_byReference (ho : u.table.Ordered) (h : Handle) :
    u.passedByReference h = (u.table.unfold h).byReference u.target := by
  rw [passedByReference, aggregateOf, shapeOf, ho.unfold_eq]
  rcases u.table.get? h with - | s
  · rfl
  rcases s with p | ⟨x, space⟩ | ⟨x, length⟩ | a <;> rfl

/-- Handle `h` of one universe and `k` of another are written, laid out and
passed alike, as far as the two can be asked. -/
structure Indistinct (u : Universe) (h : Handle) (v : Universe) (k : Handle) : Prop where
  spell : (v.perform (.spell k)).1 = (u.perform (.spell h)).1
  layoutOf : (v.perform (.layoutOf k)).1 = (u.perform (.layoutOf h)).1
  passedByReference :
    (v.perform (.passedByReference k)).1 = (u.perform (.passedByReference h)).1

/-- **Handles of the same tree are described alike** under the same target,
whatever their tables and the caches hold. -/
theorem Indistinct.of_unfold (hu : u.Sound) (hv : v.Sound) (ht : v.target = u.target)
    (he : v.table.unfold k = u.table.unfold h) : u.Indistinct h v k where
  spell := by
    change v.table.spell k = u.table.spell h
    rw [hv.ordered.spell_eq_spell_unfold, hu.ordered.spell_eq_spell_unfold, he]
  layoutOf := by
    rw [hv.perform_layoutOf, hu.perform_layoutOf, layoutAnew, layoutAnew,
      hv.ordered.layoutAnew_eq_layout, hu.ordered.layoutAnew_eq_layout, he, ht]
  passedByReference := by
    change v.passedByReference k = u.passedByReference h
    rw [passedByReference_eq_byReference hv.ordered, passedByReference_eq_byReference hu.ordered,
      he, ht]

end Universe

end DeviceTypes
