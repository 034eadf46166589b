import DeviceTypes.AddressSpace
import DeviceTypes.Align
import DeviceTypes.Handle
/-!
# The shape of a type

What a handle stands for: a primitive, or a compound of other types named
by their handles. A pointer, an array and an aggregate are the three
compounds. An aggregate carries its layout policy fully resolved, so two
requests that mean the same aggregate have equal shapes.
-/

namespace DeviceTypes

/-- Whether members follow one another or overlap. -/
inductive AggregateKind where
  | struct | union
  deriving DecidableEq, Repr

/-- The word an aggregate's text begins with. -/
def AggregateKind.keyword : AggregateKind → String
  | struct => "struct"
  | union => "union"

/-- How an aggregate's own alignment is chosen. -/
inductive Alignment where
  /-- The largest alignment among the members, one when packed. -/
  | natural
  /-- A given alignment, which may not fall below the natural one. -/
  | explicit (align : Align)
  deriving DecidableEq, Repr

/-- Whether members are padded to their own alignment. -/
inductive Packing where
  /-- Each member starts at the next multiple of its alignment. -/
  | sequential
  /-- Each member starts where the one before it ends. -/
  | packed
  deriving DecidableEq, Repr

/-- How values of an aggregate are handed to a function. -/
inductive Passing where
  /-- As the target does by convention. -/
  | targetDefault
  | byValue
  | byReference
  deriving DecidableEq, Repr

/-- One named member of an aggregate. -/
structure Member where
  name : String
  type : Handle
  deriving DecidableEq

/-- A struct or union with its layout policy. -/
structure Aggregate where
  kind : AggregateKind
  /-- The members in declaration order. -/
  members : List Member
  alignment : Alignment
  packing : Packing
  passing : Passing
  deriving DecidableEq

namespace Aggregate

/-- The position and type of the first member of a given name. -/
def member? (a : Aggregate) (name : String) : Option (Nat × Handle) :=
  go 0 a.members
where
  /-- Searches `members`, the first of which has position `i`. -/
  go (i : Nat) : List Member → Option (Nat × Handle)
    | [] => none
    | m :: rest => if m.name = name then some (i, m.type) else go (i + 1) rest

/-- Whether members follow one another without padding. -/
def isPacked (a : Aggregate) : Bool := a.packing = .packed

end Aggregate

/-- A type made of other types. -/
inductive Compound where
  /-- A pointer to `pointee` in the memory `space`. -/
  | pointer (pointee : Handle) (space : AddressSpace)
  /-- `length` elements in a row. -/
  | array (element : Handle) (length : UInt64)
  /-- A struct or union. -/
  | aggregate (a : Aggregate)
  deriving DecidableEq

/-- What a handle stands for. -/
inductive Shape where
  | primitive (p : Primitive)
  | compound (c : Compound)
  deriving DecidableEq

namespace Compound

/-- The handles a compound mentions, in order. -/
def parts : Compound → List Handle
  | pointer pointee _ => [pointee]
  | array element _ => [element]
  | aggregate a => a.members.map Member.type

/-- The handles whose layout a compound's own layout needs: a pointer needs
none. -/
def layoutParts : Compound → List Handle
  | pointer _ _ => []
  | array element _ => [element]
  | aggregate a => a.members.map Member.type

/-- The aggregate, if the compound is one. -/
def aggregate? : Compound → Option Aggregate
  | aggregate a => some a
  | _ => none

end Compound

namespace Shape

/-- The aggregate, if the shape is one. -/
def aggregate? : Shape → Option Aggregate
  | compound c => c.aggregate?
  | primitive _ => none

end Shape

end DeviceTypes
