import DeviceTypes.Layout.Basic
import DeviceTypes.Rejection
import DeviceTypes.Target
/-!
# Placing the members of an aggregate

One member after another is placed behind the ones before it, or on top of
them in a union. What is placed so far is a `Placement`: the offsets, the
first byte past every member, and the largest alignment met. Closing it
chooses the aggregate's alignment and rounds its size up to it.

`Shape.layoutIn` is the layout of any shape, given how the handles inside
it are laid out. It asks for them in the order of the members and stops at
the first one that fails, so the same rule serves a computation with a
cache and one without.
-/

namespace DeviceTypes

/-- An answer, or the rejection of a size that leaves the address range. -/
def orOverflow {α : Type} : Option α → Except Rejection α
  | some a => .ok a
  | none => .error .sizeOverflow

/-- The members placed so far. -/
structure Placement where
  /-- Where each placed member starts. -/
  offsets : List Nat := []
  /-- The first byte past all of them. -/
  stop : Nat := 0
  /-- The largest alignment among them, one in a packed aggregate. -/
  natural : Nat := 1
  deriving DecidableEq

namespace Placement

/-- The alignment a member of layout `l` leaves the aggregate with. -/
def raise (p : Placement) (packed : Bool) (l : Layout) : Nat :=
  if packed then p.natural else max p.natural l.align

/-- Where the next member of a struct starts. -/
def next? (p : Placement) (packed : Bool) (l : Layout) : Option Nat :=
  if packed then some p.stop else Layout.roundUp? p.stop l.align

/-- One more member, of layout `l`. -/
def place (kind : AggregateKind) (packed : Bool) (p : Placement) (l : Layout) :
    Except Rejection Placement :=
  match kind with
  | .struct => do
    let offset ← orOverflow (p.next? packed l)
    let stop ← orOverflow (Layout.inRange? (offset + l.size))
    return ⟨p.offsets ++ [offset], stop, p.raise packed l⟩
  | .union => .ok ⟨p.offsets ++ [0], max p.stop l.size, p.raise packed l⟩

/-- The alignment of the whole aggregate. -/
def align (p : Placement) : Alignment → Except Rejection Nat
  | .natural => .ok p.natural
  | .explicit a =>
    if a.bytes < p.natural then .error (.alignmentTooSmall a.bytes p.natural) else .ok a.bytes

/-- The layout of the aggregate once every member is placed. -/
def close (p : Placement) (alignment : Alignment) : Except Rejection Layout := do
  let align ← p.align alignment
  let size ← orOverflow (Layout.roundUp? p.stop align)
  return ⟨size, align, p.offsets⟩

end Placement

variable {m : Type → Type} [Monad m] [MonadExcept Rejection m]

/-- The layout of an aggregate, asking `layoutOf` for each member in turn. -/
def Aggregate.layoutIn (layoutOf : Handle → m Layout) (a : Aggregate) : m Layout := do
  let placed ← a.members.foldlM (fun p x => do
    let l ← layoutOf x.type
    MonadExcept.ofExcept (p.place a.kind a.isPacked l)) ({} : Placement)
  MonadExcept.ofExcept (placed.close a.alignment)

/-- The layout of a compound, asking `layoutOf` for the handles inside it. -/
def Compound.layoutIn (target : Target) (layoutOf : Handle → m Layout) : Compound → m Layout
  | .pointer _ space => pure (.scalar (target.pointerWidth space).toNat)
  | .array element length => do
    let l ← layoutOf element
    MonadExcept.ofExcept (orOverflow (l.row? length.toNat))
  | .aggregate a => a.layoutIn layoutOf

/-- The layout of a shape, asking `layoutOf` for the handles inside it. -/
def Shape.layoutIn (target : Target) (layoutOf : Handle → m Layout) : Shape → m Layout
  | .primitive p => pure (.scalar p.bytes)
  | .compound c => c.layoutIn target layoutOf

end DeviceTypes
