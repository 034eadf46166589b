import DeviceTypes.AddressSpace
import DeviceTypes.Shape
/-!
# Targets

What layout and construction ask of the device a program is compiled for:
the width of a pointer into each memory, whether an aggregate may be
empty, how large an explicit alignment may be, and how aggregates are
passed when nothing else is said.
-/

namespace DeviceTypes

/-- The device properties that shape types. -/
structure Target where
  /-- The bytes of a pointer into each address space, by its number. -/
  pointerWidths : Vector UInt32 5
  /-- Whether an aggregate without members is accepted. -/
  allowsEmpty : Bool
  /-- The largest explicit alignment that is accepted, in bytes. -/
  maxAlignment : UInt32
  /-- Whether aggregates are passed by reference when nothing else is said. -/
  passesByReference : Bool
  deriving DecidableEq

namespace Target

/-- A 64-bit device: eight-byte pointers everywhere, no empty aggregates,
alignments up to 256 bytes, aggregates by reference. -/
def device64 : Target where
  pointerWidths := .replicate 5 8
  allowsEmpty := false
  maxAlignment := 256
  passesByReference := true

/-- The bytes of a pointer into `space`. -/
def pointerWidth (t : Target) (space : AddressSpace) : UInt32 :=
  t.pointerWidths[space.index]

/-- The target with another pointer width for one address space. -/
def withPointerWidth (t : Target) (space : AddressSpace) (bytes : UInt32) : Target :=
  { t with pointerWidths := t.pointerWidths.set space.index bytes }

/-- A 64-bit device whose shared, constant and thread-local memories are
reached through four-byte pointers. -/
def device64Short : Target :=
  ((device64.withPointerWidth .shared 4).withPointerWidth .constant 4).withPointerWidth
    .threadLocal 4

/-- Whether values passed as `p` says go by reference. -/
def byReference (t : Target) : Passing → Bool
  | .targetDefault => t.passesByReference
  | .byValue => false
  | .byReference => true

@[simp] theorem pointerWidth_withPointerWidth (t : Target) (a b : AddressSpace) (n : UInt32) :
    (t.withPointerWidth a n).pointerWidth b = if a = b then n else t.pointerWidth b := by
  have h : (a.index : Nat) = b.index ↔ a = b :=
    ⟨fun h => AddressSpace.index_injective (Fin.ext h), fun h => h ▸ rfl⟩
  simp [withPointerWidth, pointerWidth, Vector.getElem_set, h]

theorem pointerWidth_device64 (a : AddressSpace) : device64.pointerWidth a = 8 := by
  cases a <;> rfl

end Target

end DeviceTypes
