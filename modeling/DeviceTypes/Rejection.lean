import DeviceTypes.Handle
/-!
# Rejected constructions

Every reason why a type cannot be made or laid out, and the text of each.
A rejection is final: it speaks of a type that cannot exist.
-/

namespace DeviceTypes

/-- Why a type cannot be constructed or laid out. -/
inductive Rejection where
  /-- The member at `index` has an empty name. -/
  | unnamedMember (index : Nat)
  /-- Two members share a name. -/
  | repeatedMember (name : String)
  /-- There is no member and the target wants one. -/
  | noMembers
  /-- The byte count is no power of two. -/
  | notAnAlignment (bytes : UInt32)
  /-- The explicit alignment is above the target's maximum. -/
  | alignmentTooLarge (requested max : Nat)
  /-- The explicit alignment is below the natural one. -/
  | alignmentTooSmall (requested natural : Nat)
  /-- A size or an offset leaves the 64-bit address range. -/
  | sizeOverflow
  /-- The handle names nothing in the table at hand. -/
  | unknownHandle (handle : Handle)
  /-- A shard of the table has no slot left. -/
  | tableFull (shard : Nat)
  deriving DecidableEq

namespace Rejection

/-- The text of a rejection; `describe` writes a handle. -/
def message (describe : Handle → String) : Rejection → String
  | unnamedMember index => s!"field #{index} has an empty name"
  | repeatedMember name => s!"duplicate field `{name}`"
  | noMembers => "aggregate has no fields and the target does not allow empty aggregates"
  | notAnAlignment bytes => s!"alignment {bytes} is not a power of two"
  | alignmentTooLarge requested max =>
    s!"alignment {requested} exceeds the target maximum of {max}"
  | alignmentTooSmall requested natural =>
    s!"alignment {requested} is below the natural alignment {natural} of the fields"
  | sizeOverflow => "type size overflows the device address range"
  | unknownHandle handle => s!"{describe handle} does not belong to this type table"
  | tableFull shard => s!"type table shard {shard} exceeded its capacity"

/-- The handle a rejection speaks of. -/
def handle? : Rejection → Option Handle
  | unknownHandle handle => some handle
  | _ => none

end Rejection

end DeviceTypes
