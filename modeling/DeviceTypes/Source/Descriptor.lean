import DeviceTypes.Primitive
/-!
# Source types

The types of the program being compiled, before they are lowered. Each has
an identifier, and a descriptor says what it is: a scalar, a pointer to
device memory, an array, a composite with named fields, or a type that
only a rule of its own can lower.

Identifiers below eleven are the scalars, in every catalogue.
-/

namespace DeviceTypes.Source

/-- A scalar type with a direct representation on the device. -/
inductive Scalar where
  | bool
  | i8 | i16 | i32 | i64
  | u8 | u16 | u32 | u64
  | f32 | f64
  deriving DecidableEq, Repr

/-- The identifier of a source type: its position in a catalogue. -/
structure TypeId where
  number : UInt32
  deriving DecidableEq, Repr

namespace Scalar

/-- Every scalar, in the order of their identifiers. -/
def all : List Scalar := [bool, i8, i16, i32, i64, u8, u16, u32, u64, f32, f64]

/-- How many scalars there are. -/
abbrev count : Nat := 11

/-- The device type a scalar is lowered to. -/
def primitive : Scalar → Primitive
  | bool => .bool
  | i8 => .i8 | i16 => .i16 | i32 => .i32 | i64 => .i64
  | u8 => .u8 | u16 => .u16 | u32 => .u32 | u64 => .u64
  | f32 => .f32 | f64 => .f64

/-- The name of a scalar: that of its device type. -/
def name (s : Scalar) : String := s.primitive.name

/-- The identifier of a scalar. -/
def id : Scalar → TypeId
  | bool => ⟨0⟩
  | i8 => ⟨1⟩ | i16 => ⟨2⟩ | i32 => ⟨3⟩ | i64 => ⟨4⟩
  | u8 => ⟨5⟩ | u16 => ⟨6⟩ | u32 => ⟨7⟩ | u64 => ⟨8⟩
  | f32 => ⟨9⟩ | f64 => ⟨10⟩

/-- The scalar of a given name. -/
def ofName? (n : String) : Option Scalar := all.find? fun s => s.name == n

@[simp] theorem length_all : all.length = count := rfl

/-- A scalar's identifier is its position. -/
theorem all_id (s : Scalar) : all[s.id.number.toNat]? = some s := by
  cases s <;> rfl

end Scalar

namespace TypeId

/-- The position an identifier points at. -/
def index (i : TypeId) : Nat := i.number.toNat

/-- Whether the identifier is a scalar's. -/
def isScalar (i : TypeId) : Bool := i.index < Scalar.count

/-- The identifier of a position. Catalogues stay far below `2 ^ 32`
entries. -/
def ofIndex (n : Nat) : TypeId := ⟨UInt32.ofNat n⟩

theorem index_ofIndex {n : Nat} (h : n < UInt32.size) : (ofIndex n).index = n :=
  UInt32.toNat_ofNat_of_lt' h

@[simp] theorem ofIndex_index (i : TypeId) : ofIndex i.index = i := by
  simp [ofIndex, index]

end TypeId

/-- One field of a composite. -/
structure Field where
  name : String
  type : TypeId
  deriving DecidableEq

/-- A type with named fields. -/
structure Composite where
  /-- The name in full, arguments included. -/
  name : String
  /-- The generic definition this composite is an instance of. -/
  family : Option String
  /-- The fields in declaration order. -/
  fields : List Field
  deriving DecidableEq

/-- What a source type is. -/
inductive Descriptor where
  | scalar (s : Scalar)
  /-- A pointer into the global memory of the device. -/
  | pointer (element : TypeId)
  /-- `length` elements in a row. -/
  | array (element : TypeId) (length : UInt64)
  | composite (c : Composite)
  /-- A type that only a rule of its own can lower. -/
  | external (name : String)
  deriving DecidableEq

namespace Descriptor

/-- Whether equal descriptors are the same type. A composite or an external
type is a type of its own each time it is declared. -/
def isStructural : Descriptor → Bool
  | scalar _ | pointer _ | array .. => true
  | composite _ | external _ => false

/-- The composite, if the type is one. -/
def composite? : Descriptor → Option Composite
  | composite c => some c
  | _ => none

end Descriptor

end DeviceTypes.Source
