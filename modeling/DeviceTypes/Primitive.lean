/-!
# Primitive device types

The twelve types a device knows without any declaration. Each has a fixed
position, a name and a width in bytes; `void` is the only one of width
zero. Positions and names both tell the primitives apart
(`ofIndex_index`, `ofName?_name`).
-/

namespace DeviceTypes

/-- A type that every type table knows from the start. -/
inductive Primitive where
  | void | bool
  | i8 | i16 | i32 | i64
  | u8 | u16 | u32 | u64
  | f32 | f64
  deriving DecidableEq, Repr

namespace Primitive

/-- Every primitive, in the order of their positions. -/
def all : List Primitive :=
  [void, bool, i8, i16, i32, i64, u8, u16, u32, u64, f32, f64]

/-- How many primitives there are. -/
abbrev count : Nat := 12

/-- The position of a primitive in `all`. -/
def index : Primitive → Fin count
  | void => 0 | bool => 1
  | i8 => 2 | i16 => 3 | i32 => 4 | i64 => 5
  | u8 => 6 | u16 => 7 | u32 => 8 | u64 => 9
  | f32 => 10 | f64 => 11

/-- The primitive at a position. -/
def ofIndex (i : Fin count) : Primitive := all.get i

/-- The name a primitive is printed with. -/
def name : Primitive → String
  | void => "void" | bool => "bool"
  | i8 => "i8" | i16 => "i16" | i32 => "i32" | i64 => "i64"
  | u8 => "u8" | u16 => "u16" | u32 => "u32" | u64 => "u64"
  | f32 => "f32" | f64 => "f64"

/-- The primitive of a given name. -/
def ofName? (s : String) : Option Primitive := all.find? fun p => p.name == s

/-- The bytes a value of the type occupies. -/
def bytes : Primitive → Nat
  | void => 0
  | bool | i8 | u8 => 1
  | i16 | u16 => 2
  | i32 | u32 | f32 => 4
  | i64 | u64 | f64 => 8

@[simp] theorem length_all : all.length = count := rfl

theorem mem_all (p : Primitive) : p ∈ all := by cases p <;> decide

@[simp] theorem ofIndex_index (p : Primitive) : ofIndex p.index = p := by
  cases p <;> rfl

@[simp] theorem index_ofIndex (i : Fin count) : (ofIndex i).index = i := by
  revert i; decide

theorem ofName?_name (p : Primitive) : ofName? p.name = some p := by
  cases p <;> decide

/-- A primitive's width is zero or a power of two. -/
theorem bytes_eq (p : Primitive) : p.bytes = 0 ∨ p.bytes.isPowerOfTwo := by
  cases p
  case void => exact .inl rfl
  case bool | i8 | u8 => exact .inr ⟨0, rfl⟩
  case i16 | u16 => exact .inr ⟨1, rfl⟩
  case i32 | u32 | f32 => exact .inr ⟨2, rfl⟩
  case i64 | u64 | f64 => exact .inr ⟨3, rfl⟩

end Primitive

end DeviceTypes
