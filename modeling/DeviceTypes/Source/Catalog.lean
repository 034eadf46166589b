import DeviceTypes.Source.Descriptor
/-!
# Catalogues of source types

A catalogue lists the descriptors of a program's types; an identifier is a
position in the list. It starts with the scalars and grows at its end.
Pointers and arrays are found again when they are asked for a second time,
while composites and external types are new each time. Only the fields of
a composite can change afterwards, so that composites may refer to each
other.
-/

namespace DeviceTypes.Source

/-- The source types of one program. -/
structure Catalog where
  descriptors : List Descriptor
  deriving DecidableEq

namespace Catalog

/-- The catalogue that lists only the scalars. -/
def scalars : Catalog := ⟨Scalar.all.map .scalar⟩

/-- How many types are listed, scalars included. -/
def size (c : Catalog) : Nat := c.descriptors.length

/-- Whether only the scalars are listed. -/
def isEmpty (c : Catalog) : Bool := c.size ≤ Scalar.count

/-! ## Queries -/

/-- What an identifier stands for. -/
def get? (c : Catalog) (i : TypeId) : Option Descriptor := c.descriptors[i.index]?

/-- The composite behind an identifier. -/
def composite? (c : Catalog) (i : TypeId) : Option Composite :=
  (c.get? i).bind Descriptor.composite?

/-- The family of the composite behind an identifier. -/
def family? (c : Catalog) (i : TypeId) : Option String :=
  (c.composite? i).bind Composite.family

/-- The identifier of a structural type that is listed already. -/
def find? (c : Catalog) (d : Descriptor) : Option TypeId :=
  if d.isStructural ∧ d ∈ c.descriptors then some (.ofIndex (c.descriptors.idxOf d)) else none

/-- The pointer to `element`, if it is listed already. -/
def findPointer? (c : Catalog) (element : TypeId) : Option TypeId := c.find? (.pointer element)

/-! ## Declarations -/

/-- The identifier of a type, and the catalogue that lists it. -/
def declare (c : Catalog) (d : Descriptor) : TypeId × Catalog :=
  match c.find? d with
  | some i => (i, c)
  | none => (.ofIndex c.size, ⟨c.descriptors ++ [d]⟩)

/-- A pointer to `element`. -/
def pointer (c : Catalog) (element : TypeId) : TypeId × Catalog := c.declare (.pointer element)

/-- `length` elements in a row. -/
def array (c : Catalog) (element : TypeId) (length : UInt64) : TypeId × Catalog :=
  c.declare (.array element length)

/-- A composite, an instance of `family` if one is given. -/
def composite (c : Catalog) (name : String) (family : Option String) (fields : List Field) :
    TypeId × Catalog :=
  c.declare (.composite ⟨name, family, fields⟩)

/-- A composite whose fields are given later, so that they may refer to it. -/
def forward (c : Catalog) (name : String) : TypeId × Catalog := c.composite name none []

/-- A type that only a rule of its own can lower. -/
def external (c : Catalog) (name : String) : TypeId × Catalog := c.declare (.external name)

/-- The catalogue where the composite `i` has the given fields; nothing when
`i` is no composite. -/
def define? (c : Catalog) (i : TypeId) (fields : List Field) : Option Catalog :=
  (c.composite? i).map fun d => ⟨c.descriptors.set i.index (.composite { d with fields })⟩

/-! ## Names -/

/-- The name of a type in a diagnostic, going down at most so many levels. -/
def nameBelow (c : Catalog) : Nat → TypeId → String
  | 0, _ => "…"
  | depth + 1, i =>
    match c.get? i with
    | none => s!"<unknown {i.number}>"
    | some (.scalar s) => s.name
    | some (.pointer element) => "deviceptr<" ++ nameBelow c depth element ++ ">"
    | some (.array element length) => nameBelow c depth element ++ s!"[{length}]"
    | some (.composite d) => d.name
    | some (.external name) => name

/-- The name of a type in a diagnostic. Every pointer and array on the way
down is another entry, so one level more than there are entries is deep
enough unless they go round in a circle. -/
def nameOf (c : Catalog) (i : TypeId) : String := c.nameBelow (c.size + 1) i

end Catalog

end DeviceTypes.Source
