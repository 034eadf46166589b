import DeviceTypes.Lowering.Assembly
/-!
# Lowering rules

A rule takes over the lowering of certain source types. Its body is asked
with a type and answers a device type, or nothing when the type is not its
concern, or fails. Two kinds of rule cover most needs: one lowers the
composites under a key from their declared fields (`Rule.declared`), the
other lowers a single type from a field list of its own (`Rule.listed`).
-/

namespace DeviceTypes.Lowering

open Source (Catalog Field TypeId)

/-- Which source types are meant: one of them, or a family of composites. -/
inductive Key where
  | exact (i : TypeId)
  | family (name : String)
  deriving DecidableEq

namespace Key

/-- Whether a type falls under the key. -/
def matches? (k : Key) (catalog : Catalog) (i : TypeId) : Bool :=
  match k with
  | exact j => i = j
  | family name => catalog.family? i = some name

/-- The text of a key. -/
def describe : Key → String
  | exact i => s!"source type #{i.number}"
  | family name => s!"family `{name}`"

end Key

/-- What a rule does with a type. -/
abbrev Rule.Body := Catalog → TypeId → LowerM (Option Handle)

/-- A way to lower certain source types. -/
structure Rule where
  /-- The number under which logs speak of the rule. -/
  serial : Nat
  name : String
  body : Rule.Body

namespace Rule

/-- The aggregate of a composite from its declared fields, where the type
falls under the key and is a composite. -/
def Body.declared (key : Key) (policy : Policy) : Body := fun catalog i =>
  if key.matches? catalog i then
    match catalog.composite? i with
    | some c => some <$> assemble catalog i c.fields policy
    | none => pure none
  else pure none

/-- The aggregate of one type from a field list. -/
def Body.listed (target : TypeId) (fields : List Field) (policy : Policy) : Body := fun catalog i =>
  if i = target then some <$> assemble catalog i fields policy else pure none

/-- The rule that lowers the composites under `key` from their declared
fields. -/
def declared (serial : Nat) (key : Key) (policy : Policy) : Rule :=
  ⟨serial, "composite", Body.declared key policy⟩

/-- The rule that lowers `target` from a field list. -/
def listed (serial : Nat) (target : TypeId) (fields : List Field) (policy : Policy) : Rule :=
  ⟨serial, "field-list", Body.listed target fields policy⟩

/-- The fields of a pair of equal types. -/
def pairFields (element : TypeId) : List Field := [⟨"First", element⟩, ⟨"Second", element⟩]

/-- A rule of its own making. -/
def closure (serial : Nat) (body : Body) : Rule := ⟨serial, "closure", body⟩

end Rule

end DeviceTypes.Lowering
