import DeviceTypes.Lowering.Assembly
/-!
# The built-in mapping

How a source type is lowered when no rule takes it over: a scalar becomes
its primitive, a pointer points into global memory, an array keeps its
length, and a composite becomes a struct under the default policy. An
external type, or an identifier that the catalogue does not list, has no
built-in mapping.
-/

namespace DeviceTypes.Lowering

open Source (Catalog TypeId)

/-- Lowers a source type without any rule. -/
def builtIn (catalog : Catalog) (i : TypeId) : LowerM Handle :=
  match catalog.get? i with
  | some (.scalar s) => pure (.primitive s.primitive)
  | some (.pointer element) => do
    let h ← LowerM.lower element
    let answer ← LowerM.ask (.pointer h .global)
    orRejected catalog i answer
  | some (.array element length) => do
    let h ← LowerM.lower element
    let answer ← LowerM.ask (.array h length)
    orRejected catalog i answer
  | some (.composite c) => assemble catalog i c.fields {}
  | some (.external _) | none => throw (.unsupported (catalog.nameOf i))

end DeviceTypes.Lowering
