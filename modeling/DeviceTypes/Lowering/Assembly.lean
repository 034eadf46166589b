import DeviceTypes.Lowering.Script
import DeviceTypes.Source.Catalog
/-!
# Putting an aggregate together

The fields of a source type are lowered one after another, each on its
own even where types repeat. The first that fails ends it, as an error of
that field. Once all are lowered, one aggregate is asked for, and what its
universe objects to, names included, is an error of the whole type.
-/

namespace DeviceTypes.Lowering

open Source (Catalog Field TypeId)

/-- The device type answered, or its rejection as the failure of the source
type `i`. -/
def orRejected (catalog : Catalog) (i : TypeId) : Except Rejection Handle → LowerM Handle
  | .ok h => pure h
  | .error r => throw (.rejected (catalog.nameOf i) r)

/-- The members that `fields` of `owner` are lowered to, in order. -/
def members (catalog : Catalog) (owner : TypeId) : List Field → LowerM (List Member)
  | [] => pure []
  | f :: rest => do
    let h ← (LowerM.lower f.type).reword fun e => .field (catalog.nameOf owner) f.name e
    let ms ← members catalog owner rest
    return ⟨f.name, h⟩ :: ms

/-- The aggregate of `owner` with the given fields under a policy. -/
def assemble (catalog : Catalog) (owner : TypeId) (fields : List Field) (policy : Policy) :
    LowerM Handle := do
  LowerM.announce owner fields.length
  let ms ← members catalog owner fields
  let answer ← LowerM.ask (.aggregate policy ms)
  orRejected catalog owner answer

end DeviceTypes.Lowering
