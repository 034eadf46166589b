import DeviceTypes.Rejection
/-!
# Failed lowerings

Why a source type could not be lowered. A failure inside a field is
wrapped once for each composite around it, so the whole error reads as a
path of field names (`path`) that ends in the reason (`root`).
-/

namespace DeviceTypes.Lowering

/-- Why a source type could not be lowered. Types are given by their names. -/
inductive Error where
  /-- Nothing, neither a rule nor the built-in mapping, lowers the type. -/
  | unsupported (type : String)
  /-- The type of a field could not be lowered. -/
  | field (owner name : String) (cause : Error)
  /-- The device type that was put together is rejected. -/
  | rejected (type : String) (cause : Rejection)
  /-- The type contains itself. -/
  | recursive (type : String)
  deriving DecidableEq

namespace Error

/-- The text of an error, without its causes. -/
def message : Error → String
  | unsupported type => s!"`{type}` has no device representation"
  | field owner name _ => s!"cannot build field `{name}` of `{owner}`"
  | rejected type _ => s!"cannot construct `{type}`"
  | recursive type => s!"`{type}` refers to itself"

/-- The error below every field. -/
def root : Error → Error
  | field _ _ cause => cause.root
  | e => e

/-- The field names from the outermost composite down to the failure. -/
def path : Error → List String
  | field _ name cause => name :: cause.path
  | _ => []

/-- What an error is put down to. -/
inductive Cause where
  | error (e : Error)
  | rejection (r : Rejection)
  deriving DecidableEq

/-- What lies below an error, outermost first. -/
def causes : Error → List Cause
  | field _ _ cause => .error cause :: cause.causes
  | rejected _ cause => [.rejection cause]
  | unsupported _ | recursive _ => []

theorem root_root (e : Error) : e.root.root = e.root := by
  induction e with
  | field _ _ _ ih => simpa [root] using ih
  | unsupported _ | rejected _ _ | recursive _ => rfl

theorem path_root (e : Error) : e.root.path = [] := by
  induction e with
  | field _ _ _ ih => simpa [root] using ih
  | unsupported _ | rejected _ _ | recursive _ => rfl

end Error

end DeviceTypes.Lowering
