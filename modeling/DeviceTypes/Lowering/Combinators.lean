import DeviceTypes.Lowering.Rule
/-!
# Bodies of rules, put together from parts

Small bodies, and ways to make larger ones of them: trying several in
order, and turning a failure into a decline.
-/

namespace DeviceTypes.Lowering.Rule.Body

open Source (Field TypeId)

/-- Answers one device type for every type. -/
def constant (h : Handle) : Body := fun _ _ => pure (some h)

/-- Declines every type. -/
def decline : Body := fun _ _ => pure none

/-- Fails on every type, naming it after `lead`. -/
def refuse (lead : String) : Body := fun catalog i =>
  throw (.unsupported (lead ++ catalog.nameOf i))

/-- Answers what another source type is lowered to. -/
def sameAs (other : TypeId) : Body := fun _ _ => some <$> LowerM.lower other

/-- Has another source type lowered, then declines. -/
def declineAfter (other : TypeId) : Body := fun _ _ => do
  let _ ← LowerM.lower other
  return none

/-- Answers a pointer to what another source type is lowered to. -/
def pointerTo (other : TypeId) (space : AddressSpace) : Body := fun catalog i => do
  let h ← LowerM.lower other
  let answer ← LowerM.ask (.pointer h space)
  some <$> orRejected catalog i answer

/-- Answers an aggregate with the given fields, whatever the type. -/
def assembled (fields : List Field) (policy : Policy) : Body := fun catalog i =>
  some <$> assemble catalog i fields policy

/-- Answers an aggregate whose one field is the type itself. -/
def wrapped (field : String) (policy : Policy) : Body := fun catalog i =>
  some <$> assemble catalog i [⟨field, i⟩] policy

/-- Declines where `body` fails. -/
def recovering (body : Body) : Body := fun catalog i =>
  tryCatch (body catalog i) fun _ => pure none

/-- The first answer or failure of several bodies, tried in order. -/
def firstOf : List Body → Body
  | [] => decline
  | body :: rest => fun catalog i => do
    match ← body catalog i with
    | some h => return some h
    | none => firstOf rest catalog i

end DeviceTypes.Lowering.Rule.Body
