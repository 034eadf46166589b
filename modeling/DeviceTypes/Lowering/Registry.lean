import DeviceTypes.Lowering.Rule
/-!
# Registries of rules

A registry says which rule is in charge of a source type. Each key takes
one rule and keeps it. A rule registered for one type goes before a rule
registered for the family that the type belongs to.
-/

namespace DeviceTypes.Lowering

open Source (Catalog TypeId)

/-- A registration that its registry refuses. -/
inductive RegistryError where
  /-- The key has a rule already. -/
  | alreadyRegistered (key : Key)
  deriving DecidableEq

/-- The text of a refused registration. -/
def RegistryError.message : RegistryError → String
  | alreadyRegistered key => s!"a type builder is already registered for {key.describe}"

/-- Rules by key. -/
structure Registry where
  /-- The registrations in the order they were made. -/
  entries : List (Key × Rule) := []

namespace Registry

/-- The registry without rules. -/
def empty : Registry := {}

/-- How many keys have a rule. -/
def size (r : Registry) : Nat := r.entries.length

/-- Whether no key has a rule. -/
def isEmpty (r : Registry) : Bool := r.size = 0

/-- The rule registered under a key. -/
def find? (r : Registry) (key : Key) : Option Rule := r.entries.lookup key

/-- How many single types have a rule. -/
def exactCount (r : Registry) : Nat :=
  r.entries.countP fun e => match e.1 with
    | .exact _ => true
    | .family _ => false

/-- How many families have a rule. -/
def familyCount (r : Registry) : Nat := r.size - r.exactCount

/-- The registry with `rule` under `key`. -/
def register (r : Registry) (key : Key) (rule : Rule) : Except RegistryError Registry :=
  match r.find? key with
  | some _ => .error (.alreadyRegistered key)
  | none => .ok ⟨r.entries ++ [(key, rule)]⟩

/-- The registry after several registrations, and whether all of them were
made. It stops at the first that is refused. -/
def registerAll (r : Registry) : List (Key × Rule) → Registry × Except RegistryError Unit
  | [] => (r, .ok ())
  | (key, rule) :: rest =>
    match r.register key rule with
    | .ok r' => r'.registerAll rest
    | .error e => (r, .error e)

/-- The registry of a list of registrations. -/
def ofList (entries : List (Key × Rule)) : Except RegistryError Registry :=
  match empty.registerAll entries with
  | (r, .ok ()) => .ok r
  | (_, .error e) => .error e

/-- The rule in charge of a source type. -/
def ruleFor? (r : Registry) (catalog : Catalog) (i : TypeId) : Option Rule :=
  r.find? (.exact i) <|> (catalog.family? i).bind fun name => r.find? (.family name)

end Registry

end DeviceTypes.Lowering
