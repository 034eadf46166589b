import DeviceTypes.Lowering.BuiltIn
import DeviceTypes.Lowering.Registry
/-!
# Lowering sessions

A session lowers the types of one catalogue into one universe. It keeps
what it has lowered, and it keeps the types it is in the middle of: a type
asked for again while it is being lowered contains itself, which a device
type cannot. A rule in charge of a type is asked first, and the built-in
mapping lowers what no rule takes.

Each nested request adds a type to those in progress, and there are only
`2 ^ 32` identifiers, so the nesting is bounded without any assumption on
the catalogue or the rules. `lowerUpTo` carries that bound and `lower`
hides it.
-/

namespace DeviceTypes.Lowering

open Source (Catalog Field TypeId)

/-- What a session does, for whoever follows it. -/
inductive Event where
  /-- A source type was asked for. -/
  | requested (i : TypeId)
  /-- It had been lowered before. -/
  | found (h : Handle)
  /-- The rule numbered `serial` was asked to lower a type. -/
  | ran (serial : Nat) (i : TypeId)
  /-- The rule of that name lowered the type. -/
  | claimed (i : TypeId) (rule : String)
  /-- The rule of that name left the type to the built-in mapping. -/
  | declined (i : TypeId) (rule : String)
  /-- An aggregate with so many fields is put together for `owner`. -/
  | assembling (owner : TypeId) (fields : Nat)
  /-- The universe was asked for an aggregate. -/
  | mint (e : MintEvent)
  deriving DecidableEq

/-- What a session lowers by, and never changes. -/
structure Setting where
  catalog : Catalog
  registry : Registry

/-- What a session changes. -/
structure Progress where
  /-- The universe that types are minted in. -/
  minter : Universe
  /-- The source types lowered so far, latest first. -/
  lowered : List (TypeId × Handle) := []
  /-- The source types being lowered, innermost first. -/
  resolving : List TypeId := []
  /-- What happened, in order. -/
  log : Array Event := #[]

namespace Progress

/-- What a source type was lowered to. -/
def lowered? (p : Progress) (i : TypeId) : Option Handle := p.lowered.lookup i

/-- How far a session is with a source type. -/
inductive Status where
  /-- It was lowered to this. -/
  | lowered (h : Handle)
  /-- It is being lowered. -/
  | resolving
  /-- It was not asked for, or could not be lowered. -/
  | fresh
  deriving DecidableEq

/-- How far the session is with a source type. -/
def status (p : Progress) (i : TypeId) : Status :=
  match p.lowered? i with
  | some h => .lowered h
  | none => if i ∈ p.resolving then .resolving else .fresh

/-- Adds an event to the log. -/
def record (e : Event) (p : Progress) : Progress := { p with log := p.log.push e }

/-- Counts a type among those being lowered. -/
def enter (i : TypeId) (p : Progress) : Progress := { p with resolving := i :: p.resolving }

/-- Counts a type no longer among those being lowered. -/
def leave (i : TypeId) (p : Progress) : Progress := { p with resolving := p.resolving.erase i }

/-- Keeps what a type was lowered to; a failure is not kept. -/
def keepAnswer (i : TypeId) (answer : Except Error Handle) (p : Progress) : Progress :=
  match answer with
  | .ok h => { p with lowered := (i, h) :: p.lowered }
  | .error _ => p

/-- Puts a request to the universe. -/
def ask (r : Request) (p : Progress) : r.Answer × Progress :=
  let (answer, events, minter) := p.minter.perform r
  (answer, { p with minter, log := p.log ++ events.map Event.mint })

end Progress

/-- A computation in a session. -/
abbrev SessionM := StateM Progress

/-- A way to lower the types that come up while another is lowered. -/
abbrev Nested := TypeId → SessionM (Except Error Handle)

/-- The session as a host, where `nested` lowers what a script asks for. -/
def sessionHost (nested : Nested) : Host SessionM where
  lower := nested
  ask r := modifyGet (Progress.ask r)
  announce owner fields := modify (Progress.record (.assembling owner fields))

/-- Plays a script in the session. -/
def playNested {α : Type} (nested : Nested) (x : LowerM α) : SessionM (Except Error α) :=
  x.run.run (sessionHost nested)

namespace Setting

variable (s : Setting)

/-- Asks a rule to lower a type. -/
def runRule (nested : Nested) (rule : Rule) (i : TypeId) :
    SessionM (Except Error (Option Handle)) := do
  modify (Progress.record (.ran rule.serial i))
  playNested nested (rule.body s.catalog i)

/-- Lowers a type that the session has not lowered yet. -/
def lowerAnew (nested : Nested) (i : TypeId) : SessionM (Except Error Handle) := do
  match s.registry.ruleFor? s.catalog i with
  | none => playNested nested (builtIn s.catalog i)
  | some rule =>
    match ← s.runRule nested rule i with
    | .error e => return .error e
    | .ok (some h) =>
      modify (Progress.record (.claimed i rule.name))
      return .ok h
    | .ok none =>
      modify (Progress.record (.declined i rule.name))
      playNested nested (builtIn s.catalog i)

/-- Lowers a type, given a way to lower the types that come up meanwhile. -/
def visit (nested : Nested) (i : TypeId) : SessionM (Except Error Handle) := do
  modify (Progress.record (.requested i))
  match (← get).status i with
  | .lowered h =>
    modify (Progress.record (.found h))
    return .ok h
  | .resolving => return .error (.recursive (s.catalog.nameOf i))
  | .fresh =>
    modify (Progress.enter i)
    let answer ← s.lowerAnew nested i
    modify fun p => (p.leave i).keepAnswer i answer
    return answer

/-- **One step of a session**: a type that was lowered before is answered
from what the session keeps, a type in progress is recursive, and any other
type is lowered while it counts as being in progress. -/
theorem run_visit (nested : Nested) (i : TypeId) (p : Progress) :
    (s.visit nested i).run p =
      let p := p.record (.requested i)
      match p.status i with
      | .lowered h => (.ok h, p.record (.found h))
      | .resolving => (.error (.recursive (s.catalog.nameOf i)), p)
      | .fresh =>
        let r := (s.lowerAnew nested i).run (p.enter i)
        (r.1, (r.2.leave i).keepAnswer i r.1) := by
  rw [visit]
  simp only [StateT.run_bind, StateT.run_modify, StateT.run_get, pure_bind]
  cases (p.record (.requested i)).status i <;> rfl

/-- Lowers a type with at most so many types in progress at a time. -/
def lowerUpTo : Nat → TypeId → SessionM (Except Error Handle)
  | 0, i => return .error (.recursive (s.catalog.nameOf i))
  | depth + 1, i => s.visit (lowerUpTo depth) i

theorem lowerUpTo_succ (depth : Nat) (i : TypeId) :
    s.lowerUpTo (depth + 1) i = s.visit (s.lowerUpTo depth) i := rfl

/-- More than all identifiers in progress at a time. -/
def depthLimit : Nat := UInt32.size + 1

/-- Lowers a type. -/
def lower (i : TypeId) : SessionM (Except Error Handle) := s.lowerUpTo depthLimit i

/-- Asks one rule to lower a type. The type does not count as being lowered
meanwhile, and the session does not keep the answer. -/
def invoke (rule : Rule) (i : TypeId) : SessionM (Except Error (Option Handle)) :=
  s.runRule s.lower rule i

/-- Puts together an aggregate for `owner`, and lists the source types that
this asked for itself. -/
def assemble (owner : TypeId) (fields : List Field) (policy : Policy) :
    SessionM (Except Error Handle × List TypeId) :=
  ((Lowering.assemble s.catalog owner fields policy).run.run
    (sessionHost s.lower).recording).run []

end Setting

/-- A session at rest: its setting, the universe it lowers into, and what it
keeps from one call to the next. -/
structure Session where
  setting : Setting
  /-- The number of the universe. -/
  site : Nat
  lowered : List (TypeId × Handle) := []
  resolving : List TypeId := []

namespace Session

/-- What a source type was lowered to. -/
def lowered? (s : Session) (i : TypeId) : Option Handle := s.lowered.lookup i

/-- The session at work in its universe, with an empty log. -/
def start (s : Session) (minter : Universe) : Progress :=
  { minter, lowered := s.lowered, resolving := s.resolving }

/-- The session at rest again. -/
def rest (s : Session) (p : Progress) : Session :=
  { s with lowered := p.lowered, resolving := p.resolving }

end Session

end DeviceTypes.Lowering
