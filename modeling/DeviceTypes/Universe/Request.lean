import DeviceTypes.Universe.Basic
/-!
# Requests to a universe

Everything a universe can be asked, as data, with the type of each answer.
A rule that only holds requests cannot touch a universe in any other way.
What a request leaves in the log is read off its answer (`events`): only a
request for an aggregate leaves anything.
-/

namespace DeviceTypes

/-- A question or an order to a universe. -/
inductive Request where
  | pointer (pointee : Handle) (space : AddressSpace)
  | array (element : Handle) (length : UInt64)
  | aggregate (policy : Policy) (members : List Member)
  | layoutOf (h : Handle)
  | shapeOf (h : Handle)
  | passedByReference (h : Handle)
  | spell (h : Handle)
  | contains (h : Handle)
  | intern (s : Shape)
  | find? (s : Shape)

namespace Request

/-- The type of the answer to a request. -/
def Answer : Request → Type
  | pointer .. | array .. | aggregate .. => Except Rejection Handle
  | layoutOf _ => Except Rejection Layout
  | shapeOf _ => Except Rejection Shape
  | passedByReference _ => Except Rejection Bool
  | spell _ => String
  | contains _ => Bool
  | intern _ => Handle
  | find? _ => Option Handle

end Request

/-- What happens to aggregates, for whoever follows a universe. -/
inductive MintEvent where
  /-- An aggregate with so many members was asked for. -/
  | requested (kind : AggregateKind) (members : Nat)
  /-- The universe numbered `minter` minted an aggregate of this size and
  alignment, or found it again. -/
  | minted (handle : Handle) (size align minter : Nat)
  deriving DecidableEq

namespace Universe

/-- The answer to a request, and the universe after it. -/
def answer : (r : Request) → StateM Universe r.Answer
  | .pointer pointee space => (Universe.pointer pointee space).run
  | .array element length => (Universe.array element length).run
  | .aggregate policy members => (Universe.aggregate policy members).run
  | .layoutOf h => (Universe.layoutOf h).run
  | .shapeOf h => return (← get).shapeOf h
  | .passedByReference h => return (← get).passedByReference h
  | .spell h => return (← get).spell h
  | .contains h => return (← get).table.contains h
  | .intern s => modifyGet fun u => let (h, table) := u.table.intern s; (h, { u with table })
  | .find? s => return (← get).table.find? s

/-- What an accepted aggregate leaves in the log. -/
def mintedEvents (u : Universe) : Except Rejection Handle → List MintEvent
  | .ok h =>
    match u.layouts.find? h with
    | some l => [.minted h l.size l.align u.number]
    | none => []
  | .error _ => []

/-- What a request leaves in the log, given its answer and the universe
after it. -/
def events (u : Universe) : (r : Request) → r.Answer → List MintEvent
  | .aggregate policy members, answer =>
    .requested policy.kind members.length :: u.mintedEvents answer
  | .pointer .., _ | .array .., _ | .layoutOf _, _ | .shapeOf _, _ | .passedByReference _, _
  | .spell _, _ | .contains _, _ | .intern _, _ | .find? _, _ => []

/-- The answer to a request, what it leaves in the log, and the universe
after it. -/
def perform (u : Universe) (r : Request) : r.Answer × List MintEvent × Universe :=
  let (a, u') := ((answer r).run u).run
  (a, u'.events r a, u')

end Universe

end DeviceTypes
