import DeviceTypes.Rejection
import DeviceTypes.Target
/-!
# Aggregate policies and their checks

A request for an aggregate is a list of members and a policy. A policy may
leave its hints open; an open hint means the default, so the aggregate a
request stands for has them all filled in (`Policy.aggregate`).

`Aggregate.check` is what a target asks of an aggregate before it is laid
out: some member, unless empty ones are allowed; names that are neither
empty nor repeated; an explicit alignment within the maximum.
-/

namespace DeviceTypes

/-- How an aggregate is to be laid out and passed. What is left open takes
its default. -/
structure Policy where
  kind : AggregateKind := .struct
  alignment : Option Alignment := none
  packing : Option Packing := none
  passing : Option Passing := none
  deriving DecidableEq

namespace Policy

/-- The policy of a union with every hint open. -/
def union : Policy := { kind := .union }

/-- The aggregate with these members under the policy. -/
def aggregate (p : Policy) (members : List Member) : Aggregate where
  kind := p.kind
  members := members
  alignment := p.alignment.getD .natural
  packing := p.packing.getD .sequential
  passing := p.passing.getD .targetDefault

end Policy

namespace Aggregate

/-- The policy an aggregate states in full. -/
def policy (a : Aggregate) : Policy where
  kind := a.kind
  alignment := some a.alignment
  packing := some a.packing
  passing := some a.passing

/-- The first fault among the names of `members`, of which the first has
position `index` and follows members named `seen`. -/
def nameFault? (index : Nat) (seen : List String) : List Member → Option Rejection
  | [] => none
  | m :: rest =>
    if m.name = "" then some (.unnamedMember index)
    else if m.name ∈ seen then some (.repeatedMember m.name)
    else nameFault? (index + 1) (m.name :: seen) rest

/-- Whether the explicit alignment, if there is one, is within `max`. -/
def checkAlignment (max : Nat) : Alignment → Except Rejection Unit
  | .natural => .ok ()
  | .explicit a => if max < a.bytes then .error (.alignmentTooLarge a.bytes max) else .ok ()

/-- What a target asks of an aggregate before it is laid out. -/
def check (target : Target) (a : Aggregate) : Except Rejection Unit :=
  if a.members.isEmpty && !target.allowsEmpty then .error .noMembers
  else
    match nameFault? 0 [] a.members with
    | some fault => .error fault
    | none => checkAlignment target.maxAlignment.toNat a.alignment

end Aggregate

end DeviceTypes
