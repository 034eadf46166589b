import DeviceTypes.Proofs.Lowering.Play
/-!
# What happens during a call

A rule may have any type lowered, at any point, and it may go on after a
failure. Each of these nested lowerings runs rules of its own, so a call to
a session is a tree of lowerings, of which the caller sees the root only.

`history` lists what happens during some calls in the order in which it
happens, at every depth, each moment with the session as it is then. A
moment is taken where the session itself does the thing, and its answers
are the answers of the session: the listing follows a script through the
same nested lowerings that play it.
-/

namespace DeviceTypes.Lowering

open Source (TypeId)

/-- Something that happens in a session, and the session as it is then. -/
inductive Moment where
  /-- A type is asked for. -/
  | asked (i : TypeId) (p : Progress)
  /-- The rule in charge of a type is asked to lower it. -/
  | ran (rule : Rule) (i : TypeId) (p : Progress)
  /-- A type is left to the built-in mapping. -/
  | mapped (i : TypeId) (p : Progress)
  /-- A rule is asked from outside to lower a type. -/
  | invoked (rule : Rule) (i : TypeId) (p : Progress)
  /-- A type that was asked for in the session `p` is answered. -/
  | answered (i : TypeId) (p : Progress) (answer : Except Error Handle) (q : Progress)

/-- Whether an event is a type asked for or a rule that runs. -/
def Event.opens : Event → Bool
  | .requested _ | .ran .. => true
  | .found _ | .claimed .. | .declined .. | .assembling .. | .mint _ => false

namespace Moment

/-- The session at a moment. -/
def now : Moment → Progress
  | asked _ p | ran _ _ p | mapped _ p | invoked _ _ p => p
  | answered _ _ _ q => q

/-- What a moment leaves in the log. -/
def event? : Moment → Option Event
  | asked i _ => some (.requested i)
  | ran rule i _ | invoked rule i _ => some (.ran rule.serial i)
  | mapped .. | answered .. => none

end Moment

/-- The types asked for and the rules run so far, as the log has them. -/
def Progress.openings (p : Progress) : List Event := p.log.toList.filter Event.opens

/-- What happens while a type is lowered. -/
abbrev Watch := TypeId → Progress → List Moment

/-- What happens while a script is played: all that happens inside the types it
has lowered. -/
def Script.moments {α : Type} (nested : Nested) (inner : Watch) :
    Script α → Progress → List Moment
  | done _, _ => []
  | lower i next, p =>
    let r := (nested i).run p
    inner i p ++ (next r.1).moments nested inner r.2
  | ask r next, p =>
    let a := p.ask r
    (next a.1).moments nested inner a.2
  | announce owner fields next, p => next.moments nested inner (p.record (.assembling owner fields))

namespace Setting

variable (s : Setting)

/-- What happens while the built-in mapping lowers a type. -/
def momentsMapped (nested : Nested) (inner : Watch) : Watch := fun i p =>
  .mapped i p :: (builtIn s.catalog i).run.moments nested inner p

/-- What happens while a type is lowered that the session has not lowered yet. -/
def momentsAnew (nested : Nested) (inner : Watch) : Watch := fun i p =>
  match s.registry.ruleFor? s.catalog i with
  | none => s.momentsMapped nested inner i p
  | some rule =>
    let r := (s.runRule nested rule i).run p
    .ran rule i p ::
      ((rule.body s.catalog i).run.moments nested inner (p.record (.ran rule.serial i)) ++
        match r.1 with
        | .ok none => s.momentsMapped nested inner i (r.2.record (.declined i rule.name))
        | .ok (some _) | .error _ => [])

/-- What happens while a type is lowered, from its request to its answer. -/
def momentsUpTo : Nat → Watch
  | 0, i, p => [.asked i p, .answered i p (.error (.recursive (s.catalog.nameOf i))) p]
  | depth + 1, i, p =>
    let r := (s.lowerUpTo (depth + 1) i).run p
    let asked := p.record (.requested i)
    .asked i p ::
      ((match asked.status i with
        | .lowered _ | .resolving => []
        | .fresh =>
          s.momentsAnew (s.lowerUpTo depth) (momentsUpTo depth) i (asked.enter i)) ++
        [.answered i p r.1 r.2])

/-- What happens while a type is lowered. -/
def moments : Watch := s.momentsUpTo depthLimit

/-- A call to a session: to lower a type, or to run a rule, registered or not. -/
inductive Call where
  | lower (i : TypeId)
  | invoke (rule : Rule) (i : TypeId)

/-- What happens during a call, and the session after it. -/
def call (p : Progress) : Call → List Moment × Progress
  | .lower i => (s.moments i p, ((s.lower i).run p).2)
  | .invoke rule i =>
    (.invoked rule i p ::
      (rule.body s.catalog i).run.moments s.lower s.moments (p.record (.ran rule.serial i)),
      ((s.invoke rule i).run p).2)

/-- What happens during some calls, and the session after them. Each call finds
the universe as others have left it. -/
def history (p : Progress) : List (Universe × Call) → List Moment × Progress
  | [] => ([], p)
  | (u, c) :: rest =>
    let r := s.call { p with minter := u } c
    let rs := history r.2 rest
    (r.1 ++ rs.1, rs.2)

end Setting

end DeviceTypes.Lowering
