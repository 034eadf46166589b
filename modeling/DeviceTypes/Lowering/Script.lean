import DeviceTypes.Lowering.Error
import DeviceTypes.Source.Descriptor
import DeviceTypes.Universe.Request
/-!
# Lowering scripts

What a rule does to lower a type, written down as data: it can have another
source type lowered, put a request to the universe, announce that it puts
an aggregate together, and answer. It learns about its session only from
the answers it gets, and it changes nothing in any other way.

A host plays a script by answering its requests (`Script.run`). A session
is a host, and so is any stand-in for one.
-/

namespace DeviceTypes.Lowering

open Source (TypeId)

/-- The steps of a computation that runs inside a session. -/
inductive Script (α : Type) : Type where
  /-- The answer. -/
  | done (a : α)
  /-- Have a source type lowered. -/
  | lower (i : TypeId) (next : Except Error Handle → Script α)
  /-- Put a request to the universe. -/
  | ask (r : Request) (next : r.Answer → Script α)
  /-- Announce an aggregate with so many fields for `owner`. -/
  | announce (owner : TypeId) (fields : Nat) (next : Script α)

/-- What a script needs of the place it runs in. -/
structure Host (m : Type → Type) where
  lower : TypeId → m (Except Error Handle)
  ask : (r : Request) → m r.Answer
  announce : TypeId → Nat → m Unit

/-- A host that also lists the source types it was asked to lower, in
order. What a request sets off in turn is not listed. -/
def Host.recording {m : Type → Type} [Monad m] (host : Host m) :
    Host (StateT (List TypeId) m) where
  lower i := do
    modify (· ++ [i])
    host.lower i
  ask r := host.ask r
  announce owner fields := host.announce owner fields

namespace Script

variable {α β γ : Type}

/-- One script, then the one its answer chooses. -/
def bind (x : Script α) (f : α → Script β) : Script β :=
  match x with
  | done a => f a
  | lower i next => lower i fun r => (next r).bind f
  | ask r next => ask r fun a => (next a).bind f
  | announce owner fields next => announce owner fields (next.bind f)

instance : Monad Script where
  pure := done
  bind := bind

/-- Plays a script at a host. -/
def run {m : Type → Type} [Monad m] (host : Host m) : Script α → m α
  | done a => pure a
  | lower i next => do
    let r ← host.lower i
    (next r).run host
  | ask r next => do
    let a ← host.ask r
    (next a).run host
  | announce owner fields next => do
    host.announce owner fields
    next.run host

theorem bind_done (x : Script α) : x.bind done = x := by
  induction x with
  | done a => rfl
  | lower i next ih => simp [bind, ih]
  | ask r next ih => simp [bind, ih]
  | announce owner fields next ih => simp [bind, ih]

theorem bind_assoc (x : Script α) (f : α → Script β) (g : β → Script γ) :
    (x.bind f).bind g = x.bind fun a => (f a).bind g := by
  induction x with
  | done a => rfl
  | lower i next ih => simp [bind, ih]
  | ask r next ih => simp [bind, ih]
  | announce owner fields next ih => simp [bind, ih]

instance : LawfulMonad Script :=
  LawfulMonad.mk' Script bind_done (fun _ _ => rfl) bind_assoc

/-- **Playing a script step by step is playing it whole.** -/
theorem run_bind {m : Type → Type} [Monad m] [LawfulMonad m] (host : Host m) (x : Script α)
    (f : α → Script β) : (x.bind f).run host = x.run host >>= fun a => (f a).run host := by
  induction x with
  | done a => simp [bind, run]
  | lower i next ih => simp [bind, run, ih]
  | ask r next ih => simp [bind, run, ih]
  | announce owner fields next ih => simp [bind, run, ih]

end Script

/-- A script that may fail. -/
abbrev LowerM := ExceptT Error Script

namespace LowerM

/-- Has a source type lowered. -/
def lower (i : TypeId) : LowerM Handle := ExceptT.mk (.lower i .done)

/-- Puts a request to the universe. -/
def ask (r : Request) : LowerM r.Answer := ExceptT.lift (.ask r .done)

/-- Announces an aggregate with so many fields for `owner`. -/
def announce (owner : TypeId) (fields : Nat) : LowerM Unit :=
  ExceptT.lift (.announce owner fields (.done ()))

/-- The computation with its failure, if it fails, put in other words. -/
def reword {α : Type} (f : Error → Error) (x : LowerM α) : LowerM α := x.adapt f

end LowerM

end DeviceTypes.Lowering
