import DeviceTypes.Lowering.Session
/-!
# Playing scripts in a session

What each step of a script does to the session it is played in. A script
that fails stops there (`run_playNested_bind`), rewording touches nothing
but the error, and keeping a list of what was asked for changes neither
the answer nor the session (`run_recording`).
-/

namespace DeviceTypes.Lowering

open Source (Catalog Field TypeId)

/-- What a computation answered in a session, and the session after it. -/
abbrev Outcome (α : Type) := Except Error α × Progress

/-- What comes of going on after an answer; a failure ends it. -/
def Outcome.andThen {α β : Type} (r : Outcome α) (next : α → Progress → Outcome β) : Outcome β :=
  match r with
  | (.ok a, p) => next a p
  | (.error e, p) => (.error e, p)

/-- The error of a computation that failed. -/
def Outcome.error? {α : Type} (r : Outcome α) : Option Error :=
  match r.1 with
  | .ok _ => none
  | .error e => some e

theorem Outcome.error?_eq_some_iff {α : Type} {r : Outcome α} {e : Error} :
    r.error? = some e ↔ r.1 = .error e := by
  rw [error?]
  cases r.1 <;> simp

/-- The answer of a computation that succeeded. -/
def Outcome.answer? {α : Type} (r : Outcome α) : Option α := r.1.toOption

theorem Outcome.answer?_eq_some_iff {α : Type} {r : Outcome α} {a : α} :
    r.answer? = some a ↔ r.1 = .ok a := by
  rw [answer?]
  cases r.1 <;> simp [Except.toOption]

variable {α β : Type} (nested : Nested) (p : Progress)

theorem run_playNested_lower (i : TypeId) :
    (playNested nested (LowerM.lower i)).run p = (nested i).run p := rfl

theorem run_playNested_announce (owner : TypeId) (fields : Nat) :
    (playNested nested (LowerM.announce owner fields)).run p =
      (.ok (), p.record (.assembling owner fields)) := rfl

/-- **One script, then the next**, unless the first fails. -/
theorem run_playNested_bind (x : LowerM α) (f : α → LowerM β) :
    (playNested nested (x >>= f)).run p =
      Outcome.andThen ((playNested nested x).run p) fun a p' =>
        (playNested nested (f a)).run p' := by
  change ((Script.bind x.run (ExceptT.bindCont f)).run (sessionHost nested)).run p = _
  rw [Script.run_bind, StateT.run_bind]
  change _ = Outcome.andThen ((x.run.run (sessionHost nested)).run p) _
  rcases (x.run.run (sessionHost nested)).run p with ⟨e | a, p'⟩ <;> rfl

theorem run_playNested_map (x : LowerM α) (f : α → β) :
    (playNested nested (f <$> x)).run p =
      (((playNested nested x).run p).1.map f, ((playNested nested x).run p).2) := by
  rw [← bind_pure_comp, run_playNested_bind]
  rcases (playNested nested x).run p with ⟨e | a, p'⟩ <;> rfl

theorem run_playNested_reword (f : Error → Error) (x : LowerM α) :
    (playNested nested (x.reword f)).run p =
      (((playNested nested x).run p).1.mapError f, ((playNested nested x).run p).2) := by
  change ((Script.bind x.run fun r => .done (r.mapError f)).run (sessionHost nested)).run p = _
  rw [Script.run_bind, StateT.run_bind]
  rfl

/-- **Recording what is asked for** leaves the answer and the session as they are. -/
theorem run_recording (host : Host SessionM) (x : Script α) (asked : List TypeId)
    (p : Progress) :
    ∃ asked', ((x.run host.recording).run asked).run p =
      ((((x.run host).run p).1, asked'), ((x.run host).run p).2) := by
  induction x generalizing asked p with
  | done a => exact ⟨asked, rfl⟩
  | lower i next ih => exact ih ((host.lower i).run p).1 (asked ++ [i]) ((host.lower i).run p).2
  | ask r next ih => exact ih ((host.ask r).run p).1 asked ((host.ask r).run p).2
  | announce owner fields next ih => exact ih asked ((host.announce owner fields).run p).2

end DeviceTypes.Lowering
