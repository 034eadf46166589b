import DeviceTypes.Proofs.Lowering.Simulation
/-!
# Calls to a session

A session is opened in a universe, and from then on it is called: to lower
a type, to run one rule on a type, or to put an aggregate together. Each
call may fail. Whatever it answers, the session is in the middle of
nothing afterwards and keeps nothing but what is right
(`inside_session`), so the next type is lowered as if without a session
(`lower_follows`).
-/

namespace DeviceTypes.Lowering

open Source (Field TypeId)

namespace Library

/-- A call to a session. -/
inductive Call where
  | lower (i : TypeId)
  | invoke (form : Form) (i : TypeId)
  | assemble (owner : TypeId) (fields : List Field) (policy : Policy)

/-- A session opened in a universe. -/
def opened (u : Universe) : Progress := { minter := u }

variable (L : Library)

/-- The session after a call, whether it succeeded or failed. -/
def after (p : Progress) : Call → Progress
  | .lower i => ((L.setting.lower i).run p).2
  | .invoke form i => ((L.setting.invoke form.rule i).run p).2
  | .assemble owner fields policy => ((L.setting.assemble owner fields policy).run p).2

/-- The session that was opened in a universe, after some calls. -/
def session (u : Universe) (calls : List Call) : Progress := calls.foldl L.after (opened u)

variable {L} {target : Target} {p : Progress}

theorem inside_opened (L : Library) {u : Universe} (hu : u.Sound) :
    (opened u).Inside L u.target [] where
  sound := hu
  target_eq := rfl
  resolving_eq := rfl
  lowered i h hi := by cases hi
  closed i hi := by cases hi

/-- **Between calls a type is lowered as if without a session.** -/
theorem lower_follows (hp : p.Inside L target []) (i : TypeId) :
    Follows L target [] IsTree (L.expandUpTo target Setting.depthLimit [] i) p
      ((L.setting.lower i).run p) :=
  lowerUpTo_follows hp (above_nil L i) List.nodup_nil (Nat.lt_succ_self _)

theorem assemble_builds_between (hp : p.Inside L target []) (owner : TypeId)
    (fields : List Field) (policy : Policy) :
    Builds L target [] (L.expandAssembly target (L.expandUpTo target Setting.depthLimit [])
      owner fields policy) p
      ((playNested L.setting.lower (assemble L.catalog owner fields policy)).run p) :=
  assemble_builds owner policy (fun j _ _ hq => lower_follows hq j) hp

/-- **A call** leaves the session right, and in the middle of nothing. -/
theorem inside_after (hp : p.Inside L target []) (c : Call) :
    (L.after p c).Inside L target [] := by
  -- a rule or an assembly is played between two types, and its answer is not kept
  cases c with
  | lower i => exact (lower_follows hp i).steps.inside
  | invoke form i =>
    change (((L.setting.runRule L.setting.lower form.rule i).run p).2).Inside L target []
    rw [run_runRule]
    rcases form.claim? L.catalog i with - | ⟨fields, policy⟩
    · exact hp.record _
    · exact (assemble_builds_between (hp.record _) i fields policy).inside
  | assemble owner fields policy =>
    obtain ⟨asked, hrun⟩ := run_recording (sessionHost L.setting.lower)
      (assemble L.catalog owner fields policy).run [] p
    change (((((assemble L.catalog owner fields policy).run.run
      (sessionHost L.setting.lower).recording).run []).run p).2).Inside L target []
    rw [hrun]
    exact (assemble_builds_between hp owner fields policy).inside

/-- **A session after any calls** is right, and in the middle of nothing. -/
theorem inside_session (L : Library) {u : Universe} (hu : u.Sound) (calls : List Call) :
    (L.session u calls).Inside L u.target [] := by
  have hfold : ∀ p : Progress, p.Inside L u.target [] →
      (calls.foldl L.after p).Inside L u.target [] := by
    induction calls with
    | nil => exact fun p hp => hp
    | cons c rest ih => exact fun p hp => ih _ (inside_after hp c)
  exact hfold _ (inside_opened L hu)

end Library

end DeviceTypes.Lowering
