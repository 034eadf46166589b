import DeviceTypes.Proofs.Lowering.Meaning
/-!
# What a session keeps does not show

A session answers from what it keeps, and a session opened just now has
nothing to answer from. Both come out as lowering without a session does,
and plant the same trees in the same table, so they give the same answer:
one handle, or one error in all its layers (`lower_eq_lower_opened`). A
call made once more finds all it finished the first time kept.
-/

namespace DeviceTypes.Lowering

open Source (TypeId)

namespace Library

variable {L : Library} {target : Target} {p : Progress}

/-- **A session answers as one opened just now**, on the universe as it is. -/
theorem lower_eq_of_inside (hp : p.Inside L target []) (i : TypeId) :
    ((L.setting.lower i).run p).1 = ((L.setting.lower i).run (opened p.minter)).1 := by
  have hopened : (opened p.minter).Inside L target [] :=
    hp.target_eq ▸ inside_opened L hp.sound
  have hold := lower_follows hp i
  have hnew := lower_follows hopened i
  -- one expansion says what either of them finishes, and so plants in the table
  refine hold.answer_eq hnew ?_
  rw [hold.steps.planted, hnew.steps.planted]
  rfl

/-- **The same call again** answers the same, plants nothing and keeps nothing. -/
theorem lower_again (hp : p.Inside L target []) (i : TypeId) :
    let r := (L.setting.lower i).run p
    let r' := (L.setting.lower i).run r.2
    r'.1 = r.1 ∧ r'.2.minter.table = r.2.minter.table ∧ r'.2.lowered = r.2.lowered := by
  intro r r'
  have hfirst : Follows L target [] IsTree
    (L.expandUpTo target Setting.depthLimit [] i) p r := lower_follows hp i
  have hagain : Follows L target [] IsTree
    (L.expandUpTo target Setting.depthLimit [] i) r.2 r' := lower_follows hfirst.steps.inside i
  have htable : r'.2.minter.table = r.2.minter.table := by
    rw [hagain.steps.planted]
    exact hfirst.steps.inside.plantAll_of_kept (expandUpTo_correct _ _ i).meets hfirst.steps.kept
  exact ⟨hagain.answer_eq hfirst htable, htable, hagain.steps.same hfirst.steps.kept⟩

/-- **What a session keeps is transparent.** After any calls, succeeded or
failed, lowering a type answers what a session newly opened on the same
context would answer then, be it a handle or an error. The same call right
after answers the same and changes neither the table nor what is kept. -/
theorem lower_eq_lower_opened (L : Library) {w : World} (hw : w.Reachable) {context : Nat}
    {u : Universe} (hu : w.universe? context = some u) (calls : List Call) (i : TypeId) :
    let p := L.session u calls
    let r := (L.setting.lower i).run p
    let r' := (L.setting.lower i).run r.2
    r.1 = ((L.setting.lower i).run (opened p.minter)).1 ∧
      r'.1 = r.1 ∧ r'.2.minter.table = r.2.minter.table ∧ r'.2.lowered = r.2.lowered := by
  have hinside := inside_session L (hw.universe hu) calls
  exact ⟨lower_eq_of_inside hinside i, lower_again hinside i⟩

/-- A session that lowered a composite, was refused one that refers to itself,
and put together another by hand, is refused the same one again as a new
session is, in so many words. -/
theorem lower_eq_lower_opened_linked :
    ∃ (w : World) (u : Universe), w.Reachable ∧ w.universe? 0 = some u ∧
      let p := linked.session u [.lower ⟨14⟩, .lower ⟨15⟩,
        .assemble ⟨12⟩ [⟨"only", ⟨13⟩⟩] .union]
      let r := (linked.setting.lower ⟨15⟩).run p
      r.1 = .error (.field "Loop" "again" (.recursive "Loop")) ∧
        ((linked.setting.lower ⟨15⟩).run (opened p.minter)).1 = r.1 ∧
        ((linked.setting.lower ⟨15⟩).run r.2).1 = r.1 := by
  have hrun : ((World.empty.replay [.newTable, .newContext 0 .device64]).bind fun w =>
      w.universe? 0).map (fun u => Outcome.error? ((linked.setting.lower ⟨15⟩).run
        (linked.session u [.lower ⟨14⟩, .lower ⟨15⟩,
          .assemble ⟨12⟩ [⟨"only", ⟨13⟩⟩] .union]))) =
      some (some (.field "Loop" "again" (.recursive "Loop"))) := by decide +kernel
  obtain ⟨u, huw, herror⟩ := Option.map_eq_some_iff.1 hrun
  obtain ⟨w, hreplay, hu⟩ := Option.bind_eq_some_iff.1 huw
  have hw : w.Reachable := World.leads_of_replay hreplay
  have hsame := lower_eq_lower_opened linked hw hu
    [.lower ⟨14⟩, .lower ⟨15⟩, .assemble ⟨12⟩ [⟨"only", ⟨13⟩⟩] .union] ⟨15⟩
  exact ⟨w, u, hw, hu, Outcome.error?_eq_some_iff.1 herror, hsame.1.symm, hsame.2.1⟩

end Library

end DeviceTypes.Lowering
