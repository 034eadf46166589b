import DeviceTypes.Proofs.Layout.Objections
import DeviceTypes.Proofs.Universe.Lasting
import DeviceTypes.Proofs.Workspace.Foreign
import DeviceTypes.Proofs.Workspace.MemoryMap
/-!
# Refused aggregates

A request for an aggregate is refused for the first thing that is wrong with
it, in the order of `Aggregate.objections`, and for nothing else. By then
members may have been laid out and their layouts cached, but a refusal
leaves every table and every answer as it was (`aggregate_refused_for_first`).
-/

namespace DeviceTypes

namespace Universe

variable {u : Universe} {policy : Policy} {members : List Member} {e : Rejection}

/-- What has been laid out was settled. -/
theorem Sound.settled_of_layoutIn (hu : u.Sound) {c : Compound} {l : Layout}
    (hl : c.layoutIn u.target u.layoutAnew = .ok l) : ∀ x ∈ c.layoutParts, u.table.Settled x := by
  intro x hx
  obtain ⟨m, hm⟩ := Compound.layoutIn_parts hl x hx
  obtain ⟨s, hs, -⟩ := hu.ordered.get?_of_layoutAnew hm
  exact Table.settled_of_get? hs

/-- **What becomes of a request for an aggregate.** Refused by the checks or by the
layout, it leaves only layouts behind, and true ones; else it is in the table. -/
theorem Sound.run_aggregate_cases (hu : u.Sound) (policy : Policy) (members : List Member) :
    (∃ e layouts, Sound { u with layouts } ∧
      (aggregate policy members).run u = (.error e, { u with layouts }) ∧
      ((policy.aggregate members).check u.target = .error e ∨
        (policy.aggregate members).check u.target = .ok () ∧
          (policy.aggregate members).layoutIn u.layoutAnew = .error e)) ∨
    ∃ l layouts, (policy.aggregate members).check u.target = .ok () ∧
      (policy.aggregate members).layoutIn u.layoutAnew = .ok l ∧
      (aggregate policy members).run u =
        (.ok (u.table.handleOf (.aggregate (policy.aggregate members))),
          { u with table := u.table.adding (.aggregate (policy.aggregate members)), layouts }) := by
  rw [run_aggregate]
  rcases (policy.aggregate members).check u.target with e | ⟨⟩
  · exact Or.inl ⟨e, u.layouts, hu, rfl, Or.inl rfl⟩
  rcases hl : (policy.aggregate members).layoutIn u.layoutAnew with e | l
  · obtain ⟨layouts, hs, hr⟩ :=
      hu.run_mint_of_error (c := .aggregate (policy.aggregate members)) hl
    exact Or.inl ⟨e, layouts, hs, hr, Or.inr ⟨rfl, rfl⟩⟩
  · obtain ⟨layouts, -, hr⟩ := hu.run_mint_of_ok (c := .aggregate (policy.aggregate members))
      (hu.settled_of_layoutIn (c := .aggregate _) hl) hl
    exact Or.inr ⟨l, layouts, rfl, rfl, hr⟩

/-- **An aggregate is refused for the first of the objections.** -/
theorem Sound.run_aggregate_eq_error_iff (hu : u.Sound) :
    ((aggregate policy members).run u).1 = .error e ↔
      FirstOf ((policy.aggregate members).objections u.target u.layoutAnew) e := by
  have hpos : ∀ m ∈ (policy.aggregate members).members, ∀ l,
      u.layoutAnew m.type = .ok l → 0 < l.align :=
    fun m _ l hl => hu.ordered.align_pos_layoutAnew hl
  rw [Aggregate.objections, firstOf_append]
  simp only [← Aggregate.check_eq_error_iff, ← Aggregate.layoutIn_eq_error_iff hpos]
  rcases hu.run_aggregate_cases policy members with
    ⟨e₀, layouts, -, hr, hcheck | ⟨hcheck, hl⟩⟩ | ⟨l, layouts, hcheck, hl, hr⟩
  · simp [hr, hcheck]
  · simp [hr, hcheck, hl]
  · simp [hr, hcheck, hl]

end Universe

namespace World

variable {w : World} {context : Nat} {u : Universe}

/-- **A call that leaves only layouts behind leaves every answer as it was**, in
every context. -/
theorem Reachable.answer_run_ask (hw : w.Reachable) (hu : w.universe? context = some u)
    {r : Request} {layouts : LayoutCache} (hr : (u.perform r).2.2 = { u with layouts })
    (hs : Universe.Sound { u with layouts }) {other : Nat} {v : Universe}
    (hv : w.universe? other = some v) {r' : Request}
    (hr' : ∀ h ∈ r'.handles, w.workspace.Issued h) :
    (w.run (.ask context r)).answer other r' = w.answer other r' := by
  obtain ⟨n, hn, hun⟩ := Option.bind_eq_some_iff.1 hu
  obtain ⟨m, hm, hvm⟩ := Option.bind_eq_some_iff.1 hv
  have hrun : w.run (.ask context r) =
      { w with workspace := w.workspace.put { u with layouts } } := by
    rw [run, hn, Option.bind_some, Workspace.ask, hun, ← hr]
    rfl
  have hput : u ≤ { u with layouts } := ⟨rfl, rfl, le_refl _⟩
  obtain ⟨hsound, hgrows⟩ := hw.sound.put hun hput hs
  obtain ⟨v', hv', hle⟩ := hgrows.universe? hvm
  -- no table has changed, so `v'` has the very table of `v`
  have htable : v'.table = v.table := by
    have hnew := hsound.table_eq hv' (Table.number_of_le (Universe.table_of_le hle))
    rw [hw.sound.tables_put_self hun, hw.sound.table_eq hvm rfl] at hnew
    exact (Option.some.inj hnew).symm
  have hanswer : (w.run (.ask context r)).universe? other = some v' := by
    rw [hrun, World.universe?, hm, Option.bind_some]
    exact hv'
  rw [answer_eq hanswer, answer_eq hv]
  exact congrArg some ((hw.universe hv).perform_eq (hsound.universe hv') htable
    (Universe.target_of_le hle) fun h hh => hw.settled hv (hr' h hh)).1

/-- **An aggregate is refused for the first thing wrong with it, and for nothing
else.** In any context, under any policy and whatever the members:

* the request is refused with `e` exactly if `e` is the first of the objections;
* if there is none, it is answered with a handle, behind which there is then the
  aggregate asked for, with what was left open at its default;
* a refusal leaves every table and every answer as it was. -/
theorem aggregate_refused_for_first (hw : w.Reachable) (hu : w.universe? context = some u)
    (policy : Policy) (members : List Member) :
    (∀ e, w.answer context (.aggregate policy members) = some (Except.error e) ↔
      FirstOf ((policy.aggregate members).objections u.target u.layoutAt) e) ∧
    ((∀ objects ∈ (policy.aggregate members).objections u.target u.layoutAt, ∀ e, ¬ objects e) →
      ∃ h u', w.answer context (.aggregate policy members) = some (Except.ok h) ∧
        (w.run (.ask context (.aggregate policy members))).universe? context = some u' ∧
        u'.aggregateOf h = .ok (some (policy.aggregate members))) ∧
    ∀ e, w.answer context (.aggregate policy members) = some (Except.error e) →
      (w.run (.ask context (.aggregate policy members))).workspace.tables = w.workspace.tables ∧
      ∀ other v, w.universe? other = some v → ∀ r : Request,
        (∀ h ∈ r.handles, w.workspace.Issued h) →
        (w.run (.ask context (.aggregate policy members))).answer other r = w.answer other r := by
  have hsound := hw.universe hu
  have hat : u.layoutAt = u.layoutAnew := funext hsound.layoutAt_eq
  have hanswer : w.answer context (.aggregate policy members) =
      some ((Universe.aggregate policy members).run u).1 := answer_eq hu _
  have hfirst : ∀ e, w.answer context (.aggregate policy members) = some (Except.error e) ↔
      FirstOf ((policy.aggregate members).objections u.target u.layoutAt) e := by
    intro e
    rw [hanswer, hat, ← hsound.run_aggregate_eq_error_iff]
    exact Option.some_inj
  refine ⟨hfirst, fun hnone => ?_, fun e he => ?_⟩
  · rcases hsound.run_aggregate_cases policy members with
      ⟨e, layouts, -, hr, -⟩ | ⟨l, layouts, -, hl, hr⟩
    · obtain ⟨objects, hmem, e', he'⟩ := exists_firstOf_iff.1
        ⟨e, (hfirst e).1 (hanswer.trans (congrArg (fun x => some x.1) hr))⟩
      exact absurd he' (hnone objects hmem e')
    · obtain ⟨u', hu', -, -, htable⟩ := hw.universe?_run_ask hu
        (r := .aggregate policy members) (hsound.settled_of_layoutIn (c := .aggregate _) hl)
      have hadded : u'.table = u.table.adding (.aggregate (policy.aggregate members)) :=
        htable.trans (congrArg (fun x => x.2.table) hr)
      refine ⟨_, u', hanswer.trans (congrArg (fun x => some x.1) hr), hu', ?_⟩
      have hget : u'.table.get? (u.table.handleOf (.aggregate (policy.aggregate members))) =
          some (.compound (.aggregate (policy.aggregate members))) := by
        rw [hadded]
        exact Table.get?_of_find? (Table.find?_intern u.table (.compound _))
      rw [Universe.aggregateOf, Universe.shapeOf_eq_ok.2 hget]
      rfl
  · rcases hsound.run_aggregate_cases policy members with
      ⟨e', layouts, hs, hr, -⟩ | ⟨l, layouts, -, -, hr⟩
    · have hleft : (u.perform (.aggregate policy members)).2.2 = { u with layouts } :=
        congrArg Prod.snd hr
      exact ⟨hw.tables_run_ask hu hleft,
        fun other v hv r hr' => hw.answer_run_ask hu hleft hs hv hr'⟩
    · rw [hanswer, hr] at he
      cases he

/-- A struct with an empty name in second place, a repeated one behind it, a member
unknown to the table and an alignment above the maximum is refused for the empty
name; the table stays, and a sound request is accepted. -/
theorem aggregate_refused_for_first_of_four :
    ∃ (w : World) (u : Universe) (policy : Policy) (members : List Member),
      w.Reachable ∧ w.universe? 0 = some u ∧
      FirstOf ((policy.aggregate members).objections u.target u.layoutAt) (.unnamedMember 1) ∧
      (∃ objects ∈ (policy.aggregate members).objections u.target u.layoutAt,
        objects (.alignmentTooLarge 512 256)) ∧
      (w.run (.ask 0 (.aggregate policy members))).workspace.tables = w.workspace.tables ∧
      ∃ h u', (w.run (.ask 0 (.aggregate {} [⟨"a", .primitive .u8⟩]))).universe? 0 = some u' ∧
        u'.aggregateOf h = .ok (some (Policy.aggregate {} [⟨"a", .primitive .u8⟩])) := by
  let calls : List Call := [.newTable, .newContext 0 .device64]
  let policy : Policy := { alignment := some (.explicit ⟨9⟩) }
  let members : List Member := [⟨"a", .primitive .u8⟩, ⟨"", .loose ⟨12, by decide⟩⟩,
    ⟨"a", .primitive .u8⟩]
  obtain ⟨w, hreplay⟩ : ∃ w, World.empty.replay calls = some w := ⟨_, rfl⟩
  have hw : w.Reachable := leads_of_replay hreplay
  obtain ⟨u, hu, htarget⟩ : ∃ u, w.universe? 0 = some u ∧ u.target = .device64 := by
    cases hreplay
    exact ⟨_, rfl, rfl⟩
  have hrefused : w.answer 0 (.aggregate policy members) =
      some (Except.error (.unnamedMember 1)) := by
    cases hreplay
    rfl
  obtain ⟨hfirst, -, hleft⟩ := aggregate_refused_for_first hw hu policy members
  obtain ⟨hfirst', haccepted, -⟩ :=
    aggregate_refused_for_first hw hu {} [⟨"a", .primitive .u8⟩]
  have hnone : ∀ objects ∈ (Policy.aggregate {} [⟨"a", .primitive .u8⟩]).objections u.target
      u.layoutAt, ∀ e, ¬ objects e := by
    intro objects hmem e he
    obtain ⟨e', he'⟩ := exists_firstOf_iff.2 ⟨objects, hmem, e, he⟩
    have hanswer := (hfirst' e').2 he'
    cases hreplay
    cases hanswer
  obtain ⟨h, u', -, hu', hmade⟩ := haccepted hnone
  refine ⟨w, u, policy, members, hw, hu, (hfirst _).1 hrefused, ?_, (hleft _ hrefused).1,
    h, u', hu', hmade⟩
  rw [htarget]
  exact ⟨_, List.mem_cons_of_mem _ (List.mem_cons_of_mem _ (List.mem_cons_self ..)), ⟨9⟩, rfl,
    by decide, rfl⟩

end World

end DeviceTypes
