import DeviceTypes.Proofs.Table.WellFormed
import DeviceTypes.Proofs.Workspace.Coherence
import Mathlib.Data.List.Forall2
/-!
# Foreign handles

A handle is foreign to a table when it is a bare word past the primitives or
bears another table's number, whatever stands in its slot here. Layouts are
looked up in the cache before the table is asked, and arrays and aggregates
leave the question of ownership to the layout of their parts. That a foreign
handle is turned away nevertheless rests on what the caches hold: a layout
worked out anew, which no foreign handle has (`Sound.find?_of_foreign`).

So a request about a foreign handle is answered that the handle is unknown
and leaves every table as it was (`foreign_unknown`).
-/

namespace DeviceTypes

/-- A handle that the table numbered `n` neither minted nor has as a
primitive. -/
def Handle.Foreign (n : Nat) : Handle → Prop
  | primitive _ => False
  | minted table _ => table ≠ n
  | loose _ => True

/-! ## Members before one that has no layout -/

section Members

variable {f : Handle → Except Rejection Layout}

theorem Placement.placeEach_append (kind : AggregateKind) (packed : Bool) (p : Placement)
    (rs rs' : List (Except Rejection Layout)) :
    p.placeEach kind packed (rs ++ rs') =
      (p.placeEach kind packed rs).bind fun q => q.placeEach kind packed rs' := by
  induction rs generalizing p with
  | nil => rfl
  | cons r rs ih =>
    rw [List.cons_append, placeEach, placeEach]
    rcases r with e | l
    · rfl
    · simp only [bind, Except.bind]
      rcases p.place kind packed l with e | q
      · rfl
      · exact ih q

/-- Members that all have layouts are placed one after another. -/
theorem Placement.placeEach_ok (kind : AggregateKind) (packed : Bool) (p : Placement)
    (ls : List Layout) :
    p.placeEach kind packed (ls.map .ok) = ls.foldlM (Placement.place kind packed) p := by
  induction ls generalizing p with
  | nil => rfl
  | cons l ls ih =>
    rw [List.map_cons, placeEach, List.foldlM_cons]
    simp only [bind, Except.bind]
    rcases p.place kind packed l with e | q
    · rfl
    · exact ih q

/-- **The first member without a layout decides** what an aggregate is rejected
for, once those before it are placed. -/
theorem Aggregate.layoutIn_of_member {a : Aggregate} {before after : List Member} {m : Member}
    {ls : List Layout} {placed : Placement} {e : Rejection}
    (hmembers : a.members = before ++ m :: after)
    (hbefore : List.Forall₂ (fun x l => f x.type = .ok l) before ls)
    (hplaced : ls.foldlM (Placement.place a.kind a.isPacked) {} = .ok placed)
    (hm : f m.type = .error e) : a.layoutIn f = .error e := by
  have hmap : before.map (fun x => f x.type) = ls.map .ok := by
    rw [← List.forall₂_eq_eq_eq, List.forall₂_map_left_iff, List.forall₂_map_right_iff]
    exact hbefore
  rw [layoutIn_eq, hmembers, List.map_append, Placement.placeEach_append, hmap,
    Placement.placeEach_ok, hplaced, List.map_cons, hm]
  rfl

end Members

/-! ## What a table makes of a foreign handle -/

namespace Table

variable {t o : Table} {h : Handle}

theorem get?_of_foreign (hh : h.Foreign t.number) : t.get? h = none := by
  cases h with
  | primitive p => exact hh.elim
  | minted table index => exact if_neg hh
  | loose w => rfl

theorem contains_of_foreign (hh : h.Foreign t.number) : t.contains h = false := by
  rw [contains_eq_isSome_get?, get?_of_foreign hh]
  rfl

theorem spell_of_foreign (hh : h.Foreign t.number) : t.spell h = "<unknown>" := by
  rw [spell, depth, spellBelow, get?_of_foreign hh]

/-- What another table has minted is foreign, also where the slot is taken. -/
theorem foreign_of_contains (hp : h.isPrimitive = false) (hc : o.contains h)
    (hne : o.number ≠ t.number) : h.Foreign t.number := by
  cases h with
  | primitive p => cases hp
  | minted table index =>
    obtain ⟨rfl, -⟩ := of_decide_eq_true hc
    exact hne
  | loose w => trivial

end Table

/-! ## What a universe answers about one -/

namespace Universe

variable {u : Universe} {h : Handle}

theorem Sound.layoutAnew_of_foreign (hu : u.Sound) (hh : h.Foreign u.table.number) :
    u.layoutAnew h = .error (.unknownHandle h) := by
  rw [layoutAnew, hu.ordered.layoutAnew_eq, Table.get?_of_foreign hh]

/-- **No cache holds a foreign handle.** -/
theorem Sound.find?_of_foreign (hu : u.Sound) (hh : h.Foreign u.table.number) :
    u.layouts.find? h = none := by
  cases hf : u.layouts.find? h with
  | none => rfl
  | some l =>
    have hl : u.layoutAnew h = .ok l := hu.coherent h l hf
    rw [hu.layoutAnew_of_foreign hh] at hl
    cases hl

theorem shapeOf_of_foreign (hh : h.Foreign u.table.number) :
    u.shapeOf h = .error (.unknownHandle h) := by
  rw [shapeOf, Table.get?_of_foreign hh]

theorem run_pointer_of_foreign (hh : h.Foreign u.table.number) (space : AddressSpace) :
    (pointer h space).run u = (.error (.unknownHandle h), u) := by
  rw [run_pointer, Table.contains_of_foreign hh]
  rfl

/-- A compound that has to lay out a foreign handle has no layout. -/
theorem Sound.layoutIn_of_foreign (hu : u.Sound) {c : Compound} (hc : h ∈ c.layoutParts)
    (hh : h.Foreign u.table.number) : ∃ e, c.layoutIn u.target u.layoutAnew = .error e := by
  cases hl : c.layoutIn u.target u.layoutAnew with
  | error e => exact ⟨e, rfl⟩
  | ok l =>
    obtain ⟨m, hm⟩ := Compound.layoutIn_parts hl h hc
    rw [hu.layoutAnew_of_foreign hh] at hm
    cases hm

/-- **No array of foreign elements.** -/
theorem Sound.run_array_of_foreign (hu : u.Sound) (hh : h.Foreign u.table.number)
    (length : UInt64) :
    ∃ layouts, (array h length).run u = (.error (.unknownHandle h), { u with layouts }) := by
  have hl : (Compound.array h length).layoutIn u.target u.layoutAnew =
      .error (.unknownHandle h) := by
    rw [Compound.layoutIn_array, hu.layoutAnew_of_foreign hh]
    rfl
  obtain ⟨layouts, -, hr⟩ := hu.run_mint_of_error hl
  exact ⟨layouts, hr⟩

/-- **No aggregate with a foreign member.** -/
theorem Sound.run_aggregate_of_foreign (hu : u.Sound) (hh : h.Foreign u.table.number)
    (policy : Policy) {members : List Member} (hm : h ∈ members.map Member.type) :
    ∃ e layouts, (aggregate policy members).run u = (.error e, { u with layouts }) := by
  rw [run_aggregate]
  cases (policy.aggregate members).check u.target with
  | error e => exact ⟨e, u.layouts, rfl⟩
  | ok _ =>
    obtain ⟨e, he⟩ := hu.layoutIn_of_foreign (c := .aggregate (policy.aggregate members)) hm hh
    obtain ⟨layouts, -, hr⟩ := hu.run_mint_of_error he
    exact ⟨e, layouts, hr⟩

/-- The foreign member is what the aggregate is rejected for when its checks
pass and the members before it are placed. -/
theorem Sound.run_aggregate_of_placed (hu : u.Sound) (hh : h.Foreign u.table.number)
    {policy : Policy} {before after : List Member} {name : String} {ls : List Layout}
    {placed : Placement}
    (hcheck : (policy.aggregate (before ++ ⟨name, h⟩ :: after)).check u.target = .ok ())
    (hbefore : List.Forall₂ (fun x l => u.layoutAnew x.type = .ok l) before ls)
    (hplaced : ls.foldlM (Placement.place policy.kind (policy.aggregate []).isPacked) {} =
      .ok placed) :
    ((aggregate policy (before ++ ⟨name, h⟩ :: after)).run u).1 = .error (.unknownHandle h) := by
  have hl : (policy.aggregate (before ++ ⟨name, h⟩ :: after)).layoutIn u.layoutAnew =
      .error (.unknownHandle h) :=
    Aggregate.layoutIn_of_member rfl hbefore hplaced (hu.layoutAnew_of_foreign hh)
  obtain ⟨layouts, -, hr⟩ := hu.run_mint_of_error (c := .aggregate _) hl
  rw [run_aggregate, hcheck]
  exact congrArg Prod.fst hr

/-- **A request about a foreign handle touches nothing but the cache**, unless
it interns a shape unchecked. -/
theorem Sound.perform_of_foreign (hu : u.Sound) (hh : h.Foreign u.table.number) {r : Request}
    (hr : h ∈ r.handles) (hi : ∀ s, r ≠ .intern s) :
    ∃ layouts, (u.perform r).2.2 = { u with layouts } := by
  cases r with
  | pointer pointee space =>
    obtain rfl := List.mem_singleton.1 hr
    exact ⟨u.layouts, congrArg Prod.snd (run_pointer_of_foreign hh space)⟩
  | array element length =>
    obtain rfl := List.mem_singleton.1 hr
    obtain ⟨layouts, hrun⟩ := hu.run_array_of_foreign hh length
    exact ⟨layouts, congrArg Prod.snd hrun⟩
  | aggregate policy members =>
    obtain ⟨e, layouts, hrun⟩ := hu.run_aggregate_of_foreign hh policy hr
    exact ⟨layouts, congrArg Prod.snd hrun⟩
  | layoutOf k =>
    obtain ⟨layouts, -, hrun⟩ := hu.run_layoutOf k
    exact ⟨layouts, congrArg Prod.snd hrun⟩
  | intern s => exact absurd rfl (hi s)
  | shapeOf k | passedByReference k | spell k | contains k | find? s => exact ⟨u.layouts, rfl⟩

end Universe

/-! ## Along a history -/

/-- A universe put back with its table as it was changes no table. -/
theorem Workspace.Sound.tables_put_self {w : Workspace} (hw : w.Sound) {n : Nat} {u : Universe}
    (hu : w.universe? n = some u) (layouts : LayoutCache) :
    (w.put { u with layouts }).tables = w.tables := by
  refine List.ext_getElem? fun m => ?_
  have hle : u ≤ { u with layouts } := ⟨rfl, rfl, le_refl _⟩
  rw [hw.tables_put hu hle]
  split
  · rename_i hm
    exact (hw.table_eq hu hm).symm
  · rfl

namespace World

variable {w : World} {context : Nat} {u : Universe} {h : Handle}

/-- A call that leaves a context's table alone leaves all tables alone. -/
theorem Reachable.tables_run_ask (hw : w.Reachable) (hu : w.universe? context = some u)
    {r : Request} {layouts : LayoutCache} (hr : (u.perform r).2.2 = { u with layouts }) :
    (w.run (.ask context r)).workspace.tables = w.workspace.tables := by
  obtain ⟨n, hn, hun⟩ := Option.bind_eq_some_iff.1 hu
  have hrun : w.run (.ask context r) =
      { w with workspace := w.workspace.put (u.perform r).2.2 } := by
    rw [run, hn, Option.bind_some, Workspace.ask, hun]
    rfl
  rw [hrun, hr]
  exact hw.sound.tables_put_self hun layouts

/-- **A handle of another table is unknown everywhere.** Whatever the tables and
the contexts have gone through, a handle that no table minted, or another table
than the context's, is not contained and stands for nothing. Asking what it is,
how it is passed or laid out, for a pointer to it or an array of it is answered
that it is unknown. An aggregate with such a member is never minted, and where
its names and alignment are in order and the members before are placed, that
member is what it is rejected for. None of these calls changes a table, and no
history puts the handle into the context's cache. -/
theorem foreign_unknown (hw : w.Reachable) (hu : w.universe? context = some u)
    (hh : h.Foreign u.table.number) :
    (u.table.get? h = none ∧ w.answer context (.contains h) = some false ∧
      w.answer context (.spell h) = some "<unknown>") ∧
    (w.answer context (.shapeOf h) = some (Except.error (.unknownHandle h)) ∧
      u.aggregateOf h = .error (.unknownHandle h) ∧
      w.answer context (.passedByReference h) = some (Except.error (.unknownHandle h)) ∧
      w.answer context (.layoutOf h) = some (Except.error (.unknownHandle h)) ∧
      (∀ space, w.answer context (.pointer h space) =
        some (Except.error (.unknownHandle h))) ∧
      ∀ length, w.answer context (.array h length) =
        some (Except.error (.unknownHandle h))) ∧
    (∀ policy members, h ∈ members.map Member.type →
      ∃ e, w.answer context (.aggregate policy members) = some (Except.error e)) ∧
    (∀ (policy : Policy) (before after : List Member) (name : String) (ls : List Layout)
        (placed : Placement),
      (policy.aggregate (before ++ ⟨name, h⟩ :: after)).check u.target = .ok () →
      List.Forall₂ (fun x l => w.answer context (.layoutOf x.type) = some (Except.ok l))
        before ls →
      ls.foldlM (Placement.place policy.kind (policy.aggregate []).isPacked) {} = .ok placed →
      w.answer context (.aggregate policy (before ++ ⟨name, h⟩ :: after)) =
        some (Except.error (.unknownHandle h))) ∧
    (∀ r : Request, h ∈ r.handles → (∀ s, r ≠ .intern s) →
      (w.run (.ask context r)).workspace.tables = w.workspace.tables) ∧
    ∀ w', w.Leads w' → ∀ u', w'.universe? context = some u' → u'.layouts.find? h = none := by
  have hsound := hw.universe hu
  have hagg : u.aggregateOf h = .error (.unknownHandle h) := by
    rw [Universe.aggregateOf, Universe.shapeOf_of_foreign hh]
    rfl
  refine ⟨⟨Table.get?_of_foreign hh, ?_, ?_⟩, ⟨?_, hagg, ?_, ?_, fun space => ?_, fun length => ?_⟩,
    fun policy members hm => ?_, fun policy before after name ls placed hcheck hbefore hplaced => ?_,
    fun r hr hi => ?_, fun w' hl u' hu' => ?_⟩
  · rw [answer_eq hu]
    exact congrArg some (Table.contains_of_foreign hh)
  · rw [answer_eq hu]
    exact congrArg some (Table.spell_of_foreign hh)
  · rw [answer_eq hu]
    exact congrArg some (Universe.shapeOf_of_foreign hh)
  · rw [answer_eq hu]
    change some (u.passedByReference h) = _
    rw [Universe.passedByReference, hagg]
    rfl
  · rw [hw.answer_layoutOf hu, hsound.layoutAnew_of_foreign hh]
  · rw [answer_eq hu]
    exact congrArg (fun x => some x.1) (Universe.run_pointer_of_foreign hh space)
  · obtain ⟨layouts, hr⟩ := hsound.run_array_of_foreign hh length
    rw [answer_eq hu]
    exact congrArg (fun x => some x.1) hr
  · obtain ⟨e, layouts, hr⟩ := hsound.run_aggregate_of_foreign hh policy hm
    exact ⟨e, (answer_eq hu _).trans (congrArg (fun x => some x.1) hr)⟩
  · have hlaid : List.Forall₂ (fun x l => u.layoutAnew x.type = .ok l) before ls := by
      refine hbefore.imp fun x l hx => ?_
      rw [hw.answer_layoutOf hu] at hx
      exact Option.some.inj hx
    rw [answer_eq hu]
    exact congrArg some (hsound.run_aggregate_of_placed hh hcheck hlaid hplaced)
  · obtain ⟨layouts, hp⟩ := hsound.perform_of_foreign hh hr hi
    exact hw.tables_run_ask hu hp
  · -- the context has grown, but its table still bears the same number
    obtain ⟨u₁, hu₁, hle⟩ := hl.universe? hw.sound hu
    obtain rfl : u₁ = u' := Option.some.inj (hu₁.symm.trans hu')
    refine (Reachable.universe (hw.trans hl) hu').find?_of_foreign ?_
    rwa [Table.number_of_le (Universe.table_of_le hle)]

/-- Two tables have the same array, each under a handle of its own. The context
on the first does not know the second's, alone or as a member behind its own. -/
theorem foreign_unknown_twin :
    ∃ (w : World) (u : Universe), w.Reachable ∧ w.universe? 0 = some u ∧
      (Handle.minted 1 0).Foreign u.table.number ∧
      u.table.get? (.minted 0 0) = some (.compound (.array (.primitive .u16) 3)) ∧
      w.answer 1 (.shapeOf (.minted 1 0)) =
        some (Except.ok (.compound (.array (.primitive .u16) 3))) ∧
      w.answer 0 (.layoutOf (.minted 1 0)) =
        some (Except.error (.unknownHandle (.minted 1 0))) ∧
      w.answer 0 (.aggregate {} [⟨"own", .minted 0 0⟩, ⟨"twin", .minted 1 0⟩]) =
        some (Except.error (.unknownHandle (.minted 1 0))) ∧
      (w.run (.ask 0 (.array (.minted 1 0) 2))).workspace.tables = w.workspace.tables := by
  let calls : List Call := [.newTable, .newTable, .newContext 0 .device64,
    .newContext 1 .device64, .ask 0 (.array (.primitive .u16) 3),
    .ask 1 (.array (.primitive .u16) 3)]
  obtain ⟨w, hreplay⟩ : ∃ w, World.empty.replay calls = some w := ⟨_, rfl⟩
  have hw : w.Reachable := leads_of_replay hreplay
  obtain ⟨u, u', hu, hu'⟩ : ∃ u u', w.universe? 0 = some u ∧ w.universe? 1 = some u' := by
    cases hreplay
    exact ⟨_, _, rfl, rfl⟩
  have hh : (Handle.minted 1 0).Foreign u.table.number := by
    refine Table.foreign_of_contains (o := u'.table) rfl ?_ ?_
    all_goals
      cases hreplay
      cases hu
      cases hu'
      decide
  obtain ⟨-, ⟨-, -, -, hlayout, -⟩, -, hmember, htables, -⟩ := foreign_unknown hw hu hh
  refine ⟨w, u, hw, hu, hh, ?_, ?_, hlayout, ?_, ?_⟩
  · cases hreplay
    cases hu
    rfl
  · cases hreplay
    rfl
  · refine hmember {} [⟨"own", .minted 0 0⟩] [] "twin" [⟨6, 2, []⟩] ⟨[0], 6, 2⟩ ?_ ?_ rfl
    · cases hreplay
      cases hu
      decide
    · refine .cons ?_ .nil
      cases hreplay
      rfl
  · exact htables (.array (.minted 1 0) 2) (List.mem_singleton.2 rfl) fun s hs => nomatch hs

end World

end DeviceTypes
