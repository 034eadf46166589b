import DeviceTypes.Proofs.Workspace.Closed
import DeviceTypes.Proofs.Workspace.Refusal
/-!
# Aggregates asked for again

An aggregate is asked for by its members and a policy, and a policy may leave
hints open. What a request means is the aggregate with every hint filled in,
and its handle stands for that and nothing else: two accepted requests over one
table get the same handle exactly if they mean the same aggregate, however far
apart they are and under whatever targets (`Universe.Sound.eq_handle_iff`).

Reading an aggregate back and asking for it again changes nothing. The table has
it, and by then the cache has its layout and those of its members, so nothing is
laid out but what the cache answers, and what is stored is what was there
(`Universe.Sound.perform_again`).
-/

namespace DeviceTypes

/-- The policy asks for the aggregate's own: a hint at its default may be left
open. -/
structure Policy.States (q : Policy) (a : Aggregate) : Prop where
  kind : q.kind = a.kind
  alignment : q.alignment = some a.alignment ∨ q.alignment = none ∧ a.alignment = .natural
  packing : q.packing = some a.packing ∨ q.packing = none ∧ a.packing = .sequential
  passing : q.passing = some a.passing ∨ q.passing = none ∧ a.passing = .targetDefault

/-- A hint that is stated, or left open at its default, is filled in as it was. -/
theorem getD_eq_of_states {α : Type} {hint : Option α} {value default : α}
    (h : hint = some value ∨ hint = none ∧ value = default) : hint.getD default = value := by
  rcases h with rfl | ⟨rfl, rfl⟩ <;> rfl

theorem Policy.States.aggregate_eq {q : Policy} {a : Aggregate} (h : q.States a) :
    q.aggregate a.members = a := by
  rw [Policy.aggregate, h.kind, getD_eq_of_states h.alignment, getD_eq_of_states h.packing,
    getD_eq_of_states h.passing]

/-- **What a request means** is its kind, its members, and its hints with the open
ones filled in. -/
theorem Policy.aggregate_eq_iff {p q : Policy} {members members' : List Member} :
    p.aggregate members = q.aggregate members' ↔
      p.kind = q.kind ∧ members = members' ∧
        p.alignment.getD .natural = q.alignment.getD .natural ∧
        p.packing.getD .sequential = q.packing.getD .sequential ∧
        p.passing.getD .targetDefault = q.passing.getD .targetDefault := by
  rw [Policy.aggregate, Policy.aggregate, Aggregate.mk.injEq]

/-- **Handles are equal exactly if what stands behind them is.** -/
theorem Table.eq_handle_iff {t : Table} {h h' : Handle} {s s' : Shape} (hg : t.get? h = some s)
    (hg' : t.get? h' = some s') : h = h' ↔ s = s' := by
  constructor
  · rintro rfl
    exact Option.some.inj (hg.symm.trans hg')
  · rintro rfl
    exact Option.some.inj ((find?_of_get? hg).symm.trans (find?_of_get? hg'))

namespace LayoutCache

variable {c : LayoutCache} {h : Handle} {l : Layout}

theorem cons_filter_perm {es : List (Handle × Layout)} (hn : (es.map Prod.fst).Nodup)
    (hf : es.lookup h = some l) : ((h, l) :: es.filter fun e => e.1 ≠ h).Perm es := by
  induction es with
  | nil => cases hf
  | cons e es ih =>
    obtain ⟨k, m⟩ := e
    rw [List.map_cons, List.nodup_cons] at hn
    by_cases hk : k = h
    · subst hk
      obtain rfl : m = l := by simpa using hf
      have hrest : es.filter (fun e => e.1 ≠ k) = es := by
        refine List.filter_eq_self.2 fun e he => decide_eq_true fun heq => ?_
        exact hn.1 (List.mem_map.2 ⟨e, he, heq⟩)
      rw [List.filter_cons_of_neg (by simp), hrest]
    · have hne : (h == k) = false := by simpa using Ne.symm hk
      rw [List.lookup_cons, hne] at hf
      rw [List.filter_cons_of_pos (by simpa using hk)]
      exact (List.Perm.swap ..).trans ((ih hn.2 hf).cons _)

/-- **Storing what is stored** leaves the entries as they were, up to their order. -/
theorem Closed.insert_perm {t : Table} (hc : c.Closed t) (hf : c.find? h = some l) :
    (c.insert h l).entries.Perm c.entries := by
  have hp : h.isPrimitive = false := hc.isPrimitive_eq_false (by rw [hf]; rfl)
  rw [LayoutCache.insert, hp]
  exact cons_filter_perm hc.nodup hf

theorem Closed.find?_insert_self {t : Table} (hc : c.Closed t) (hf : c.find? h = some l)
    (k : Handle) : (c.insert h l).find? k = c.find? k := by
  rw [find?_insert c (hc.isPrimitive_eq_false (by rw [hf]; rfl))]
  split
  · rename_i hk
    rw [hk, hf]
  · rfl

end LayoutCache

namespace Universe

variable {u : Universe} {policy : Policy} {members : List Member} {h : Handle}

/-- **What an accepted request for an aggregate was**: it passed the checks, its
members are known and laid out, and the table has the aggregate behind its
handle. -/
theorem Sound.of_perform_aggregate (hu : u.Sound)
    (hok : (u.perform (.aggregate policy members)).1 = Except.ok h) :
    (policy.aggregate members).check u.target = .ok () ∧
      (∀ x ∈ (Request.aggregate policy members).handles, u.table.contains x = true) ∧
      (u.perform (.aggregate policy members)).2.2.table.get? h =
        some (.compound (.aggregate (policy.aggregate members))) := by
  change ((aggregate policy members).run u).1 = _ at hok
  change _ ∧ _ ∧ ((aggregate policy members).run u).2.table.get? h = _
  rcases hu.run_aggregate_cases policy members with
    ⟨e, layouts, -, hr, -⟩ | ⟨l, layouts, hcheck, hl, hr⟩
  · rw [hr] at hok
    cases hok
  · rw [hr] at hok ⊢
    obtain rfl := Except.ok.inj hok
    refine ⟨hcheck, fun x hx => ?_, Table.get?_of_find? (Table.find?_intern u.table (.compound _))⟩
    have hcompound : (Compound.aggregate (policy.aggregate members)).layoutIn u.target
        u.layoutAnew = .ok l := hl
    obtain ⟨lx, hlx⟩ := Compound.layoutIn_parts hcompound x hx
    obtain ⟨s, hs, -⟩ := hu.ordered.get?_of_layoutAnew hlx
    rw [Table.contains_eq_isSome_get?, hs]
    rfl

/-- **A handle is got again** exactly by a request for what stands behind it. -/
theorem Sound.eq_handle_iff (hu : u.Sound) {a : Aggregate} {h' : Handle}
    (hg : u.table.get? h = some (.compound (.aggregate a)))
    (hok : (u.perform (.aggregate policy members)).1 = Except.ok h') :
    h = h' ↔ a = policy.aggregate members := by
  obtain ⟨-, hknown, hg'⟩ := hu.of_perform_aggregate hok
  obtain ⟨-, hle⟩ := hu.perform fun x hx => Table.settled_of_contains (hknown x hx)
  -- both handles are read in the table that the request leaves
  have hthere := (Table.get?_of_le (table_of_le hle) (Table.settled_of_get? hg)).trans hg
  rw [Table.eq_handle_iff hthere hg', Shape.compound.injEq, Compound.aggregate.injEq]

/-- **Asking again for what is there** gets its handle, and stores nothing but the
layout that was stored. -/
theorem Sound.perform_again (hu : u.Sound) (hc : u.layouts.Closed u.table) {a : Aggregate}
    (hg : u.table.get? h = some (.compound (.aggregate a))) {l : Layout}
    (hf : u.layouts.find? h = some l) (hcheck : a.check u.target = .ok ()) {q : Policy}
    (hq : q.aggregate a.members = a) :
    (u.perform (.aggregate q a.members)).1 = Except.ok h ∧
      (u.perform (.aggregate q a.members)).2.2 = { u with layouts := u.layouts.insert h l } := by
  -- the members are in the cache since the aggregate is, and so nothing is added to it
  have hmembers : ∀ m ∈ a.members, u.layouts.Knows m.type := by
    intro m hm
    obtain ⟨k, hk, hparts⟩ := hc.parts h (by rw [hf]; rfl)
    rw [hg] at hk
    cases hk
    exact hparts m.type (List.mem_map_of_mem hm)
  have hread := Aggregate.layoutIn_readOff hc u.target
    (u.table.layoutBelow u.target u.table.entries.length) hmembers
  -- the answer is the layout anew, which is the one in the cache
  have hanew : a.layoutIn u.layoutAnew = .ok l := by
    have hl := hu.coherent h l hf
    rw [hu.ordered.layoutAnew_eq, hg] at hl
    exact hl
  obtain ⟨c, -, hfollows⟩ :=
    hu.ordered.layoutOfShape_follows u.target (.compound (.aggregate a)) u.layouts hu.coherent
  have hrun : (u.table.layoutOfShape u.target (.compound (.aggregate a))).run u.layouts =
      (.ok l, u.layouts) := by
    obtain ⟨hanswer, -⟩ := Prod.ext_iff.1 (hread.symm.trans hfollows)
    exact hread.trans (Prod.ext (hanswer.trans hanew) rfl)
  have hintern : u.table.intern (.compound (.aggregate a)) = (h, u.table) :=
    Table.intern_of_find? (Table.find?_of_get? hg)
  have hperform : (aggregate q a.members).run u =
      (.ok h, { u with layouts := u.layouts.insert h l }) := by
    rw [run_aggregate, hq, hcheck]
    simp only [run_mint, hrun, hintern]
  exact ⟨congrArg Prod.fst hperform, congrArg Prod.snd hperform⟩

end Universe

namespace World

variable {w w' : World} {context : Nat} {u : Universe} {policy : Policy} {members : List Member}
  {h : Handle}

/-- A handle that a context's table knows was issued. -/
theorem Reachable.issued_of_contains (hw : w.Reachable) (hu : w.universe? context = some u)
    (hh : u.table.contains h = true) : w.workspace.Issued h := by
  rintro n i rfl
  obtain ⟨rfl, hi⟩ := of_decide_eq_true hh
  exact ⟨u.table, hw.sound.table_eq (universe?_number hu).2 rfl, hi⟩

/-- **What becomes of a minted aggregate**: the table of its context has it from then
on, and so has the cache its layout; the checks it has passed it passes again. -/
theorem Reachable.after_aggregate (hw : w.Reachable) (hu : w.universe? context = some u)
    (hok : w.answer context (.aggregate policy members) = some (Except.ok h))
    (hl : (w.run (.ask context (.aggregate policy members))).Leads w') :
    w'.Reachable ∧ ∃ v, w'.universe? context = some v ∧ v.number = u.number ∧
      v.table.number = u.table.number ∧
      v.table.get? h = some (.compound (.aggregate (policy.aggregate members))) ∧
      (v.layouts.find? h).isSome ∧ (policy.aggregate members).check v.target = .ok () := by
  obtain ⟨hcontext, hnumber⟩ := universe?_number hu
  have hanswer := perform_of_answer hu hok
  obtain ⟨hcheck, hknown, hget⟩ := (hw.universe hu).of_perform_aggregate hanswer
  have hissued : ∀ x ∈ (Request.aggregate policy members).handles, w.workspace.Issued x :=
    fun x hx => hw.issued_of_contains hu (hknown x hx)
  have hsettled : ∀ x ∈ (Request.aggregate policy members).handles, u.table.Settled x :=
    fun x hx => hw.settled hu (hissued x hx)
  have hw₁ : (w.run (.ask context (.aggregate policy members))).Reachable :=
    .call (.ask context (.aggregate policy members)) hw hissued
  obtain ⟨-, hgrown⟩ := (hw.universe hu).perform hsettled
  obtain ⟨hleft, hthere⟩ := hw.universe?_run_ask_eq hu hsettled
  obtain ⟨-, hstored⟩ := Universe.retains_perform (hw.closed hnumber) (.aggregate policy members)
  obtain ⟨v, hv, hle, hcache⟩ := hl.layouts hw₁ hleft
  have hcontext' : w'.contexts[context]? = some u.number := by
    obtain ⟨hcontext₁, -⟩ := universe?_number hthere
    rw [hgrown.1] at hcontext₁
    exact hl.contexts hw₁ hcontext₁
  have hlev := le_trans hgrown hle
  refine ⟨Leads.trans hw₁ hl, v, universe?_of_number hcontext' hv, hlev.1,
    Table.number_of_le (Universe.table_of_le hlev), ?_, ?_, ?_⟩
  · rw [Table.get?_of_le (Universe.table_of_le hle) (Table.settled_of_get? hget), hget]
  · exact hcache h (hstored h (Request.minted?_aggregate.2 hanswer))
  · rw [Universe.target_of_le hlev, hcheck]

/-- **Aggregates and their handles correspond one to one.** A request for an
aggregate is accepted with `h`. However the history goes on,

* any request for an aggregate that is then accepted over the same table, whatever
  the context and its target, gets `h` exactly if it agrees in kind, members with
  their order, and the hints with the open ones filled in;
* in that context and its clones `h` reads as the aggregate asked for, and a request
  that states what is read, or leaves open what is at its default, gets `h` again and
  changes neither a table nor the cache. -/
theorem aggregates_correspond (hw : w.Reachable) (hu : w.universe? context = some u)
    (hok : w.answer context (.aggregate policy members) = some (Except.ok h))
    (hl : (w.run (.ask context (.aggregate policy members))).Leads w') :
    (∀ other v, w'.universe? other = some v → v.table.number = u.table.number →
      ∀ policy' members' h',
        w'.answer other (.aggregate policy' members') = some (Except.ok h') →
        (h = h' ↔ policy.kind = policy'.kind ∧ members = members' ∧
          policy.alignment.getD .natural = policy'.alignment.getD .natural ∧
          policy.packing.getD .sequential = policy'.packing.getD .sequential ∧
          policy.passing.getD .targetDefault = policy'.passing.getD .targetDefault)) ∧
    (∃ v, w'.universe? context = some v ∧ v.number = u.number) ∧
    ∀ again v, w'.universe? again = some v → v.number = u.number →
      v.aggregateOf h = .ok (some (policy.aggregate members)) ∧
      ∀ a q, v.aggregateOf h = .ok (some a) → Policy.States q a →
        w'.answer again (.aggregate q a.members) = some (Except.ok h) ∧
        (w'.run (.ask again (.aggregate q a.members))).workspace.tables = w'.workspace.tables ∧
        ∃ v', (w'.run (.ask again (.aggregate q a.members))).universe? again = some v' ∧
          v'.layouts.entries.Perm v.layouts.entries ∧
          ∀ x, v'.layouts.find? x = v.layouts.find? x := by
  obtain ⟨hw', v₀, hv₀, hnumber, htable, hget, hcached, hcheck⟩ := hw.after_aggregate hu hok hl
  refine ⟨fun other v hv hn policy' members' h' hok' => ?_, ⟨v₀, hv₀, hnumber⟩,
    fun again v hv hn => ?_⟩
  · have hsame : v.table = v₀.table := Option.some.inj
      ((hw'.sound.table_eq (universe?_number hv).2 (hn.trans htable.symm)).symm.trans
        (hw'.sound.table_eq (universe?_number hv₀).2 rfl))
    rw [← hsame] at hget
    rw [(hw'.universe hv).eq_handle_iff hget (perform_of_answer hv hok')]
    exact Policy.aggregate_eq_iff
  · -- the context is the one of the first request, or shares its universe
    obtain rfl : v = v₀ := by
      have hv' := (universe?_number hv).2
      rw [hn, ← hnumber, (universe?_number hv₀).2] at hv'
      exact (Option.some.inj hv').symm
    have hreads : v.aggregateOf h = .ok (some (policy.aggregate members)) := by
      rw [Universe.aggregateOf, Universe.shapeOf_eq_ok.2 hget]
      rfl
    refine ⟨hreads, fun a q ha hq => ?_⟩
    rw [hreads] at ha
    obtain rfl := Option.some.inj (Except.ok.inj ha)
    obtain ⟨l, hf⟩ := Option.isSome_iff_exists.1 hcached
    have hclosed := hw'.closed (universe?_number hv).2
    obtain ⟨hanswer, hleft⟩ :=
      (hw'.universe hv).perform_again hclosed hget hf hcheck hq.aggregate_eq
    have hsettled : ∀ x ∈ (Request.aggregate q (policy.aggregate members).members).handles,
        v.table.Settled x := fun x hx => (hw'.universe hv).ordered.settled hget hx
    refine ⟨?_, hw'.tables_run_ask hv hleft, _, (hw'.universe?_run_ask_eq hv hsettled).2, ?_⟩
    · rw [answer_eq hv]
      exact congrArg some hanswer
    · rw [hleft]
      exact ⟨hclosed.insert_perm hf, hclosed.find?_insert_self hf⟩

/-- A packed struct is minted. Over the same table and under another target the
struct with its members swapped gets another handle; a clone of the first context
that asks again, with a default now stated, gets the first handle and leaves tables
and cache as they are. -/
theorem aggregates_correspond_packed :
    ∃ (w w' : World) (h h' : Handle) (v v' : Universe), w.Reachable ∧
      w.answer 0 (.aggregate { packing := some .packed }
        [⟨"tag", .primitive .u8⟩, ⟨"value", .primitive .u64⟩]) = some (Except.ok h) ∧
      w'.answer 1 (.aggregate { packing := some .packed }
        [⟨"value", .primitive .u64⟩, ⟨"tag", .primitive .u8⟩]) = some (Except.ok h') ∧
      h ≠ h' ∧ w'.universe? 2 = some v ∧
      w'.answer 2 (.aggregate { packing := some .packed, passing := some .targetDefault }
        [⟨"tag", .primitive .u8⟩, ⟨"value", .primitive .u64⟩]) = some (Except.ok h) ∧
      (w'.run (.ask 2 (.aggregate { packing := some .packed, passing := some .targetDefault }
        [⟨"tag", .primitive .u8⟩, ⟨"value", .primitive .u64⟩]))).workspace.tables =
          w'.workspace.tables ∧
      (w'.run (.ask 2 (.aggregate { packing := some .packed, passing := some .targetDefault }
        [⟨"tag", .primitive .u8⟩, ⟨"value", .primitive .u64⟩]))).universe? 2 = some v' ∧
      v'.layouts.entries.Perm v.layouts.entries := by
  let members : List Member := [⟨"tag", .primitive .u8⟩, ⟨"value", .primitive .u64⟩]
  let policy : Policy := { packing := some .packed }
  obtain ⟨w, hreplay⟩ : ∃ w, World.empty.replay [.newTable, .newContext 0 .device64,
      .newContext 0 { Target.device64 with maxAlignment := 512 }] = some w := ⟨_, rfl⟩
  obtain ⟨w', hreplay'⟩ : ∃ w', (w.run (.ask 0 (.aggregate policy members))).replay
      [.clone 0, .ask 1 (.pointer (.minted 0 0) .global)] = some w' := by
    cases hreplay
    exact ⟨_, rfl⟩
  have hw : w.Reachable := leads_of_replay hreplay
  obtain ⟨u, hu, hnumber, htable⟩ : ∃ u, w.universe? 0 = some u ∧ u.number = 0 ∧
      u.table.number = 0 := by
    cases hreplay
    exact ⟨_, rfl, rfl, rfl⟩
  have hok : w.answer 0 (.aggregate policy members) = some (Except.ok (.minted 0 0)) := by
    cases hreplay
    rfl
  obtain ⟨hone, -, hagain⟩ := aggregates_correspond hw hu hok (leads_of_replay hreplay')
  have hcontexts : (w'.universe? 1).map (·.table.number) = some 0 ∧
      (w'.universe? 2).map (·.number) = some 0 := by
    cases hreplay
    cases hreplay'
    decide +kernel
  obtain ⟨x, hx, hxtable⟩ := Option.map_eq_some_iff.1 hcontexts.1
  obtain ⟨v, hv, hvnumber⟩ := Option.map_eq_some_iff.1 hcontexts.2
  have hother : w'.answer 1 (.aggregate policy
      [⟨"value", .primitive .u64⟩, ⟨"tag", .primitive .u8⟩]) = some (Except.ok (.minted 0 2)) := by
    cases hreplay
    cases hreplay'
    rfl
  obtain ⟨hreads, hsame⟩ := hagain 2 v hv (hvnumber.trans hnumber.symm)
  obtain ⟨hanswer, htables, v', hv', hperm, -⟩ := hsame _
    { packing := some .packed, passing := some .targetDefault } hreads
    ⟨rfl, Or.inr ⟨rfl, rfl⟩, Or.inl rfl, Or.inl rfl⟩
  refine ⟨w, w', _, _, v, v', hw, hok, hother, fun heq => ?_, hv, hanswer, htables, hv', hperm⟩
  obtain ⟨-, hmembers, -⟩ := (hone 1 x hx (hxtable.trans htable.symm) _ _ _ hother).1 heq
  exact absurd hmembers (by decide)

end World

end DeviceTypes
