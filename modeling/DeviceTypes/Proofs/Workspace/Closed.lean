import DeviceTypes.Proofs.Layout.Closed
import DeviceTypes.Proofs.Workspace.History
/-!
# Layout caches along a history stay closed

Many calls write into the cache of a universe. Minting stores the layout of
a new array or aggregate after its parts, asking for a layout stores whatever
is met on the way, and a rejected request leaves what it had worked out by
then. Pointers and shapes interned as they are store nothing. Whatever a call
is, a universe comes out of it new, over a grown table or after a request
(`Reachable.universe?_run`), and its cache stays closed and loses nothing
(`Universe.Becomes.retains`).

So the members of an aggregate that were minted as arrays or aggregates
through the same context have their layouts in the cache, and the aggregate
is laid out in one level (`caches_closed`).
-/

namespace DeviceTypes

/-- The array or the aggregate that a request was answered with. -/
def Request.minted? : (r : Request) → r.Answer → Option Handle
  | array .., .ok h | aggregate .., .ok h => some h
  | array .., .error _ | aggregate .., .error _ => none
  | pointer .., _ | layoutOf _, _ | shapeOf _, _ | passedByReference _, _ | spell _, _
  | contains _, _ | intern _, _ | find? _, _ => none

theorem Request.minted?_array {element : Handle} {length : UInt64} {a : Except Rejection Handle}
    {h : Handle} : Request.minted? (.array element length) a = some h ↔ a = .ok h := by
  cases a <;> simp [Request.minted?]

theorem Request.minted?_aggregate {policy : Policy} {members : List Member}
    {a : Except Rejection Handle} {h : Handle} :
    Request.minted? (.aggregate policy members) a = some h ↔ a = .ok h := by
  cases a <;> simp [Request.minted?]

namespace Universe

variable {u : Universe}

/-- The cache of `v` is closed, and has whatever that of `u` has. -/
structure Retains (u v : Universe) : Prop where
  closed : v.layouts.Closed v.table
  le : u.layouts ≤ v.layouts

theorem retains_of_le (hu : u.layouts.Closed u.table) {t : Table} (hle : u.table ≤ t) :
    u.Retains { u with table := t } :=
  ⟨hu.of_le hle, le_refl _⟩

theorem retains_self (hu : u.layouts.Closed u.table) : u.Retains u := ⟨hu, le_refl _⟩

/-- A compound that is minted has its layout stored on top of those it rests on. -/
theorem retains_mint (hu : u.layouts.Closed u.table) (k : Compound) :
    u.Retains ((mint k).run u).2 ∧
      ∀ h, ((mint k).run u).1 = .ok h → (((mint k).run u).2.layouts.find? h).isSome := by
  obtain ⟨a, c, hr, hc, hle, hknows⟩ :=
    Compound.layoutIn_fills (k := k) u.target (fun x _ => u.table.layoutOf_fills u.target x)
      u.layouts hu
  have hshape : (u.table.layoutOfShape u.target (.compound k)).run u.layouts = (a, c) := hr
  rw [run_mint, hshape]
  cases a with
  | error e => exact ⟨⟨hc, hle⟩, fun _ hh => nomatch hh⟩
  | ok l =>
    have hget : (u.table.intern (.compound k)).2.get? (u.table.intern (.compound k)).1 =
        some (.compound k) := Table.get?_of_find? (Table.find?_intern u.table (.compound k))
    have hgrown := hc.of_le (Table.le_intern u.table (.compound k))
    refine ⟨⟨hgrown.insert hget (hknows l rfl) l, le_trans hle (c.le_insert _ l)⟩, fun h hh => ?_⟩
    obtain rfl := Except.ok.inj hh
    exact (c.knows_insert _ l).resolve_left Bool.false_ne_true

/-- **A request keeps a cache closed** and takes nothing out of it, whatever it is
answered; what it mints is in there afterwards. -/
theorem retains_perform (hu : u.layouts.Closed u.table) (r : Request) :
    u.Retains (u.perform r).2.2 ∧
      ∀ h, r.minted? (u.perform r).1 = some h → ((u.perform r).2.2.layouts.find? h).isSome := by
  cases r with
  | pointer pointee space =>
    change u.Retains ((Universe.pointer pointee space).run u).2 ∧ _
    rw [run_pointer]
    split
    · exact ⟨retains_of_le hu (Table.le_intern u.table _), fun _ hh => nomatch hh⟩
    · exact ⟨retains_self hu, fun _ hh => nomatch hh⟩
  | array element length =>
    obtain ⟨hretains, hstored⟩ := retains_mint hu (.array element length)
    exact ⟨hretains, fun h hh => hstored h (Request.minted?_array.1 hh)⟩
  | aggregate policy members =>
    have hrun : u.Retains ((Universe.aggregate policy members).run u).2 ∧
        ∀ h, ((Universe.aggregate policy members).run u).1 = .ok h →
          (((Universe.aggregate policy members).run u).2.layouts.find? h).isSome := by
      rw [run_aggregate]
      split
      · exact retains_mint hu (.aggregate (policy.aggregate members))
      · exact ⟨retains_self hu, fun _ hh => nomatch hh⟩
    exact ⟨hrun.1, fun h hh => hrun.2 h (Request.minted?_aggregate.1 hh)⟩
  | layoutOf h =>
    obtain ⟨a, c, hr, hc, hle, -⟩ := u.table.layoutOf_fills u.target h u.layouts hu
    change u.Retains ((Universe.layoutOf h).run u).2 ∧ _
    rw [Universe.run_layoutOf, hr]
    exact ⟨⟨hc, hle⟩, fun _ hh => nomatch hh⟩
  | intern s => exact ⟨retains_of_le hu (Table.le_intern u.table s), fun _ hh => nomatch hh⟩
  | shapeOf h | passedByReference h | spell h | contains h | find? s =>
    exact ⟨retains_self hu, fun _ hh => nomatch hh⟩

/-- How a universe comes out of a call: its table may have grown under it, or it was
put a request. -/
inductive Becomes (u : Universe) : Universe → Prop
  | grown {t : Table} : u.table ≤ t → u.Becomes { u with table := t }
  | asked (r : Request) : u ≤ (u.perform r).2.2 → u.Becomes (u.perform r).2.2

theorem Becomes.refl (u : Universe) : u.Becomes u := .grown (le_refl u.table)

/-- **Either way a cache stays closed** and loses nothing. -/
theorem Becomes.retains {v : Universe} (h : u.Becomes v) (hu : u.layouts.Closed u.table) :
    u.Retains v := by
  cases h with
  | grown hle => exact retains_of_le hu hle
  | asked r _ => exact (retains_perform hu r).1

end Universe

namespace Workspace

variable {w w' : Workspace} {m n : Nat} {u : Universe}

/-! ## Universes, call by call -/

/-- A table in the place of another one is seen by every universe over it. -/
theorem Sound.universe?_setTable (hw : w.Sound) {t : Table} (ht : w.tables[m]? = some t)
    (t' : Table) (n : Nat) :
    universe? { w with tables := w.tables.set m t' } n =
      (w.universe? n).map fun v => if v.table.number = m then { v with table := t' } else v := by
  rw [universe?, universe?]
  rcases hs : w.sites[n]? with - | s
  · rfl
  obtain ⟨x, hx, -⟩ := hw.coherent n s hs
  have hnumber := hw.number_eq s.table x hx
  simp only [Option.bind_eq_bind, Option.bind_some, getElem?_set_table ht, hx, Option.pure_def,
    Option.map_some, hnumber]
  by_cases hm : m = s.table
  · simp [hm]
  · simp [hm, Ne.symm hm]

/-- Layouts in the place of others are seen by one universe. -/
theorem universe?_setLayouts (w : Workspace) (m : Nat) (layouts : LayoutCache) (n : Nat) :
    universe? { w with sites := w.sites.modify m fun site => { site with layouts } } n =
      (w.universe? n).map fun v => if m = n then { v with layouts } else v := by
  rw [universe?, universe?, List.getElem?_modify]
  rcases hs : w.sites[n]? with - | s
  · rfl
  · rcases ht : w.tables[s.table]? with - | t
    · by_cases hm : m = n <;> simp [hm, ht]
    · by_cases hm : m = n <;> simp [hm, ht]

/-- **A universe put back** is found again, and the others over its table find that
table. -/
theorem Sound.universe?_put_eq (hw : w.Sound) {u' : Universe} (hu : w.universe? m = some u)
    (hle : u ≤ u') (n : Nat) :
    (w.put u').universe? n = (w.universe? n).map fun v =>
      if m = n then u'
      else if v.table.number = u.table.number then { v with table := u'.table } else v := by
  obtain ⟨s, hs, ht, he⟩ := universe?_eq_some hu
  have hnumber : u'.table.number = u.table.number := Table.number_of_le (Universe.table_of_le hle)
  have hn : u'.number = m := by
    rw [hle.1, he]
  have htable : w.tables[u.table.number]? = some u.table := hw.table_eq hu rfl
  have hput := universe?_setLayouts { w with tables := w.tables.set u.table.number u'.table } m
    u'.layouts n
  rw [hw.universe?_setTable htable, Option.map_map] at hput
  rw [Workspace.put, hnumber, hn]
  refine hput.trans ?_
  rcases hv : w.universe? n with - | v
  · rfl
  by_cases hm : m = n
  · -- number and target of `u'` are those of what it takes the place of
    subst hm
    obtain rfl : u = v := by rw [hu] at hv; exact Option.some.inj hv
    simp only [Option.map_some, Function.comp_apply, if_true]
    rw [← hle.1, ← hle.2.1]
  · simp [hm]

theorem Sound.universe?_addTable (hw : w.Sound) (n : Nat) :
    w.addTable.2.universe? n = w.universe? n := by
  rw [universe?, universe?, Workspace.addTable]
  rcases hs : w.sites[n]? with - | s
  · rfl
  · obtain ⟨t, ht, -⟩ := hw.coherent n s hs
    have hlt := (List.getElem?_eq_some_iff.1 ht).1
    simp [List.getElem?_append_left hlt]

/-- Interning changes no universe but by its table. -/
theorem Sound.becomes_of_intern (hw : w.Sound) {s : Shape} {h : Handle}
    (hi : w.intern m s = some (h, w')) (hu : w'.universe? n = some u) :
    ∃ u₀, w.universe? n = some u₀ ∧ u₀.Becomes u := by
  obtain ⟨t, ht, heq⟩ := Option.map_eq_some_iff.1 hi
  obtain ⟨-, rfl⟩ := Prod.ext_iff.1 heq
  rw [hw.universe?_setTable ht, Option.map_eq_some_iff] at hu
  obtain ⟨v, hv, rfl⟩ := hu
  refine ⟨v, hv, ?_⟩
  split
  · rename_i hn
    obtain rfl : v.table = t := Option.some.inj ((hw.table_eq hv hn).symm.trans ht)
    exact .grown (Table.le_intern v.table s)
  · exact .refl v

/-- A request changes the universe it is put to, and the others by their table. -/
theorem Sound.becomes_of_ask (hw : w.Sound) {r : Request} {a : r.Answer}
    {events : List MintEvent} (hr : ∀ h ∈ r.handles, w.Issued h)
    (ha : w.ask m r = some (a, events, w')) (hu : w'.universe? n = some u) :
    ∃ u₀, w.universe? n = some u₀ ∧ u₀.Becomes u := by
  obtain ⟨u₁, hu₁, heq⟩ := Option.map_eq_some_iff.1 ha
  have hw' : w' = w.put (u₁.perform r).2.2 := by
    simp only [Prod.mk.injEq] at heq
    exact heq.2.2.symm
  have htable := hw.table_eq hu₁ rfl
  obtain ⟨-, hle⟩ := (hw.universe hu₁).perform fun h hh => hw.settled (hr h hh) htable
  rw [hw', hw.universe?_put_eq hu₁ hle, Option.map_eq_some_iff] at hu
  obtain ⟨v, hv, rfl⟩ := hu
  refine ⟨v, hv, ?_⟩
  by_cases hm : m = n
  · subst hm
    obtain rfl := Option.some.inj (hu₁.symm.trans hv)
    rw [if_pos rfl]
    exact .asked r hle
  · rw [if_neg hm]
    split
    · rename_i hnumber
      have hsame : v.table = u₁.table :=
        Option.some.inj ((hw.table_eq hv hnumber).symm.trans htable)
      refine .grown ?_
      rw [hsame]
      exact Universe.table_of_le hle
    · exact .refl v

/-- A universe is one of those before, or new with an empty cache. -/
theorem universe?_of_addUniverse {table : Nat} {target : Target}
    (hu : (w.addUniverse table target).2.universe? n = some u) :
    w.universe? n = some u ∨ w.universe? n = none ∧ u.layouts = .empty := by
  rcases Nat.lt_or_ge n w.sites.length with hn | hn
  · left
    rw [← hu, universe?, universe?, Workspace.addUniverse, List.getElem?_append_left hn]
  · right
    obtain ⟨s, hs, -, he⟩ := universe?_eq_some hu
    rw [Workspace.addUniverse, List.getElem?_append_right hn] at hs
    refine ⟨by rw [universe?, List.getElem?_eq_none hn]; rfl, ?_⟩
    rw [he, List.mem_singleton.1 (List.mem_of_getElem? hs)]

end Workspace

namespace World

variable {w w' : World} {n context : Nat} {u : Universe}

/-- A context works in the universe that its universe's number names. -/
theorem universe?_number (hu : w.universe? context = some u) :
    w.contexts[context]? = some u.number ∧ w.workspace.universe? u.number = some u := by
  obtain ⟨m, hm, hum⟩ := Option.bind_eq_some_iff.1 hu
  obtain ⟨s, -, -, he⟩ := Workspace.universe?_eq_some hum
  have hnumber : u.number = m := by
    rw [he]
  rw [hnumber]
  exact ⟨hm, hum⟩

theorem perform_of_answer (hu : w.universe? context = some u) {r : Request} {a : r.Answer}
    (ha : w.answer context r = some a) : (u.perform r).1 = a :=
  Option.some.inj ((answer_eq hu r).symm.trans ha)

theorem universe?_of_number (hc : w.contexts[context]? = some n)
    (hu : w.workspace.universe? n = some u) : w.universe? context = some u := by
  rw [universe?, hc]
  exact hu

/-- A context stays with its universe. -/
theorem Leads.contexts (hl : w.Leads w') (hw : w.Reachable)
    (hc : w.contexts[context]? = some n) : w'.contexts[context]? = some n := by
  obtain ⟨rest, hrest⟩ := (hl.grows hw.sound).2
  rw [← hrest, List.getElem?_append_left (List.getElem?_eq_some_iff.1 hc).1, hc]

/-- **The ways a universe comes out of a call**: it is new and has cached nothing, or
it was there before. -/
theorem Reachable.universe?_run (hw : w.Reachable) {call : Call}
    (hc : ∀ h ∈ call.handles, w.workspace.Issued h)
    (hu : (w.run call).workspace.universe? n = some u) :
    (w.workspace.universe? n = none ∧ u.layouts = .empty) ∨
      ∃ u₀, w.workspace.universe? n = some u₀ ∧ u₀.Becomes u := by
  have hsame : w.workspace.universe? n = some u → (w.workspace.universe? n = none ∧
      u.layouts = .empty) ∨ ∃ u₀, w.workspace.universe? n = some u₀ ∧ u₀.Becomes u :=
    fun h => Or.inr ⟨u, h, .refl u⟩
  cases call with
  | newTable =>
    change w.workspace.addTable.2.universe? n = some u at hu
    rw [hw.sound.universe?_addTable] at hu
    exact hsame hu
  | newContext table target =>
    rw [run] at hu
    split at hu
    · exact (Workspace.universe?_of_addUniverse hu).elim hsame Or.inl
    · exact hsame hu
  | clone context =>
    rw [run] at hu
    split at hu <;> exact hsame hu
  | intern table s =>
    rw [run] at hu
    split at hu
    · rename_i h workspace hi
      exact Or.inr (hw.sound.becomes_of_intern hi hu)
    · exact hsame hu
  | ask context r =>
    rw [run] at hu
    split at hu
    · rename_i a events workspace hask
      obtain ⟨m, -, ha⟩ := Option.bind_eq_some_iff.1 hask
      exact Or.inr (hw.sound.becomes_of_ask hc ha hu)
    · exact hsame hu

/-- A context that is asked finds what the request has left. -/
theorem Reachable.universe?_run_ask_eq (hw : w.Reachable) (hu : w.universe? context = some u)
    {r : Request} (hr : ∀ h ∈ r.handles, u.table.Settled h) :
    (w.run (.ask context r)).workspace.universe? u.number = some (u.perform r).2.2 ∧
      (w.run (.ask context r)).universe? context = some (u.perform r).2.2 := by
  obtain ⟨hcontext, hnumber⟩ := universe?_number hu
  have hrun : w.run (.ask context r) =
      { w with workspace := w.workspace.put (u.perform r).2.2 } := by
    rw [run, hcontext, Option.bind_some, Workspace.ask, hnumber]
    rfl
  have hput := hw.sound.universe?_put_eq hnumber ((hw.universe hu).perform hr).2 u.number
  rw [hnumber, Option.map_some, if_pos rfl] at hput
  rw [hrun]
  exact ⟨hput, universe?_of_number hcontext hput⟩

/-! ## Closed along every history -/

/-- **Every cache is closed**, whatever calls have written into it. -/
theorem Reachable.closed (hw : w.Reachable) (hu : w.workspace.universe? n = some u) :
    u.layouts.Closed u.table := by
  induction hw generalizing u with
  | refl => cases hu
  | call call hl hc ih =>
    rcases Reachable.universe?_run hl hc hu with ⟨-, hempty⟩ | ⟨u₀, hu₀, hbecomes⟩
    · rw [hempty]
      exact LayoutCache.closed_empty u.table
    · exact (hbecomes.retains (ih hu₀)).closed

/-- **Nothing is taken out of a cache.** -/
theorem Leads.layouts (hl : w.Leads w') (hw : w.Reachable)
    (hu : w.workspace.universe? n = some u) :
    ∃ u', w'.workspace.universe? n = some u' ∧ u ≤ u' ∧ u.layouts ≤ u'.layouts := by
  induction hl with
  | refl => exact ⟨u, hu, le_refl u, le_refl _⟩
  | call call hl hc ih =>
    have hw₁ : Reachable _ := Leads.trans hw hl
    obtain ⟨u₁, hu₁, hle, hcache⟩ := ih
    obtain ⟨u₂, hu₂, hle'⟩ := (run_sound (Reachable.sound hw₁) hc).2.1.universe? hu₁
    refine ⟨u₂, hu₂, le_trans hle hle', le_trans hcache ?_⟩
    rcases Reachable.universe?_run hw₁ hc hu₂ with ⟨hnone, -⟩ | ⟨u₀, hu₀, hbecomes⟩
    · rw [hnone] at hu₁
      cases hu₁
    · obtain rfl := Option.some.inj (hu₀.symm.trans hu₁)
      exact (hbecomes.retains (Reachable.closed hw₁ hu₀)).le

/-- **No layout in a cache is changed** either: it is the true one at any time. -/
theorem Leads.find?_layouts (hl : w.Leads w') (hw : w.Reachable)
    (hu : w.workspace.universe? n = some u) :
    ∃ u', w'.workspace.universe? n = some u' ∧ u ≤ u' ∧
      ∀ h l, u.layouts.find? h = some l → u'.layouts.find? h = some l := by
  obtain ⟨u', hu', hle, hcache⟩ := hl.layouts hw hu
  refine ⟨u', hu', hle, fun h l hh => ?_⟩
  have hsome : (u.layouts.find? h).isSome := by
    rw [hh]
    rfl
  obtain ⟨l', hl'⟩ := Option.isSome_iff_exists.1 (hcache h hsome)
  have hsound := hw.sound.universe hu
  have hsound' := (Reachable.sound (Leads.trans hw hl)).universe hu'
  have hsettled := (hw.closed hu).settled hsome
  have htrue : Except.ok l' = Except.ok l := calc
    Except.ok l' = u'.layoutAnew h := (hsound'.coherent h l' hl').symm
    _ = u.layoutAnew h := by
      rw [Universe.layoutAnew, Universe.target_of_le hle]
      exact hsound.ordered.layoutAnew_of_le hsound'.ordered (Universe.table_of_le hle) hsettled
    _ = Except.ok l := hsound.coherent h l hh
  rw [hl', Except.ok.inj htrue]

/-- `h` was the answer to a request for an array or an aggregate, put at some time
before `w` through a context on universe `n`. -/
def MintedIn (w : World) (n : Nat) (h : Handle) : Prop :=
  ∃ (w₀ : World) (context : Nat) (u : Universe) (r : Request), w₀.Reachable ∧
    w₀.universe? context = some u ∧ u.number = n ∧ (∀ x ∈ r.handles, w₀.workspace.Issued x) ∧
    (∃ a, w₀.answer context r = some a ∧ r.minted? a = some h) ∧
    (w₀.run (.ask context r)).Leads w

/-- **What a context has minted is in its cache**, from then on. -/
theorem MintedIn.isSome_find? {h : Handle} (hh : w.MintedIn n h)
    (hu : w.workspace.universe? n = some u) : (u.layouts.find? h).isSome := by
  obtain ⟨w₀, context, u₀, r, hw₀, hu₀, rfl, hissued, ⟨a, ha, hminted⟩, hl⟩ := hh
  obtain rfl := perform_of_answer hu₀ ha
  obtain ⟨-, hnumber⟩ := universe?_number hu₀
  obtain ⟨hleft, -⟩ := hw₀.universe?_run_ask_eq hu₀ fun x hx => hw₀.settled hu₀ (hissued x hx)
  obtain ⟨-, hstored⟩ := Universe.retains_perform (hw₀.closed hnumber) r
  obtain ⟨u', hu', -, hcache⟩ := hl.layouts (.call _ hw₀ hissued) hleft
  obtain rfl := Option.some.inj (hu'.symm.trans hu)
  exact hcache h (hstored h hminted)

/-- **Layout caches are closed under what layouts rest on.** In any context, after
any history of accepted and rejected calls:

* a handle in the cache is no primitive, and the elements of arrays and the members
  of aggregates below it, at any depth and primitives aside, are in the cache too;
* every array and every aggregate that was minted through the context or a clone of
  it is in the cache;
* the cache keeps every layout it has, unchanged, however the history goes on;
* hence an aggregate whose members are primitives or were minted so is laid out in
  one level: the layouts of its members are read off the primitives and the cache,
  which stays as it is, whatever a call inside theirs would do. -/
theorem caches_closed (hw : w.Reachable) (hu : w.universe? context = some u) :
    (∀ h, (u.layouts.find? h).isSome → h.isPrimitive = false ∧
      ∀ x, Relation.ReflTransGen u.table.LaysOver h x → x.isPrimitive = false →
        (u.layouts.find? x).isSome) ∧
    (∀ h, w.MintedIn u.number h → (u.layouts.find? h).isSome) ∧
    (∀ w', w.Leads w' → ∃ u', w'.universe? context = some u' ∧
      ∀ h l, u.layouts.find? h = some l → u'.layouts.find? h = some l) ∧
    ∀ a : Aggregate,
      (∀ m ∈ a.members, m.type.isPrimitive = true ∨ w.MintedIn u.number m.type) →
      (u.table.layoutOfShape u.target (.compound (.aggregate a))).run.run u.layouts =
        (a.layoutIn u.layouts.readOff, u.layouts) ∧
      ∀ inner : Handle → LayoutM Layout,
        (a.layoutIn (u.table.layoutCall u.target inner)).run.run u.layouts =
          (a.layoutIn u.layouts.readOff, u.layouts) := by
  obtain ⟨hcontext, hnumber⟩ := universe?_number hu
  have hclosed := hw.closed hnumber
  refine ⟨fun h hh => ⟨hclosed.isPrimitive_eq_false hh, fun x hx hp => ?_⟩,
    fun h hh => hh.isSome_find? hnumber, fun w' hl => ?_, fun a ha => ?_⟩
  · have hknows := hclosed.knows_of_reflTransGen (Or.inr hh) hx
    exact hknows.resolve_left (by rw [hp]; exact Bool.false_ne_true)
  · obtain ⟨u', hu', -, hkept⟩ := hl.find?_layouts hw hnumber
    exact ⟨u', universe?_of_number (hl.contexts hw hcontext) hu', hkept⟩
  · have hknows : ∀ m ∈ a.members, u.layouts.Knows m.type :=
      fun m hm => (ha m hm).imp_right fun hminted => hminted.isSome_find? hnumber
    have hlevel := fun inner => Aggregate.layoutIn_readOff hclosed u.target inner hknows
    -- the call that lays a member out is one whose inner calls go a level less deep
    exact ⟨hlevel (u.table.layoutBelow u.target u.table.entries.length), hlevel⟩

/-- A clone mints a struct of an array, and a pointer to the struct is interned as it
is. The array and the struct are in the cache and the pointer is not; an aggregate
of all but the pointer is laid out in one level. -/
theorem caches_closed_clone :
    ∃ (w : World) (u : Universe), w.Reachable ∧ w.universe? 0 = some u ∧
      w.MintedIn u.number (.minted 0 1) ∧
      (u.layouts.find? (.minted 0 0)).isSome ∧ (u.layouts.find? (.minted 0 1)).isSome ∧
      u.layouts.find? (.minted 0 2) = none ∧
      ∀ inner : Handle → LayoutM Layout,
        (Aggregate.layoutIn (u.table.layoutCall u.target inner) ⟨.struct,
            [⟨"tag", .primitive .u8⟩, ⟨"body", .minted 0 1⟩, ⟨"end", .primitive .u64⟩], .natural,
            .sequential, .targetDefault⟩).run.run u.layouts =
          (.ok ⟨24, 8, [0, 4, 16]⟩, u.layouts) := by
  let calls : List Call := [.newTable, .newContext 0 .device64, .clone 0,
    .ask 0 (.array (.primitive .u16) 3)]
  let request : Request := .aggregate {} [⟨"xs", .minted 0 0⟩, ⟨"n", .primitive .u32⟩]
  obtain ⟨w₀, hreplay⟩ : ∃ w₀, World.empty.replay calls = some w₀ := ⟨_, rfl⟩
  obtain ⟨w, hreplay'⟩ : ∃ w, (w₀.run (.ask 1 request)).replay
      [.intern 0 (.compound (.pointer (.minted 0 1) .global))] = some w := by
    cases hreplay
    exact ⟨_, rfl⟩
  have hw₀ : w₀.Reachable := leads_of_replay hreplay
  have hissued : ∀ x ∈ request.handles, w₀.workspace.Issued x := by
    cases hreplay
    decide +kernel
  have hl : (w₀.run (.ask 1 request)).Leads w := leads_of_replay hreplay'
  have hw : w.Reachable := (Leads.call (.ask 1 request) hw₀ hissued).trans hl
  obtain ⟨u, hu, hnumber, hpointer⟩ : ∃ u, w.universe? 0 = some u ∧ u.number = 0 ∧
      u.layouts.find? (.minted 0 2) = none := by
    cases hreplay
    cases hreplay'
    exact ⟨_, rfl, rfl, rfl⟩
  have hminted : w.MintedIn u.number (.minted 0 1) := by
    rw [hnumber]
    obtain ⟨u₀, hu₀, hnumber₀, hanswer⟩ : ∃ u₀, w₀.universe? 1 = some u₀ ∧ u₀.number = 0 ∧
        w₀.answer 1 request = some (Except.ok (.minted 0 1)) := by
      cases hreplay
      exact ⟨_, rfl, rfl, rfl⟩
    exact ⟨w₀, 1, u₀, request, hw₀, hu₀, hnumber₀, hissued, ⟨_, hanswer, rfl⟩, hl⟩
  obtain ⟨hclosed, hcached, -, hlevel⟩ := caches_closed hw hu
  have hstruct := hcached _ hminted
  have hover : u.table.LaysOver (.minted 0 1) (.minted 0 0) := by
    cases hreplay
    cases hreplay'
    cases hu
    exact ⟨_, rfl, List.mem_cons_self ..⟩
  refine ⟨w, u, hw, hu, hminted, (hclosed _ hstruct).2 _ (.single hover) rfl, hstruct, hpointer,
    fun inner => ?_⟩
  refine ((hlevel _ ?_).2 inner).trans ?_
  · simp [hminted]
  · cases hreplay
    cases hreplay'
    cases hu
    rfl

end World

end DeviceTypes
