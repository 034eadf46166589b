import DeviceTypes.Proofs.Lowering.Calls
import DeviceTypes.Proofs.Tree.Held
import DeviceTypes.Proofs.Workspace.History
/-!
# Sessions side by side

A workshop is a workspace with sessions open in its universes. The
sessions share the tables, and those in one universe share its layouts;
what a session keeps is its own. An order asks one of the sessions to
lower a type.

All sessions here lower by one library into one table. Then an order is
answered as lowering without a session answers it, whatever was ordered
before, and it plants in the table the trees that this finishes
(`Ready.perform`). Many orders plant what each of them finishes, one
after another (`Ready.performAll`).
-/

namespace DeviceTypes

namespace Lowering

open Source (TypeId)

/-- A workspace, and sessions open in its universes. -/
structure Workshop where
  workspace : Workspace
  sessions : List Session

/-- To lower a type in the session at a position. -/
structure Order where
  session : Nat
  type : TypeId
  deriving DecidableEq

namespace Workshop

/-- New sessions that lower by a library, one in each of some universes. -/
def opened (L : Library) (w : Workspace) (universes : List Nat) : Workshop :=
  ⟨w, universes.map fun n => { setting := L.setting, site := n }⟩

/-- The answer to an order, nothing where there is no such session, and the
workshop after it. -/
def perform (s : Workshop) (o : Order) : Option (Except Error Handle) × Workshop :=
  match (s.sessions[o.session]?).bind fun x =>
      s.workspace.runSession x fun setting => setting.lower o.type with
  | some (a, _, x, w) => (some a, ⟨w, s.sessions.set o.session x⟩)
  | none => (none, s)

/-- The answers to some orders, one after another, and the workshop after them. -/
def performAll (s : Workshop) : List Order → List (Option (Except Error Handle)) × Workshop
  | [] => ([], s)
  | o :: rest =>
    let r := s.perform o
    let rs := r.2.performAll rest
    (r.1 :: rs.1, rs.2)

/-- What comes of an order without a session, where each session has its target. -/
def expand (L : Library) (targets : Nat → Target) (o : Order) : Expansion Tree :=
  L.expandUpTo (targets o.session) Setting.depthLimit [] o.type

/-- The trees that an order finishes. -/
def trees (L : Library) (targets : Nat → Target) (o : Order) : List Tree :=
  (expand L targets o).finished.map Prod.snd

/-- All sessions lower by the library into the table `t` numbered `n`, each for
its target; they are in the middle of nothing and keep what is right. -/
structure Ready (L : Library) (targets : Nat → Target) (n : Nat) (t : Table) (s : Workshop) :
    Prop where
  sound : s.workspace.Sound
  table : s.workspace.tables[n]? = some t
  session : ∀ (k : Nat) (x : Session), s.sessions[k]? = some x → x.setting = L.setting ∧
    ∃ u, s.workspace.universe? x.site = some u ∧ u.table.number = n ∧
      (x.start u).Inside L (targets k) []

variable {L : Library} {targets : Nat → Target} {n : Nat} {t : Table} {s : Workshop}

/-- **What a session keeps stays right** while its table grows under it. -/
theorem inside_of_le {target : Target} {p : Progress} (hp : p.Inside L target []) {u : Universe}
    (hu : u.Sound) (ht : u.target = target) (hle : p.minter.table ≤ u.table) (log : Array Event) :
    Progress.Inside L target [] ⟨u, p.lowered, p.resolving, log⟩ where
  sound := hu
  target_eq := ht
  resolving_eq := hp.resolving_eq
  lowered i h hi := by
    obtain ⟨T, hT, hr⟩ := hp.lowered i h hi
    exact ⟨T, hT, hr.of_le hp.sound.ordered hu.ordered hle⟩
  closed := hp.closed

/-- New sessions in universes over one table are ready. -/
theorem ready_opened (L : Library) {w : Workspace} (hw : w.Sound) (ht : w.tables[n]? = some t)
    {universes : List Nat}
    (hu : ∀ m ∈ universes, ∃ u, w.universe? m = some u ∧ u.table.number = n) :
    ∃ targets, (opened L w universes).Ready L targets n t := by
  let targetAt (k : Nat) : Option Target :=
    ((universes[k]?).bind w.universe?).map Universe.target
  refine ⟨fun k => (targetAt k).getD .device64, hw, ht, fun k x hx => ?_⟩
  obtain ⟨m, hm, rfl⟩ := Option.map_eq_some_iff.1 ((List.getElem?_map ..).symm.trans hx)
  obtain ⟨u, hmu, hnum⟩ := hu m (List.mem_of_getElem? hm)
  have htarget : (targetAt k).getD .device64 = u.target := by
    simp only [targetAt, hm, Option.bind_some, hmu, Option.map_some, Option.getD_some]
  refine ⟨rfl, u, hmu, hnum, ?_⟩
  rw [htarget]
  exact Library.inside_opened L (hw.universe hmu)

/-- **A session at rest again**: putting back its universe and what it keeps
leaves the workshop ready, with the table as the session left it. -/
theorem Ready.put (hs : s.Ready L targets n t) {k : Nat} {x : Session} {u : Universe}
    (hx : s.sessions[k]? = some x) (hu : s.workspace.universe? x.site = some u)
    (hn : u.table.number = n) {p : Progress} (hle : u ≤ p.minter) (hp : p.Inside L (targets k) []) :
    Ready L targets n p.minter.table ⟨s.workspace.put p.minter, s.sessions.set k (x.rest p)⟩ := by
  have hk : k < s.sessions.length := (List.getElem?_eq_some_iff.1 hx).1
  obtain ⟨v, hv, -, -, hvt⟩ := hs.sound.universe?_put hu hle hp.sound hu hn hn
  have hsound := (hs.sound.put hu hle hp.sound).1
  have hvn : v.table.number = n := by
    rw [hvt, Table.number_of_le (Universe.table_of_le hle), hn]
  refine ⟨hsound, hvt ▸ hsound.table_eq hv hvn, fun j y hy => ?_⟩
  rcases Nat.decEq k j with hkj | rfl
  · rw [List.getElem?_set_ne hkj] at hy
    obtain ⟨hsetting, v, hv, hvn, hinside⟩ := hs.session j y hy
    -- the universe of another session has grown, and with it nothing but its table
    obtain ⟨v', hv', hvle, hvsound, -⟩ := hs.sound.universe?_put hu hle hp.sound hv hn hvn
    refine ⟨hsetting, v', hv', ?_, inside_of_le hinside hvsound ?_ ?_ #[]⟩
    · exact (Table.number_of_le (Universe.table_of_le hvle)).trans hvn
    · exact (Universe.target_of_le hvle).trans hinside.target_eq
    · exact Universe.table_of_le hvle
  · rw [List.getElem?_set_self hk, Option.some.injEq] at hy
    subst hy
    obtain ⟨hsetting, u', hu', -, hinside⟩ := hs.session k x hx
    obtain rfl := Option.some.inj (hu.symm.trans hu')
    obtain ⟨v', hv', hvle, hvsound, hvt'⟩ := hs.sound.universe?_put hu hle hp.sound hu hn hn
    refine ⟨hsetting, v', hv', ?_, inside_of_le hp hvsound ?_ ?_ #[]⟩
    · exact (Table.number_of_le (Universe.table_of_le hvle)).trans hn
    · exact (Universe.target_of_le hvle).trans hinside.target_eq
    · rw [hvt']

/-- **One order** is answered as lowering without a session answers it, and the
trees that this finishes are planted. -/
theorem Ready.perform (hs : s.Ready L targets n t) {o : Order}
    (ho : o.session < s.sessions.length) :
    ∃ a s', s.perform o = (some a, s') ∧ s'.sessions.length = s.sessions.length ∧
      s'.Ready L targets n (t.plantAll (trees L targets o)) ∧
      Agrees (IsTree (t.plantAll (trees L targets o))) (expand L targets o).answer a := by
  have hx := List.getElem?_eq_getElem ho
  generalize s.sessions[o.session] = x at hx
  obtain ⟨hsetting, u, hu, hn, hinside⟩ := hs.session o.session x hx
  let r := (L.setting.lower o.type).run (x.start u)
  have hfollows : Follows L (targets o.session) [] IsTree (expand L targets o) (x.start u) r :=
    Library.lower_follows hinside o.type
  obtain ⟨hsteps, hagrees⟩ := hfollows
  have htable : r.2.minter.table = t.plantAll (trees L targets o) := by
    have htu := hs.sound.table_eq hu hn
    rw [hs.table, Option.some.injEq] at htu
    rw [htu]
    exact hsteps.planted
  refine ⟨r.1, ⟨s.workspace.put r.2.minter, s.sessions.set o.session (x.rest r.2)⟩, ?_, ?_, ?_, ?_⟩
  · rw [Workshop.perform, hx, Option.bind_some, Workspace.runSession, hu, Option.map_some,
      hsetting]
    rfl
  · exact List.length_set
  · exact htable ▸ hs.put hx hu hn hsteps.le hsteps.inside
  · exact htable ▸ hagrees

/-- Whatever an order finishes was accepted by some target. -/
theorem known_of_mem_trees {o : Order} {T : Tree} (hT : T ∈ trees L targets o) : T.Known := by
  obtain ⟨e, he, rfl⟩ := List.mem_map.1 hT
  exact ((Library.expandUpTo_correct _ _ _).meets e he).2.known

/-- **Many orders** leave the table with all planted that any of them finishes,
and each is answered as if it were alone. -/
theorem Ready.performAll (hs : s.Ready L targets n t) {orders : List Order}
    (ho : ∀ o ∈ orders, o.session < s.sessions.length) :
    (s.performAll orders).2.Ready L targets n (t.plantAll (orders.flatMap (trees L targets))) ∧
      ∀ (j : Nat) (o : Order), orders[j]? = some o →
        ∃ a, (s.performAll orders).1[j]? = some (some a) ∧
          Agrees (IsTree (t.plantAll (orders.flatMap (trees L targets))))
            (expand L targets o).answer a := by
  induction orders generalizing s t with
  | nil => exact ⟨hs, fun j o h => by simp at h⟩
  | cons o rest ih =>
    rw [List.forall_mem_cons] at ho
    obtain ⟨a, s', hperform, hlen, hs', hagrees⟩ := hs.perform ho.1
    obtain ⟨hrest, hanswers⟩ := ih hs' fun o' ho' => hlen ▸ ho.2 o' ho'
    have hplant : t.plantAll ((o :: rest).flatMap (trees L targets)) =
        (t.plantAll (trees L targets o)).plantAll (rest.flatMap (trees L targets)) := by
      rw [List.flatMap_cons, Table.plantAll_append]
    have hrun : s.performAll (o :: rest) =
        (some a :: (s'.performAll rest).1, (s'.performAll rest).2) := by
      rw [Workshop.performAll, hperform]
    rw [hplant, hrun]
    refine ⟨hrest, fun j o' hj => ?_⟩
    rcases j with - | j
    · obtain rfl := Option.some.inj hj
      refine ⟨a, rfl, hagrees.mono fun T h hT => ?_⟩
      -- the later orders plant more, and the handle goes on reading the same
      have ho' := hs'.sound.ordered n _ hs'.table
      have hknown : ∀ T ∈ rest.flatMap (trees L targets), T.Known := by
        intro T hT
        obtain ⟨o', -, hT⟩ := List.mem_flatMap.1 hT
        exact known_of_mem_trees hT
      have hlater := ho'.plants_plantAll hknown
      exact hT.of_le ho' hlater.ordered hlater.le
    · exact hanswers j o' hj

end Workshop

end Lowering

end DeviceTypes
