import DeviceTypes.Proofs.Layout.Compared
import DeviceTypes.Proofs.Workspace.Refusal
/-!
# Contexts compare policies

A program may have one list of members laid out under many policies, and in
many orders. Whether it asks for the aggregates or puts their shapes into
the table, a context lays each of them out from the layouts of the members
(`Leads.layoutMade_eq`), and these are the same whatever was made before. So
the layouts compare as the rules do (`layouts_compare`).
-/

namespace DeviceTypes

/-- The policy asks for an aggregate of this kind and packing, and states no
alignment. -/
structure Policy.Natural (p : Policy) (kind : AggregateKind) (packing : Packing) : Prop where
  kind_eq : p.kind = kind
  alignment_eq : p.alignment.getD .natural = .natural
  packing_eq : p.packing.getD .sequential = packing

/-- How a program has an aggregate made. -/
inductive Route where
  /-- It asks for the aggregate, which is checked and laid out first. -/
  | requested
  /-- It puts the shape into the table as it is. -/
  | interned

namespace Route

/-- What the program asks for. -/
def request : Route → Policy → List Member → Request
  | requested, policy, members => .aggregate policy members
  | interned, policy, members => .intern (.compound (.aggregate (policy.aggregate members)))

/-- What a target asks of the aggregate before it is laid out. -/
def check : Route → Target → Aggregate → Except Rejection Unit
  | requested, target, a => a.check target
  | interned, _, _ => .ok ()

end Route

/-- Whichever route is taken, the check does not ask in which order members come. -/
theorem Route.check_perm {route : Route} {target : Target} {a b : Aggregate}
    (h : route.check target a = .ok ()) (hp : a.members.Perm b.members)
    (ha : a.alignment = b.alignment) : route.check target b = .ok () := by
  cases route with
  | requested => exact Aggregate.check_perm h hp ha
  | interned => rfl

theorem Policy.Natural.isPacked_eq {p : Policy} {kind : AggregateKind} {packing : Packing}
    (h : p.Natural kind packing) (members : List Member) :
    (p.aggregate members).isPacked = (packing = .packed : Bool) := by
  rw [← h.packing_eq]
  rfl

/-- Policies that state no alignment are checked alike. -/
theorem Policy.Natural.check_eq {p q : Policy} {kind kind' : AggregateKind}
    {packing packing' : Packing} (hp : p.Natural kind packing) (hq : q.Natural kind' packing')
    (route : Route) (target : Target) (members : List Member) :
    route.check target (p.aggregate members) = route.check target (q.aggregate members) := by
  cases route with
  | requested => exact Aggregate.check_congr rfl (hp.alignment_eq.trans hq.alignment_eq.symm)
  | interned => rfl

theorem Table.Ordered.align_pos_of_forall₂ {t : Table} (ho : t.Ordered) {target : Target}
    {members : List Member} {ls : List Layout}
    (h : List.Forall₂ (fun m lm => t.layoutAnew target m.type = .ok lm) members ls) :
    ∀ l ∈ ls, 0 < l.align := by
  induction h with
  | nil => exact List.forall_mem_nil _
  | cons hl _ ih => exact List.forall_mem_cons.2 ⟨ho.align_pos_layoutAnew hl, ih⟩

namespace Universe

/-- The layout of an aggregate made by this route, worked out anew. -/
def layoutMade (u : Universe) (route : Route) (a : Aggregate) : Except Rejection Layout := do
  route.check u.target a
  a.layoutIn u.layoutAnew

variable {u : Universe} {route : Route} {a b : Aggregate} {l : Layout} {policy : Policy}
  {members members' : List Member}

/-- **What it takes to be laid out once it is made.** -/
theorem Sound.layoutMade_eq_ok_iff (hu : u.Sound) :
    u.layoutMade route a = .ok l ↔ route.check u.target a = .ok () ∧
      ∃ ls, List.Forall₂ (fun m lm => u.layoutAnew m.type = .ok lm) a.members ls ∧
        a.Fits ls ∧ a.exact ls = l := by
  rw [← Aggregate.layoutIn_eq_ok_iff fun _ _ _ hl => hu.ordered.align_pos_layoutAnew hl, layoutMade]
  cases route.check u.target a with
  | error e => exact ⟨fun h => (nomatch h), fun h => (nomatch h.1)⟩
  | ok _ => exact ⟨fun h => ⟨rfl, h⟩, fun h => h.2⟩

/-- **The packed struct of the same members** is laid out too, with no member later. -/
theorem Sound.layoutMade_packed (hu : u.Sound) {struct packed : Policy}
    (hstruct : struct.Natural .struct .sequential) (hpacked : packed.Natural .struct .packed)
    (h : u.layoutMade route (struct.aggregate members) = .ok l) :
    ∃ l', u.layoutMade route (packed.aggregate members) = .ok l' ∧ l'.size ≤ l.size ∧
      List.Forall₂ (· ≤ ·) l'.offsets l.offsets := by
  obtain ⟨hcheck, ls, hls, hfits, rfl⟩ := hu.layoutMade_eq_ok_iff.1 h
  obtain ⟨hfits', hle⟩ := hfits.packed_le (b := packed.aggregate members)
    (hu.ordered.align_pos_of_forall₂ hls) hstruct.kind_eq (hstruct.isPacked_eq members)
    hpacked.kind_eq (hpacked.isPacked_eq members) hpacked.alignment_eq
  rw [hstruct.check_eq hpacked] at hcheck
  exact ⟨_, hu.layoutMade_eq_ok_iff.2 ⟨hcheck, ls, hls, hfits', rfl⟩, hle⟩

/-- **So is their union**, in no more room. -/
theorem Sound.layoutMade_union (hu : u.Sound) {struct union : Policy} {packing : Packing}
    (hstruct : struct.Natural .struct .sequential) (hunion : union.Natural .union packing)
    (h : u.layoutMade route (struct.aggregate members) = .ok l) :
    ∃ l', u.layoutMade route (union.aggregate members) = .ok l' ∧ l'.size ≤ l.size ∧
      (packing = .sequential → l'.align = l.align) := by
  obtain ⟨hcheck, ls, hls, hfits, rfl⟩ := hu.layoutMade_eq_ok_iff.1 h
  obtain ⟨hfits', hle, halign⟩ := hfits.union_le (b := union.aggregate members)
    (hstruct.isPacked_eq members) hstruct.alignment_eq hunion.kind_eq hunion.alignment_eq
  rw [hstruct.check_eq hunion] at hcheck
  refine ⟨_, hu.layoutMade_eq_ok_iff.2 ⟨hcheck, ls, hls, hfits', rfl⟩, hle, ?_⟩
  rintro rfl
  exact halign (hunion.isPacked_eq members)

/-- **Where nothing is aligned on the way, the order of the members does not matter**
to the size and the alignment. -/
theorem Sound.layoutMade_perm (hu : u.Sound)
    (hfree : policy.kind = .union ∨ policy.packing = some .packed) (hp : members.Perm members')
    (h : u.layoutMade route (policy.aggregate members) = .ok l) :
    ∃ l', u.layoutMade route (policy.aggregate members') = .ok l' ∧ l'.size = l.size ∧
      l'.align = l.align := by
  obtain ⟨hcheck, ls, hls, hfits, rfl⟩ := hu.layoutMade_eq_ok_iff.1 h
  obtain ⟨ls', hls', hperm⟩ := List.perm_comp_forall₂ hp.symm hls
  have hfree' : policy.kind = .union ∨ (policy.aggregate members).isPacked = true := by
    refine hfree.imp_right fun hpacked => ?_
    simp [Aggregate.isPacked, Policy.aggregate, hpacked]
  obtain ⟨hfits', hsame⟩ := hfits.perm hfree' (hu.ordered.align_pos_of_forall₂ hls) hperm.symm
    members'
  exact ⟨_, hu.layoutMade_eq_ok_iff.2
    ⟨Route.check_perm hcheck hp rfl, ls', hls', hfits', rfl⟩, hsame⟩

/-- So permuted members are refused exactly when the original ones are. -/
theorem Sound.exists_layoutMade_error_of_perm (hu : u.Sound)
    (hfree : policy.kind = .union ∨ policy.packing = some .packed) (hp : members.Perm members')
    (h : ∃ e, u.layoutMade route (policy.aggregate members) = .error e) :
    ∃ e, u.layoutMade route (policy.aggregate members') = .error e := by
  obtain ⟨e, he⟩ := h
  rcases hl : u.layoutMade route (policy.aggregate members') with e' | l
  · exact ⟨e', rfl⟩
  · obtain ⟨l', hl', -⟩ := hu.layoutMade_perm hfree hp.symm hl
    rw [he] at hl'
    cases hl'

end Universe

namespace World

/-- The handle a context answers with when an aggregate is made. -/
def made (w : World) (context : Nat) (policy : Policy) (members : List Member) :
    Route → Option (Except Rejection Handle)
  | .requested => w.answer context (.aggregate policy members)
  | .interned =>
    (w.answer context (.intern (.compound (.aggregate (policy.aggregate members))))).map .ok

/-- The layout that a context gives an aggregate once it is made, or the rejection
of either. -/
def layoutMade (w : World) (context : Nat) (route : Route) (policy : Policy)
    (members : List Member) : Option (Except Rejection Layout) :=
  (w.made context policy members route).bind fun
    | .ok h => (w.run (.ask context (route.request policy members))).answer context (.layoutOf h)
    | .error e => some (.error e)

variable {w w' : World} {context : Nat} {u : Universe} {route : Route} {policy : Policy}
  {members : List Member}

/-- A compound that a request has put into the table is laid out from its parts. -/
theorem Reachable.answer_layoutOf_made (hw : w.Reachable) (hu : w.universe? context = some u)
    {r : Request} (hr : ∀ h ∈ r.handles, w.workspace.Issued h) {c : Compound}
    (hc : ∀ h ∈ c.parts, u.table.Settled h) (htable : (u.perform r).2.2.table = u.table.adding c) :
    (w.run (.ask context r)).answer context (.layoutOf (u.table.handleOf c)) =
      some (c.layoutIn u.target u.layoutAnew) := by
  obtain ⟨u', hu', hle, -, htable'⟩ :=
    hw.universe?_run_ask hu fun h hh => hw.settled hu (hr h hh)
  have hw' : (w.run (.ask context r)).Reachable := Leads.call (.ask context r) hw hr
  rw [hw'.answer_layoutOf hu', Universe.layoutAnew, htable', htable, Universe.target_of_le hle]
  exact congrArg some ((hw.universe hu).layoutAnew_adding hc)

/-- **However an aggregate is made**, its layout is worked out from the members'. -/
theorem Reachable.layoutMade_eq (hw : w.Reachable) (hu : w.universe? context = some u)
    (hissued : ∀ m ∈ members, w.workspace.Issued m.type) :
    w.layoutMade context route policy members =
      some (u.layoutMade route (policy.aggregate members)) := by
  have hparts : ∀ h ∈ (Compound.aggregate (policy.aggregate members)).parts,
      w.workspace.Issued h := by
    intro h hh
    obtain ⟨m, hm, rfl⟩ := List.mem_map.1 hh
    exact hissued m hm
  have hsettled := fun h hh => hw.settled hu (hparts h hh)
  have hlaid := fun r hr htable => hw.answer_layoutOf_made (r := r) hu hr hsettled htable
  rcases route with - | -
  · rw [layoutMade, made, answer_eq hu, Universe.layoutMade]
    have hanswer : (u.perform (.aggregate policy members)).1 =
        ((Universe.aggregate policy members).run u).1 := rfl
    rcases (hw.universe hu).run_aggregate_cases policy members with
      ⟨e, layouts, -, hr, hcheck | ⟨hcheck, hl⟩⟩ | ⟨l, layouts, hcheck, hl, hr⟩
    · rw [hanswer, hr, Route.check, hcheck]
      rfl
    · rw [hanswer, hr, Route.check, hcheck, hl]
      rfl
    · rw [hanswer, hr, Route.check, hcheck]
      exact hlaid (.aggregate policy members) hparts (congrArg (·.2.table) hr)
  · rw [layoutMade, made, answer_eq hu]
    exact hlaid (.intern (.compound (.aggregate (policy.aggregate members)))) hparts rfl

/-- **And stays what it is** while programs go on. -/
theorem Leads.layoutMade_eq (hl : w.Leads w') (hw : w.Reachable)
    (hu : w.universe? context = some u) (hissued : ∀ m ∈ members, w.workspace.Issued m.type) :
    w'.layoutMade context route policy members =
      some (u.layoutMade route (policy.aggregate members)) := by
  have hw' : w'.Reachable := hw.trans hl
  obtain ⟨u', hu', hle⟩ := hl.universe? hw.sound hu
  have hissued' : ∀ m ∈ members, w'.workspace.Issued m.type :=
    fun m hm => (hl.grows hw.sound).1.issued (hissued m hm)
  have hin : (Compound.aggregate (policy.aggregate members)).layoutIn u.target u'.layoutAnew =
      (Compound.aggregate (policy.aggregate members)).layoutIn u.target u.layoutAnew := by
    refine Compound.layoutIn_congr fun x hx => ?_
    obtain ⟨m, hm, rfl⟩ := List.mem_map.1 hx
    rw [Universe.layoutAnew, Universe.target_of_le hle]
    exact (hw.universe hu).ordered.layoutAnew_of_le (hw'.universe hu').ordered
      (Universe.table_of_le hle) (hw.settled hu (hissued m hm))
  rw [Compound.layoutIn, Compound.layoutIn] at hin
  rw [hw'.layoutMade_eq hu' hissued', Universe.layoutMade, Universe.layoutMade, hin,
    Universe.target_of_le hle]

/-- **Layout policies compare as they should.** A program makes aggregates of one list
of members in a context, either way, at any time after `w`:

* if the struct of the members lays out, then so does the packed one, with no
  more bytes and no member later, and so do the unions, with no more bytes, and
  with the alignment of the struct unless they are packed;
* unions, and packed structs, keep their size and their alignment when their
  members are put in another order, and are refused in that order if and only
  if they are in this.

The struct, and the structs and unions it is compared with, state no
alignment; those whose members change places may. -/
theorem layouts_compare (hw : w.Reachable) (hu : w.universe? context = some u)
    (hissued : ∀ m ∈ members, w.workspace.Issued m.type) (hl : w.Leads w') (route : Route) :
    (∀ (struct : Policy) (l : Layout), struct.Natural .struct .sequential →
      w.layoutMade context route struct members = some (.ok l) →
      (∀ packed : Policy, packed.Natural .struct .packed →
        ∃ l', w'.layoutMade context route packed members = some (.ok l') ∧ l'.size ≤ l.size ∧
          List.Forall₂ (· ≤ ·) l'.offsets l.offsets) ∧
      ∀ (packing : Packing) (union : Policy), union.Natural .union packing →
        ∃ l', w'.layoutMade context route union members = some (.ok l') ∧ l'.size ≤ l.size ∧
          (packing = .sequential → l'.align = l.align)) ∧
    ∀ policy : Policy, policy.kind = .union ∨ policy.packing = some .packed →
      ∀ members', members.Perm members' →
        (∀ l, w.layoutMade context route policy members = some (.ok l) →
          ∃ l', w'.layoutMade context route policy members' = some (.ok l') ∧
            l'.size = l.size ∧ l'.align = l.align) ∧
        ((∃ e, w.layoutMade context route policy members = some (.error e)) ↔
          ∃ e, w'.layoutMade context route policy members' = some (.error e)) := by
  have hsound := hw.universe hu
  have hnow : ∀ policy, w.layoutMade context route policy members =
      some (u.layoutMade route (policy.aggregate members)) :=
    fun policy => hw.layoutMade_eq hu hissued
  have hlater : ∀ policy members', (∀ m ∈ members', w.workspace.Issued m.type) →
      w'.layoutMade context route policy members' =
        some (u.layoutMade route (policy.aggregate members')) :=
    fun policy members' hissued' => hl.layoutMade_eq hw hu hissued'
  simp only [hnow, hlater _ _ hissued, Option.some_inj]
  refine ⟨fun struct l hstruct h => ⟨fun packed hpacked => ?_, fun packing union hunion => ?_⟩,
    fun policy hfree members' hp => ?_⟩
  · exact hsound.layoutMade_packed hstruct hpacked h
  · exact hsound.layoutMade_union hstruct hunion h
  · simp only [hlater policy members' fun m hm => hissued m (hp.mem_iff.2 hm), Option.some_inj]
    exact ⟨fun l h => hsound.layoutMade_perm hfree hp h,
      hsound.exists_layoutMade_error_of_perm hfree hp,
      hsound.exists_layoutMade_error_of_perm hfree hp.symm⟩

/-- A byte, a word and a byte take 24 bytes as a struct; no more when packed later on,
and packed the other way round they take as much. -/
theorem layouts_compare_three :
    ∃ (w w' : World) (members : List Member), w.Reachable ∧ w.Leads w' ∧
      w.layoutMade 0 .requested {} members = some (.ok ⟨24, 8, [0, 8, 16]⟩) ∧
      (∃ l', w'.layoutMade 0 .requested { packing := some .packed } members = some (.ok l') ∧
        l'.size ≤ 24 ∧ List.Forall₂ (· ≤ ·) l'.offsets [0, 8, 16]) ∧
      (∃ l', w'.layoutMade 0 .requested .union members = some (.ok l') ∧ l'.size ≤ 24 ∧
        l'.align = 8) ∧
      w.layoutMade 0 .requested { packing := some .packed } members =
        some (.ok ⟨10, 1, [0, 1, 9]⟩) ∧
      ∃ l', w'.layoutMade 0 .requested { packing := some .packed } members.reverse =
        some (.ok l') ∧ l'.size = 10 ∧ l'.align = 1 := by
  obtain ⟨members, hmembers⟩ : ∃ members : List Member, members =
    [⟨"tag", .primitive .u8⟩, ⟨"count", .primitive .u64⟩, ⟨"flag", .primitive .u8⟩] := ⟨_, rfl⟩
  obtain ⟨w, hreplay⟩ : ∃ w, World.empty.replay [.newTable, .newContext 0 .device64] = some w :=
    ⟨_, rfl⟩
  have hw : w.Reachable := leads_of_replay hreplay
  obtain ⟨u, hu⟩ : ∃ u, w.universe? 0 = some u := by
    cases hreplay
    exact ⟨_, rfl⟩
  have hissued : ∀ m ∈ members, w.workspace.Issued m.type := by
    cases hreplay
    subst hmembers
    decide
  have hl : w.Leads (w.run (.ask 0 (.aggregate {} members))) :=
    Leads.refl.call _ fun h hh => by
      obtain ⟨m, hm, rfl⟩ := List.mem_map.1 hh
      exact hissued m hm
  obtain ⟨hcompare, hperm⟩ := layouts_compare hw hu hissued hl .requested
  have hstruct : w.layoutMade 0 .requested {} members = some (.ok ⟨24, 8, [0, 8, 16]⟩) := by
    cases hreplay
    subst hmembers
    rfl
  have hpacked : w.layoutMade 0 .requested { packing := some .packed } members =
      some (.ok ⟨10, 1, [0, 1, 9]⟩) := by
    cases hreplay
    subst hmembers
    rfl
  obtain ⟨hpack, hunion⟩ := hcompare {} _ ⟨rfl, rfl, rfl⟩ hstruct
  obtain ⟨lu, hlu, hsize, halign⟩ := hunion .sequential .union ⟨rfl, rfl, rfl⟩
  exact ⟨w, _, members, hw, hl, hstruct, hpack { packing := some .packed } ⟨rfl, rfl, rfl⟩,
    ⟨lu, hlu, hsize, halign rfl⟩, hpacked,
    (hperm { packing := some .packed } (Or.inr rfl) _ members.reverse_perm.symm).1 _ hpacked⟩

end World

end DeviceTypes
