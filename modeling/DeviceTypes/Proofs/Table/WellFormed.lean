import DeviceTypes.Proofs.Layout.Anew
import DeviceTypes.Proofs.Tree.Accepted
import DeviceTypes.Proofs.Universe.Sound
/-!
# Well-formed tables

A table is well formed for given pointer widths when each entry mentions
only handles that the table knows, each aggregate has proper names, and
each entry has a layout. Of a target only the pointer widths bear on
layouts (`layoutAnew_congr`), so what one context has admitted every other
context with those widths can lay out, whatever limits of its own it sets.

Nothing asks whether the parts of an array or an aggregate are known. That
they are laid out says so (`Compound.layoutIn_parts`), and so a request
that is accepted keeps the table well formed (`Sound.wellFormed_perform`).
-/

namespace DeviceTypes

/-! ## Members by name -/

namespace Aggregate

theorem member?_go_eq_some_iff {members : List Member} (hn : (members.map Member.name).Nodup)
    {i k : Nat} {name : String} {h : Handle} :
    member?.go name i members = some (k, h) ↔
      ∃ j, k = i + j ∧ members[j]? = some ⟨name, h⟩ := by
  induction members generalizing i with
  | nil => simp [member?.go]
  | cons m rest ih =>
    obtain ⟨hfresh, hrest⟩ := List.nodup_cons.1 hn
    rw [member?.go]
    by_cases hm : m.name = name
    · rw [if_pos hm, Option.some.injEq, Prod.mk.injEq]
      constructor
      · rintro ⟨rfl, rfl⟩
        exact ⟨0, rfl, by rw [← hm, List.getElem?_cons_zero]⟩
      · rintro ⟨j, rfl, hj⟩
        cases j with
        | zero =>
          rw [List.getElem?_cons_zero, Option.some.injEq] at hj
          rw [hj]
          exact ⟨rfl, rfl⟩
        | succ j =>
          -- a second member of that name would repeat the first
          have hmem : (⟨name, h⟩ : Member) ∈ rest := List.mem_of_getElem? hj
          exact absurd (List.mem_map.2 ⟨_, hmem, hm.symm⟩) hfresh
    · rw [if_neg hm, ih hrest]
      constructor
      · rintro ⟨j, rfl, hj⟩
        exact ⟨j + 1, by omega, hj⟩
      · rintro ⟨j, rfl, hj⟩
        cases j with
        | zero =>
          rw [List.getElem?_cons_zero, Option.some.injEq] at hj
          rw [hj] at hm
          exact absurd rfl hm
        | succ j => exact ⟨j, by omega, hj⟩

/-- **Names find members**: where no name repeats, the member found under a
name is the one that has it. -/
theorem member?_eq_some_iff {a : Aggregate} (hn : (a.members.map Member.name).Nodup)
    {i : Nat} {name : String} {h : Handle} :
    a.member? name = some (i, h) ↔ a.members[i]? = some ⟨name, h⟩ := by
  rw [member?, member?_go_eq_some_iff hn]
  constructor
  · rintro ⟨j, rfl, hj⟩
    rwa [Nat.zero_add]
  · exact fun hi => ⟨i, (Nat.zero_add i).symm, hi⟩

end Aggregate

/-! ## Layouts and their parts -/

section Layout

variable {target target' : Target} {f : Handle → Except Rejection Layout}

theorem Placement.ok_of_placeEach {kind : AggregateKind} {packed : Bool} {p q : Placement}
    {rs : List (Except Rejection Layout)} (h : p.placeEach kind packed rs = .ok q) :
    ∀ r ∈ rs, ∃ l, r = .ok l := by
  induction rs generalizing p with
  | nil => exact List.forall_mem_nil _
  | cons r rest ih =>
    rw [placeEach] at h
    rcases r with e | l
    · cases h
    · simp only [bind, Except.bind] at h
      rcases hp : p.place kind packed l with e | p'
      · rw [hp] at h
        cases h
      · rw [hp] at h
        exact List.forall_mem_cons.2 ⟨⟨l, rfl⟩, ih h⟩

/-- **What is laid out has its parts laid out.** -/
theorem Compound.layoutIn_parts {c : Compound} {l : Layout} (h : c.layoutIn target f = .ok l) :
    ∀ x ∈ c.layoutParts, ∃ m, f x = .ok m := by
  cases c with
  | pointer pointee space => exact List.forall_mem_nil _
  | array element length =>
    rw [Compound.layoutIn_array] at h
    intro x hx
    obtain rfl := List.mem_singleton.1 hx
    rcases hx : f x with e | m
    · rw [hx] at h
      cases h
    · exact ⟨m, rfl⟩
  | aggregate a =>
    simp only [Compound.layoutIn, Aggregate.layoutIn_eq] at h
    intro x hx
    obtain ⟨m, hm, rfl⟩ := List.mem_map.1 hx
    rcases hp : Placement.placeEach a.kind a.isPacked {} (a.members.map fun x => f x.type)
      with e | placed
    · rw [hp] at h
      cases h
    · exact Placement.ok_of_placeEach hp _ (List.mem_map.2 ⟨m, hm, rfl⟩)

/-- **Only the pointer widths of a target bear on layouts.** -/
theorem Shape.layoutIn_target (hw : target.pointerWidths = target'.pointerWidths) (s : Shape) :
    s.layoutIn target f = s.layoutIn target' f := by
  cases s with
  | primitive p => rfl
  | compound c =>
    cases c with
    | pointer pointee space =>
      simp only [Shape.layoutIn, Compound.layoutIn, Target.pointerWidth, hw]
    | array element length => rfl
    | aggregate a => rfl

theorem Table.layoutAnew_congr (t : Table)
    (hw : target.pointerWidths = target'.pointerWidths) (h : Handle) :
    t.layoutAnew target h = t.layoutAnew target' h := by
  have hreading : layoutReading target = layoutReading target' := by
    simp only [layoutReading, Reading.mk.injEq, true_and]
    funext f s
    exact Shape.layoutIn_target hw s
  rw [Table.layoutAnew, hreading]
  rfl

end Layout

/-! ## Entries -/

namespace Table

variable {t : Table} {c : Compound} {widths : Vector UInt32 5}

theorem mem_entries_adding {d : Compound} : d ∈ (t.adding c).entries ↔ d ∈ t.entries ∨ d = c := by
  rw [entries_adding]
  split
  · exact ⟨Or.inl, fun h => h.elim id fun e => e ▸ ‹_›⟩
  · rw [List.mem_append, List.mem_singleton]

theorem mem_entries_of_get? {h : Handle} (hg : t.get? h = some (.compound c)) :
    c ∈ t.entries := by
  cases h with
  | primitive p => cases hg
  | loose w => cases hg
  | minted n i =>
    simp only [get?, Option.ite_none_right_eq_some, Option.map_eq_some_iff,
      Shape.compound.injEq] at hg
    obtain ⟨-, d, hd, rfl⟩ := hg
    exact List.mem_of_getElem? hd

/-- Entries mention known handles, aggregates have proper names, and every entry
has a layout for targets with these pointer widths. -/
structure WellFormed (widths : Vector UInt32 5) (t : Table) : Prop where
  parts : ∀ c ∈ t.entries, ∀ h ∈ c.parts, t.contains h = true
  names : ∀ a, Compound.aggregate a ∈ t.entries →
    (∀ m ∈ a.members, m.name ≠ "") ∧ (a.members.map Member.name).Nodup
  layout : ∀ target : Target, target.pointerWidths = widths → ∀ c ∈ t.entries,
    ∃ l, c.layoutIn target (t.layoutAnew target) = .ok l

theorem wellFormed_empty (n : Nat) : (empty n).WellFormed widths where
  parts := List.forall_mem_nil _
  names _ ha := absurd ha List.not_mem_nil
  layout _ _ := List.forall_mem_nil _

/-- **Every known handle is laid out** in a well-formed table. -/
theorem WellFormed.layoutAnew_ok (hw : t.WellFormed widths) (ho : t.Ordered) {target : Target}
    (ht : target.pointerWidths = widths) {h : Handle} (hc : t.contains h = true) :
    ∃ l, t.layoutAnew target h = .ok l := by
  rw [contains_eq_isSome_get?, Option.isSome_iff_exists] at hc
  obtain ⟨s, hs⟩ := hc
  rw [ho.layoutAnew_eq, hs]
  cases s with
  | primitive p => exact ⟨_, rfl⟩
  | compound c => exact hw.layout target ht c (mem_entries_of_get? hs)

/-- **One more entry**: its parts are known, its names are proper, and some target
with the right widths lays it out. -/
theorem WellFormed.adding (hw : t.WellFormed widths) (ho : t.Ordered)
    (hparts : ∀ h ∈ c.parts, t.contains h = true)
    (hnames : ∀ a, c = .aggregate a →
      (∀ m ∈ a.members, m.name ≠ "") ∧ (a.members.map Member.name).Nodup)
    {target : Target} (ht : target.pointerWidths = widths) {l : Layout}
    (hl : c.layoutIn target (t.layoutAnew target) = .ok l) : (t.adding c).WellFormed widths := by
  have hle := le_adding t c
  have ho' : (t.adding c).Ordered := ho.adding fun h hh => settled_of_contains (hparts h hh)
  have hknown : ∀ d ∈ (t.adding c).entries, ∀ h ∈ d.parts, t.contains h = true := by
    intro d hd
    rcases mem_entries_adding.1 hd with hd | rfl
    · exact hw.parts d hd
    · exact hparts
  refine ⟨fun d hd h hh => contains_of_le hle (hknown d hd h hh), fun a ha => ?_, ?_⟩
  · rcases mem_entries_adding.1 ha with ha | ha
    · exact hw.names a ha
    · exact hnames a ha.symm
  · intro target' ht' d hd
    -- the parts were known before, so they are laid out as they were
    have hsame : d.layoutIn target' ((t.adding c).layoutAnew target') =
        d.layoutIn target' (t.layoutAnew target') := by
      refine Compound.layoutIn_congr fun x hx => ?_
      have hx' := hknown d hd x (d.layoutParts_subset_parts hx)
      exact ho.layoutAnew_of_le ho' hle (settled_of_contains hx')
    rw [hsame]
    rcases mem_entries_adding.1 hd with hd | rfl
    · exact hw.layout target' ht' d hd
    · refine ⟨l, ?_⟩
      rw [← hl]
      have hwidths : target'.pointerWidths = target.pointerWidths := ht'.trans ht.symm
      have hlayouts : t.layoutAnew target' = t.layoutAnew target :=
        funext (t.layoutAnew_congr hwidths)
      rw [hlayouts]
      exact Shape.layoutIn_target hwidths (.compound d)

end Table

/-! ## Requests -/

/-- A request that fills its table only as a context with these pointer widths
does: it puts nothing in as it is, and it mints under a target with them. -/
def Request.Fills (widths : Vector UInt32 5) (target : Target) : Request → Prop
  | .intern _ => False
  | .pointer .. | .array .. | .aggregate .. => target.pointerWidths = widths
  | .layoutOf _ | .shapeOf _ | .passedByReference _ | .spell _ | .contains _ | .find? _ => True

instance (widths : Vector UInt32 5) (target : Target) (r : Request) :
    Decidable (r.Fills widths target) :=
  match r with
  | .intern _ => isFalse id
  | .pointer .. | .array .. | .aggregate .. =>
    inferInstanceAs (Decidable (target.pointerWidths = widths))
  | .layoutOf _ | .shapeOf _ | .passedByReference _ | .spell _ | .contains _ | .find? _ =>
    isTrue trivial

namespace Universe

variable {u : Universe} {widths : Vector UInt32 5}

/-- **A compound that a context mints**, its names checked, keeps the table well
formed. -/
theorem Sound.wellFormed_mint (hu : u.Sound) (hw : u.table.WellFormed widths)
    (ht : u.target.pointerWidths = widths) {c : Compound} (hc : ∀ h ∈ c.parts, u.table.Settled h)
    (hlaid : c.parts = c.layoutParts)
    (hnames : ∀ a, c = .aggregate a →
      (∀ m ∈ a.members, m.name ≠ "") ∧ (a.members.map Member.name).Nodup) :
    ((Universe.mint c).run u).2.table.WellFormed widths := by
  rcases hl : c.layoutIn u.target u.layoutAnew with e | l
  · obtain ⟨layouts, -, hr⟩ := hu.run_mint_of_error hl
    rw [hr]
    exact hw
  · obtain ⟨layouts, -, hr⟩ := hu.run_mint_of_ok hc hl
    rw [hr]
    refine hw.adding hu.ordered (fun h hh => ?_) hnames ht hl
    obtain ⟨m, hm⟩ := Compound.layoutIn_parts hl h (hlaid ▸ hh)
    obtain ⟨s, hs, -⟩ := hu.ordered.get?_of_layoutAnew hm
    rw [Table.contains_eq_isSome_get?, hs]
    rfl

/-- **A request keeps a well-formed table well formed**, accepted or rejected. -/
theorem Sound.wellFormed_perform (hu : u.Sound) (hw : u.table.WellFormed widths) {r : Request}
    (hr : ∀ h ∈ r.handles, u.table.Settled h) (hf : r.Fills widths u.target) :
    (u.perform r).2.2.table.WellFormed widths := by
  cases r with
  | pointer pointee space =>
    change ((Universe.pointer pointee space).run u).2.table.WellFormed widths
    rw [run_pointer]
    split
    · rename_i hknown
      refine hw.adding hu.ordered (fun h hh => ?_) (fun a ha => ?_) hf rfl
      · exact List.mem_singleton.1 hh ▸ hknown
      · cases ha
    · exact hw
  | array element length =>
    exact hu.wellFormed_mint hw hf (c := .array element length) hr rfl fun a ha => by cases ha
  | aggregate policy members =>
    change ((Universe.aggregate policy members).run u).2.table.WellFormed widths
    rw [run_aggregate]
    split
    · rename_i hcheck
      obtain ⟨-, hnames, hnodup, -⟩ := Aggregate.check_eq_ok_iff.1 hcheck
      refine hu.wellFormed_mint hw hf (c := .aggregate (policy.aggregate members)) hr rfl ?_
      rintro a ⟨⟩
      exact ⟨hnames, hnodup⟩
    · exact hw
  | layoutOf h =>
    obtain ⟨layouts, -, hrun⟩ := hu.run_layoutOf h
    change ((Universe.layoutOf h).run u).2.table.WellFormed widths
    rw [hrun]
    exact hw
  | intern s => exact hf.elim
  | shapeOf h | passedByReference h | spell h | contains h | find? s => exact hw

end Universe

end DeviceTypes
