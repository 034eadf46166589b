import DeviceTypes.Layout.OfHandle
import DeviceTypes.Proofs.Table.Reading
/-!
# Layouts worked out anew

`layoutAnew` is the layout rule played without a cache: every handle below
is laid out again each time it is met. It is a reading of the table, so in
an ordered table it satisfies the rule's own equation (`layoutAnew_eq`)
and gives a settled handle the same layout in every larger table
(`layoutAnew_of_le`).
-/

namespace DeviceTypes

/-! ## The members of an aggregate, one after another -/

/-- The members placed in turn, given how each of them is laid out. The
first that has no layout or no place ends it. -/
def Placement.placeEach (kind : AggregateKind) (packed : Bool) (p : Placement) :
    List (Except Rejection Layout) → Except Rejection Placement
  | [] => .ok p
  | r :: rest => do
    let l ← r
    let p' ← p.place kind packed l
    placeEach kind packed p' rest

theorem Placement.foldlM_place (f : Handle → Except Rejection Layout) (kind : AggregateKind)
    (packed : Bool) (members : List Member) (p : Placement) :
    (members.foldlM (fun p x => do
      let l ← f x.type
      MonadExcept.ofExcept (p.place kind packed l)) p : Except Rejection Placement) =
    p.placeEach kind packed (members.map fun x => f x.type) := by
  induction members generalizing p with
  | nil => rfl
  | cons x rest ih =>
    simp only [List.foldlM_cons, List.map_cons, placeEach]
    cases f x.type with
    | error e => rfl
    | ok l =>
      simp only [bind, Except.bind]
      cases p.place kind packed l with
      | error e => rfl
      | ok p' => exact ih p'

/-- **An aggregate places its members and closes.** -/
theorem Aggregate.layoutIn_eq (f : Handle → Except Rejection Layout) (a : Aggregate) :
    a.layoutIn f =
      (Placement.placeEach a.kind a.isPacked {} (a.members.map fun x => f x.type)).bind
        fun placed => placed.close a.alignment := by
  rw [Aggregate.layoutIn, Placement.foldlM_place]
  cases Placement.placeEach a.kind a.isPacked {} (a.members.map fun x => f x.type) with
  | error e => rfl
  | ok placed => cases h : placed.close a.alignment <;> simp only [bind, Except.bind, h] <;> rfl

/-- **An array strings its element's layout out.** -/
theorem Compound.layoutIn_array (target : Target) (f : Handle → Except Rejection Layout)
    (element : Handle) (length : UInt64) :
    (array element length).layoutIn target f =
      (f element).bind fun l => orOverflow (l.row? length.toNat) := by
  rw [Compound.layoutIn]
  cases f element with
  | error e => rfl
  | ok l => cases h : orOverflow (l.row? length.toNat) <;> simp only [bind, Except.bind, h] <;> rfl

/-- A compound's layout asks for its layout parts and nothing else. -/
theorem Compound.layoutIn_congr {target : Target} {f g : Handle → Except Rejection Layout}
    {c : Compound} (h : ∀ x ∈ c.layoutParts, f x = g x) :
    c.layoutIn target f = c.layoutIn target g := by
  cases c with
  | pointer pointee space => rfl
  | array element length => simp only [layoutIn, h element (List.mem_singleton.2 rfl)]
  | aggregate a =>
    have hmap : (a.members.map fun x => f x.type) = a.members.map fun x => g x.type :=
      List.map_congr_left fun x hx => h x.type (List.mem_map_of_mem hx)
    simp only [layoutIn, Aggregate.layoutIn_eq, hmap]

theorem Shape.layoutIn_congr {target : Target} {f g : Handle → Except Rejection Layout}
    {s : Shape} (h : ∀ x ∈ s.parts, f x = g x) : s.layoutIn target f = s.layoutIn target g := by
  cases s with
  | primitive p => rfl
  | compound c => exact Compound.layoutIn_congr fun x hx => h x (c.layoutParts_subset_parts hx)

/-- Handles read as layouts. -/
def layoutReading (target : Target) : Reading (Except Rejection Layout) where
  unknown h := .error (.unknownHandle h)
  shape f s := s.layoutIn target f
  shape_congr := Shape.layoutIn_congr

namespace Table

/-- The layout of a handle, worked out without a cache. -/
def layoutAnew (t : Table) (target : Target) (h : Handle) : Except Rejection Layout :=
  t.read (layoutReading target) h

variable {t : Table} {target : Target}

/-- **The layout rule, level by level**: a handle is laid out from the
layouts of its parts. -/
theorem Ordered.layoutAnew_eq (ho : t.Ordered) (target : Target) (h : Handle) :
    t.layoutAnew target h =
      match t.get? h with
      | none => .error (.unknownHandle h)
      | some s => s.layoutIn target (t.layoutAnew target) :=
  ho.read_eq (layoutReading target) h

/-- What has a layout is known. -/
theorem Ordered.get?_of_layoutAnew (ho : t.Ordered) {h : Handle} {l : Layout}
    (hl : t.layoutAnew target h = .ok l) :
    ∃ s, t.get? h = some s ∧ s.layoutIn target (t.layoutAnew target) = .ok l := by
  rw [ho.layoutAnew_eq] at hl
  cases hg : t.get? h with
  | none => simp [hg] at hl
  | some s => exact ⟨s, rfl, by simpa [hg] using hl⟩

/-- Growth leaves every layout as it was. -/
theorem Ordered.layoutAnew_of_le {t' : Table} (ho : t.Ordered) (ho' : t'.Ordered) (hle : t ≤ t')
    {h : Handle} (hs : t.Settled h) : t'.layoutAnew target h = t.layoutAnew target h :=
  ho.read_of_le ho' hle (layoutReading target) hs

end Table

end DeviceTypes
