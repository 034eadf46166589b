import DeviceTypes.Proofs.Layout.Coherence
import DeviceTypes.Universe.Request
/-!
# Sound universes

A universe is sound when its table is ordered and its layouts are
coherent. In a sound universe a layout is the one worked out anew
(`Sound.run_layoutOf`), and a compound of settled handles is minted
exactly when it can be laid out (`Sound.run_mint_of_ok`,
`Sound.run_mint_of_error`). Every request that mentions settled handles
leaves a sound universe whose table has only grown (`Sound.perform`).
-/

namespace DeviceTypes

/-- The handles a request mentions. -/
def Request.handles : Request → List Handle
  | pointer pointee _ => [pointee]
  | array element _ => [element]
  | aggregate _ members => members.map Member.type
  | layoutOf h | shapeOf h | passedByReference h | spell h | contains h => [h]
  | intern s | find? s => s.parts

namespace Universe

/-- One universe is at most another when they are the same but for a larger
table and other layouts. -/
instance : Preorder Universe where
  le u u' := u'.number = u.number ∧ u'.target = u.target ∧ u.table ≤ u'.table
  le_refl u := ⟨rfl, rfl, le_refl _⟩
  le_trans _ _ _ h h' := ⟨h'.1.trans h.1, h'.2.1.trans h.2.1, le_trans h.2.2 h'.2.2⟩

theorem target_of_le {u u' : Universe} (h : u ≤ u') : u'.target = u.target := h.2.1

theorem table_of_le {u u' : Universe} (h : u ≤ u') : u.table ≤ u'.table := h.2.2

/-- The table is ordered and every layout kept is the true one. -/
structure Sound (u : Universe) : Prop where
  ordered : u.table.Ordered
  coherent : u.layouts.Coherent u.table u.target

/-- The layout of a handle in the universe, worked out anew. -/
abbrev layoutAnew (u : Universe) (h : Handle) : Except Rejection Layout :=
  u.table.layoutAnew u.target h

variable {u : Universe}

theorem shapeOf_eq_ok {h : Handle} {s : Shape} :
    u.shapeOf h = .ok s ↔ u.table.get? h = some s := by
  rw [shapeOf]
  cases u.table.get? h <;> simp

/-- **Laying out changes nothing but the cache, and the cache does not change
the layout.** -/
theorem Sound.run_layoutOf (hu : u.Sound) (h : Handle) :
    ∃ layouts, Sound { u with layouts } ∧
      (layoutOf h).run u = (u.layoutAnew h, { u with layouts }) := by
  obtain ⟨layouts, hc, hr⟩ := hu.ordered.layoutOf_follows u.target h u.layouts hu.coherent
  refine ⟨layouts, ⟨hu.ordered, hc⟩, ?_⟩
  rw [Universe.run_layoutOf, hr]

/-- The answer to a request for a layout. -/
theorem Sound.perform_layoutOf (hu : u.Sound) (h : Handle) :
    (u.perform (.layoutOf h)).1 = u.layoutAnew h := by
  obtain ⟨layouts, -, hr⟩ := hu.run_layoutOf h
  exact congrArg Prod.fst hr

/-- **Interning keeps a universe sound.** -/
theorem Sound.intern (hu : u.Sound) {s : Shape} (hs : ∀ h ∈ s.parts, u.table.Settled h) :
    Sound { u with table := (u.table.intern s).2 } where
  ordered := hu.ordered.intern hs
  coherent := hu.coherent.of_le hu.ordered (hu.ordered.intern hs) (Table.le_intern u.table s)

/-- **A new compound is laid out from its parts**, whether or not that succeeds. -/
theorem Sound.layoutAnew_adding (hu : u.Sound) {c : Compound}
    (hc : ∀ h ∈ c.parts, u.table.Settled h) :
    (u.table.adding c).layoutAnew u.target (u.table.handleOf c) =
      c.layoutIn u.target u.layoutAnew := by
  have ho := hu.ordered.adding hc
  have hg : (u.table.adding c).get? (u.table.handleOf c) = some (.compound c) :=
    Table.get?_of_find? (Table.find?_intern u.table (.compound c))
  rw [ho.layoutAnew_eq, hg]
  -- the parts were settled before `c` was added, so they are laid out as they were
  refine Compound.layoutIn_congr fun x hx => ?_
  exact hu.ordered.layoutAnew_of_le ho (Table.le_adding u.table c)
    (hc x (c.layoutParts_subset_parts hx))

/-- A minted compound has the layout it was accepted with. -/
theorem Sound.layoutAnew_handleOf (hu : u.Sound) {c : Compound} {l : Layout}
    (hc : ∀ h ∈ c.parts, u.table.Settled h) (hl : c.layoutIn u.target u.layoutAnew = .ok l) :
    (u.table.adding c).layoutAnew u.target (u.table.handleOf c) = .ok l :=
  (hu.layoutAnew_adding hc).trans hl

/-- **A compound that can be laid out is minted**, and its layout kept. -/
theorem Sound.run_mint_of_ok (hu : u.Sound) {c : Compound} {l : Layout}
    (hc : ∀ h ∈ c.parts, u.table.Settled h) (hl : c.layoutIn u.target u.layoutAnew = .ok l) :
    ∃ layouts, Sound { u with table := u.table.adding c, layouts } ∧
      (mint c).run u =
        (.ok (u.table.handleOf c), { u with table := u.table.adding c, layouts }) := by
  obtain ⟨layouts, hco, hr⟩ :=
    hu.ordered.layoutOfShape_follows u.target (.compound c) u.layouts hu.coherent
  refine ⟨layouts.insert (u.table.handleOf c) l, ⟨hu.ordered.adding hc, ?_⟩, ?_⟩
  · refine (hco.of_le hu.ordered (hu.ordered.adding hc) (Table.le_adding u.table c)).insert ?_
    exact hu.layoutAnew_handleOf hc hl
  · rw [run_mint, hr]
    simp only [Shape.layoutIn, hl]
    rfl

/-- **A compound that cannot be laid out is rejected**, and the table left as
it was. -/
theorem Sound.run_mint_of_error (hu : u.Sound) {c : Compound} {e : Rejection}
    (hl : c.layoutIn u.target u.layoutAnew = .error e) :
    ∃ layouts, Sound { u with layouts } ∧ (mint c).run u = (.error e, { u with layouts }) := by
  obtain ⟨layouts, hco, hr⟩ :=
    hu.ordered.layoutOfShape_follows u.target (.compound c) u.layouts hu.coherent
  refine ⟨layouts, ⟨hu.ordered, hco⟩, ?_⟩
  rw [run_mint, hr]
  simp only [Shape.layoutIn, hl]

/-- Minting keeps a universe sound, accepted or rejected. -/
theorem Sound.mint (hu : u.Sound) {c : Compound} (hc : ∀ h ∈ c.parts, u.table.Settled h) :
    ((Universe.mint c).run u).2.Sound ∧ u ≤ ((Universe.mint c).run u).2 := by
  rcases hl : c.layoutIn u.target u.layoutAnew with e | l
  · obtain ⟨layouts, hs, hr⟩ := hu.run_mint_of_error hl
    rw [hr]
    exact ⟨hs, rfl, rfl, le_refl _⟩
  · obtain ⟨layouts, hs, hr⟩ := hu.run_mint_of_ok hc hl
    rw [hr]
    exact ⟨hs, rfl, rfl, Table.le_adding u.table c⟩

/-- **A request keeps a universe sound**, whatever it is answered. -/
theorem Sound.perform (hu : u.Sound) {r : Request} (hr : ∀ h ∈ r.handles, u.table.Settled h) :
    (u.perform r).2.2.Sound ∧ u ≤ (u.perform r).2.2 := by
  cases r with
  | pointer pointee space =>
    change ((Universe.pointer pointee space).run u).2.Sound ∧
      u ≤ ((Universe.pointer pointee space).run u).2
    rw [run_pointer]
    split
    · exact ⟨hu.intern hr, rfl, rfl, Table.le_intern u.table _⟩
    · exact ⟨hu, le_refl u⟩
  | array element length => exact hu.mint (c := .array element length) hr
  | aggregate policy members =>
    change ((Universe.aggregate policy members).run u).2.Sound ∧
      u ≤ ((Universe.aggregate policy members).run u).2
    rw [run_aggregate]
    split
    · exact hu.mint (c := .aggregate (policy.aggregate members)) hr
    · exact ⟨hu, le_refl u⟩
  | layoutOf h =>
    obtain ⟨layouts, hs, hrun⟩ := hu.run_layoutOf h
    change ((Universe.layoutOf h).run u).2.Sound ∧ u ≤ ((Universe.layoutOf h).run u).2
    rw [hrun]
    exact ⟨hs, rfl, rfl, le_refl _⟩
  | intern s => exact ⟨hu.intern hr, rfl, rfl, Table.le_intern u.table s⟩
  | shapeOf h | passedByReference h | spell h | contains h | find? s => exact ⟨hu, le_refl u⟩

end Universe

end DeviceTypes
