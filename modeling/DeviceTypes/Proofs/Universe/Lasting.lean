import DeviceTypes.Proofs.Table.Spelling
import DeviceTypes.Proofs.Universe.Sound
/-!
# Answers that last

Universes grow while programs go on asking. What was answered about settled
handles is answered again in every larger universe
(`Sound.perform_of_le`): a handle, once minted, is found again, and an
objection stands. The one exception is the search for a shape, which may
be interned only later. Nor does an answer depend on what is cached
(`Sound.perform_eq`).

The handles that an answer names are settled where it was given
(`Sound.settled_named`), so they may be asked about in turn.
-/

namespace DeviceTypes

/-- Handles read as their texts. -/
def spellReading : Reading String where
  unknown _ := "<unknown>"
  shape inner
    | .primitive p => p.name
    | .compound c => c.spell inner
  shape_congr {f g s} h := by
    cases s with
    | primitive p => rfl
    | compound c => exact Compound.spell_congr h

namespace Table

/-- A settled handle is known to a larger table only if it was known before. -/
theorem contains_eq_of_le {t t' : Table} (hle : t ≤ t') {h : Handle} (hs : t.Settled h) :
    t'.contains h = t.contains h := by
  rw [contains_eq_isSome_get?, contains_eq_isSome_get?, get?_of_le hle hs]

/-- What was interned is settled. -/
theorem settled_intern (t : Table) (s : Shape) : (t.intern s).2.Settled (t.intern s).1 :=
  settled_of_get? (get?_of_find? (find?_intern t s))

/-- A shape is interned under the handle that a smaller table gave it. -/
theorem intern_of_le {t t' : Table} {s : Shape} (hle : (t.intern s).2 ≤ t') :
    (t'.intern s).1 = (t.intern s).1 := by
  have hget : t'.get? (t.intern s).1 = some s :=
    (get?_of_le hle (settled_intern t s)).trans (get?_of_find? (find?_intern t s))
  rw [intern_of_find? (find?_of_get? hget)]

theorem spell_eq_read (t : Table) (h : Handle) : t.spell h = t.read spellReading h := by
  have hbelow : ∀ depth h, t.spellBelow depth h = t.readBelow spellReading depth h := by
    intro depth
    induction depth with
    | zero => exact fun _ => rfl
    | succ depth ih =>
      intro h
      rw [spellBelow, readBelow_succ]
      cases t.get? h with
      | none => rfl
      | some s =>
        cases s with
        | primitive p => rfl
        | compound c => exact Compound.spell_congr fun x _ => ih x
  exact hbelow t.depth h

end Table

namespace Request

/-- Whether growth cannot change the answer. -/
def lasts : Request → Bool
  | find? _ => false
  | pointer .. | array .. | aggregate .. | layoutOf _ | shapeOf _ | passedByReference _ | spell _
  | contains _ | intern _ => true

/-- The handles an answer names. -/
def named : (r : Request) → r.Answer → List Handle
  | pointer .., .ok h | array .., .ok h | aggregate .., .ok h => [h]
  | shapeOf _, .ok s => s.parts
  | intern _, h => [h]
  | find? _, some h => [h]
  | pointer .., .error _ | array .., .error _ | aggregate .., .error _ | shapeOf _, .error _ => []
  | find? _, none => []
  | layoutOf _, _ | passedByReference _, _ | spell _, _ | contains _, _ => []

end Request

namespace Universe

variable {u v : Universe}

theorem shapeOf_of_le (hle : u ≤ v) {h : Handle} (hs : u.table.Settled h) :
    v.shapeOf h = u.shapeOf h := by
  rw [shapeOf, shapeOf, Table.get?_of_le (table_of_le hle) hs]

theorem Sound.layoutAnew_of_le (hu : u.Sound) (hv : v.Sound) (hle : u ≤ v) {h : Handle}
    (hs : u.table.Settled h) : v.layoutAnew h = u.layoutAnew h := by
  rw [layoutAnew, target_of_le hle]
  exact hu.ordered.layoutAnew_of_le hv.ordered (table_of_le hle) hs

/-- **A compound is minted again** under its handle, or rejected again. -/
theorem Sound.mint_of_le (hu : u.Sound) {c : Compound} (hc : ∀ x ∈ c.parts, u.table.Settled x)
    (hv : v.Sound) (hle : ((Universe.mint c).run u).2 ≤ v) :
    ((Universe.mint c).run v).1 = ((Universe.mint c).run u).1 := by
  have hgrows : u ≤ v := le_trans (hu.mint hc).2 hle
  have hlayout : c.layoutIn v.target v.layoutAnew = c.layoutIn u.target u.layoutAnew := by
    rw [target_of_le hgrows]
    exact Compound.layoutIn_congr fun x hx =>
      hu.layoutAnew_of_le hv hgrows (hc x (c.layoutParts_subset_parts hx))
  have hc' : ∀ x ∈ c.parts, v.table.Settled x :=
    fun x hx => (hc x hx).of_le (table_of_le hgrows)
  rcases hl : c.layoutIn u.target u.layoutAnew with e | l
  · obtain ⟨_, -, hr⟩ := hu.run_mint_of_error hl
    obtain ⟨_, -, hr'⟩ := hv.run_mint_of_error (hlayout.trans hl)
    rw [hr, hr']
  · obtain ⟨_, -, hr⟩ := hu.run_mint_of_ok hc hl
    obtain ⟨_, -, hr'⟩ := hv.run_mint_of_ok hc' (hlayout.trans hl)
    rw [hr] at hle
    rw [hr, hr']
    exact congrArg Except.ok (Table.intern_of_le (s := .compound c) (table_of_le hle))

/-- **What was answered is answered again** in every larger universe. -/
theorem Sound.perform_of_le (hu : u.Sound) {r : Request}
    (hr : ∀ h ∈ r.handles, u.table.Settled h) (hlasts : r.lasts = true) (hv : v.Sound)
    (hle : (u.perform r).2.2 ≤ v) : (v.perform r).1 = (u.perform r).1 := by
  have hgrows : u ≤ v := le_trans (hu.perform hr).2 hle
  cases r with
  | pointer pointee space =>
    change ((Universe.pointer pointee space).run v).1 = ((Universe.pointer pointee space).run u).1
    change ((Universe.pointer pointee space).run u).2 ≤ v at hle
    have hs : u.table.Settled pointee := hr pointee (List.mem_singleton.2 rfl)
    rw [run_pointer] at hle
    rw [run_pointer, run_pointer, Table.contains_eq_of_le (table_of_le hgrows) hs]
    split
    · rename_i hc
      rw [if_pos hc] at hle
      exact congrArg Except.ok (Table.intern_of_le (table_of_le hle))
    · rfl
  | array element length => exact hu.mint_of_le (c := .array element length) hr hv hle
  | aggregate policy members =>
    change ((Universe.aggregate policy members).run v).1 =
      ((Universe.aggregate policy members).run u).1
    change ((Universe.aggregate policy members).run u).2 ≤ v at hle
    rw [run_aggregate] at hle
    rw [run_aggregate, run_aggregate, target_of_le hgrows]
    rcases hcheck : (policy.aggregate members).check u.target with e | ⟨⟩
    · rfl
    · rw [hcheck] at hle
      exact hu.mint_of_le (c := .aggregate (policy.aggregate members)) hr hv hle
  | layoutOf h =>
    rw [hv.perform_layoutOf, hu.perform_layoutOf]
    exact hu.layoutAnew_of_le hv hgrows (hr h (List.mem_singleton.2 rfl))
  | shapeOf h => exact shapeOf_of_le hgrows (hr h (List.mem_singleton.2 rfl))
  | passedByReference h =>
    change v.passedByReference h = u.passedByReference h
    rw [passedByReference, passedByReference, aggregateOf, aggregateOf, target_of_le hgrows,
      shapeOf_of_le hgrows (hr h (List.mem_singleton.2 rfl))]
  | spell h =>
    change v.table.spell h = u.table.spell h
    rw [Table.spell_eq_read, Table.spell_eq_read]
    exact hu.ordered.read_of_le hv.ordered (table_of_le hgrows) spellReading
      (hr h (List.mem_singleton.2 rfl))
  | contains h =>
    exact Table.contains_eq_of_le (table_of_le hgrows) (hr h (List.mem_singleton.2 rfl))
  | intern s => exact Table.intern_of_le (table_of_le hle)
  | find? s => cases hlasts

/-- A compound that is minted is settled. -/
theorem Sound.settled_mint (hu : u.Sound) {c : Compound} (hc : ∀ x ∈ c.parts, u.table.Settled x)
    {h : Handle} (hok : ((Universe.mint c).run u).1 = .ok h) :
    ((Universe.mint c).run u).2.table.Settled h := by
  rcases hl : c.layoutIn u.target u.layoutAnew with e | l
  · obtain ⟨_, -, hr⟩ := hu.run_mint_of_error hl
    rw [hr] at hok
    cases hok
  · obtain ⟨_, -, hr⟩ := hu.run_mint_of_ok hc hl
    rw [hr] at hok ⊢
    obtain rfl := Except.ok.inj hok
    exact Table.settled_intern u.table (.compound c)

/-- **The handles an answer names are settled** where it was given. -/
theorem Sound.settled_named (hu : u.Sound) {r : Request}
    (hr : ∀ h ∈ r.handles, u.table.Settled h) {h : Handle} (hh : h ∈ r.named (u.perform r).1) :
    (u.perform r).2.2.table.Settled h := by
  cases r with
  | pointer pointee space =>
    change h ∈ Request.named (.pointer pointee space)
      ((Universe.pointer pointee space).run u).1 at hh
    change ((Universe.pointer pointee space).run u).2.table.Settled h
    rw [run_pointer] at hh ⊢
    split at hh
    · rename_i hc
      rw [if_pos hc]
      obtain rfl := List.mem_singleton.1 hh
      exact Table.settled_intern _ _
    · cases hh
  | array element length =>
    change h ∈ Request.named (.array element length) ((Universe.array element length).run u).1 at hh
    rcases hok : ((Universe.array element length).run u).1 with e | h'
    · rw [hok] at hh
      cases hh
    · rw [hok] at hh
      obtain rfl := List.mem_singleton.1 hh
      exact hu.settled_mint (c := .array element length) hr hok
  | aggregate policy members =>
    change h ∈ Request.named (.aggregate policy members)
      ((Universe.aggregate policy members).run u).1 at hh
    change ((Universe.aggregate policy members).run u).2.table.Settled h
    rw [run_aggregate] at hh ⊢
    rcases hcheck : (policy.aggregate members).check u.target with e | ⟨⟩
    · rw [hcheck] at hh
      cases hh
    rw [hcheck] at hh
    simp only at hh ⊢
    rcases hok : ((Universe.mint (.aggregate (policy.aggregate members))).run u).1 with e | h'
    · rw [hok] at hh
      cases hh
    · rw [hok] at hh
      obtain rfl := List.mem_singleton.1 hh
      exact hu.settled_mint (c := .aggregate (policy.aggregate members)) hr hok
  | shapeOf x =>
    change h ∈ Request.named (.shapeOf x) (u.shapeOf x) at hh
    change u.table.Settled h
    rw [shapeOf] at hh
    rcases hg : u.table.get? x with - | s
    · rw [hg] at hh
      cases hh
    · rw [hg] at hh
      exact hu.ordered.settled hg hh
  | intern s =>
    obtain rfl := List.mem_singleton.1 hh
    exact Table.settled_intern u.table s
  | find? s =>
    change h ∈ Request.named (.find? s) (u.table.find? s) at hh
    change u.table.Settled h
    rcases hf : u.table.find? s with - | x
    · rw [hf] at hh
      cases hh
    · rw [hf] at hh
      obtain rfl := List.mem_singleton.1 hh
      exact Table.settled_of_get? (Table.get?_of_find? hf)
  | layoutOf _ | passedByReference _ | spell _ | contains _ => cases hh

/-- A compound is minted or rejected alike over equal tables. -/
theorem Sound.run_mint_eq (hu : u.Sound) (hv : v.Sound) (ht : v.table = u.table)
    (hg : v.target = u.target) {c : Compound} (hc : ∀ x ∈ c.parts, u.table.Settled x) :
    ((Universe.mint c).run v).1 = ((Universe.mint c).run u).1 ∧
      ((Universe.mint c).run v).2.table = ((Universe.mint c).run u).2.table := by
  obtain ⟨number, table, target, layouts⟩ := v
  obtain rfl : table = u.table := ht
  obtain rfl : target = u.target := hg
  rcases hl : c.layoutIn u.target u.layoutAnew with e | l
  · obtain ⟨_, -, hr⟩ := hu.run_mint_of_error hl
    obtain ⟨_, -, hr'⟩ := hv.run_mint_of_error hl
    rw [hr, hr']
    exact ⟨rfl, rfl⟩
  · obtain ⟨_, -, hr⟩ := hu.run_mint_of_ok hc hl
    obtain ⟨_, -, hr'⟩ := hv.run_mint_of_ok hc hl
    rw [hr, hr']
    exact ⟨rfl, rfl⟩

/-- **Only table and target bear on an answer**, not what is cached. -/
theorem Sound.perform_eq (hu : u.Sound) (hv : v.Sound) (ht : v.table = u.table)
    (hg : v.target = u.target) {r : Request} (hr : ∀ h ∈ r.handles, u.table.Settled h) :
    (v.perform r).1 = (u.perform r).1 ∧
      (v.perform r).2.2.table = (u.perform r).2.2.table := by
  cases r with
  | pointer pointee space =>
    change ((Universe.pointer pointee space).run v).1 = ((Universe.pointer pointee space).run u).1 ∧
      ((Universe.pointer pointee space).run v).2.table =
        ((Universe.pointer pointee space).run u).2.table
    rw [run_pointer, run_pointer, ht]
    split
    · exact ⟨rfl, rfl⟩
    · exact ⟨rfl, ht⟩
  | array element length => exact hu.run_mint_eq hv ht hg (c := .array element length) hr
  | aggregate policy members =>
    change ((Universe.aggregate policy members).run v).1 =
        ((Universe.aggregate policy members).run u).1 ∧
      ((Universe.aggregate policy members).run v).2.table =
        ((Universe.aggregate policy members).run u).2.table
    rw [run_aggregate, run_aggregate, hg]
    split
    · exact hu.run_mint_eq hv ht hg (c := .aggregate (policy.aggregate members)) hr
    · exact ⟨rfl, ht⟩
  | layoutOf h =>
    obtain ⟨_, -, hrun⟩ := hu.run_layoutOf h
    obtain ⟨_, -, hrun'⟩ := hv.run_layoutOf h
    change ((Universe.layoutOf h).run v).1 = ((Universe.layoutOf h).run u).1 ∧
      ((Universe.layoutOf h).run v).2.table = ((Universe.layoutOf h).run u).2.table
    rw [hrun, hrun', layoutAnew, layoutAnew, ht, hg]
    exact ⟨rfl, rfl⟩
  | shapeOf h =>
    refine ⟨?_, ht⟩
    change v.shapeOf h = u.shapeOf h
    rw [shapeOf, shapeOf, ht]
  | passedByReference h =>
    refine ⟨?_, ht⟩
    change v.passedByReference h = u.passedByReference h
    rw [passedByReference, passedByReference, aggregateOf, aggregateOf, shapeOf, shapeOf, ht, hg]
  | spell h => exact ⟨congrArg (Table.spell · h) ht, ht⟩
  | contains h => exact ⟨congrArg (Table.contains · h) ht, ht⟩
  | intern s =>
    exact ⟨congrArg (fun t : Table => (t.intern s).1) ht,
      congrArg (fun t : Table => (t.intern s).2) ht⟩
  | find? s => exact ⟨congrArg (Table.find? · s) ht, ht⟩

end Universe

end DeviceTypes
