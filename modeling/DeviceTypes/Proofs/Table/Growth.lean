import DeviceTypes.Table
import Mathlib.Order.Defs.PartialOrder
/-!
# Tables that grow

A table only grows at its end, so `t ≤ t'` says that `t'` is `t` after
some more compounds were interned. A handle is settled in a table when no
growth can give it a meaning it has not: it is known already, or it is
none of the handles this table will ever mint. What a settled handle
stands for is the same in every larger table (`get?_of_le`).

A table is ordered when each entry mentions only entries before it. Then
the position of a handle is a rank that falls on the way to its parts
(`Ordered.rank_lt`), which every descent through a table goes by.
-/

namespace DeviceTypes

namespace Shape

/-- The handles a shape mentions, in order. -/
def parts : Shape → List Handle
  | primitive _ => []
  | compound c => c.parts

end Shape

namespace Compound

theorem layoutParts_subset_parts (c : Compound) : c.layoutParts ⊆ c.parts := by
  cases c with
  | pointer pointee space => exact List.nil_subset _
  | array element length => exact List.Subset.refl _
  | aggregate a => exact List.Subset.refl _

end Compound

namespace Table

/-! ## Growth -/

/-- One table is at most another when the other mints the same handles and
begins with the same entries. -/
instance : Preorder Table where
  le t t' := t'.number = t.number ∧ t.entries <+: t'.entries
  le_refl t := ⟨rfl, List.prefix_rfl⟩
  le_trans _ _ _ h h' := ⟨h'.1.trans h.1, h.2.trans h'.2⟩

theorem number_of_le {t t' : Table} (h : t ≤ t') : t'.number = t.number := h.1

theorem entries_of_le {t t' : Table} (h : t ≤ t') : t.entries <+: t'.entries := h.2

theorem length_of_le {t t' : Table} (h : t ≤ t') : t.entries.length ≤ t'.entries.length :=
  (entries_of_le h).length_le

theorem le_adding (t : Table) (c : Compound) : t ≤ t.adding c := by
  obtain ⟨rest, hr⟩ := exists_entries_adding t c
  exact ⟨number_adding t c, rest, hr.symm⟩

theorem le_intern (t : Table) (s : Shape) : t ≤ (t.intern s).2 := by
  cases s with
  | primitive p => exact le_refl t
  | compound c => exact le_adding t c

/-- The handle is known to the table, or is none the table ever mints. -/
def Settled (t : Table) (h : Handle) : Prop :=
  ∀ i, h = .minted t.number i → i < t.entries.length

theorem settled_of_get? {t : Table} {h : Handle} {s : Shape} (hg : t.get? h = some s) :
    t.Settled h := by
  rintro i rfl
  simp only [get?, if_true, Option.map_eq_some_iff] at hg
  obtain ⟨c, hc, -⟩ := hg
  exact (List.getElem?_eq_some_iff.1 hc).1

theorem settled_of_contains {t : Table} {h : Handle} (hc : t.contains h = true) :
    t.Settled h := by
  rw [contains_eq_isSome_get?, Option.isSome_iff_exists] at hc
  obtain ⟨s, hs⟩ := hc
  exact settled_of_get? hs

theorem Settled.of_le {t t' : Table} {h : Handle} (hs : t.Settled h) (hle : t ≤ t') :
    t'.Settled h := by
  rintro i rfl
  rw [number_of_le hle] at hs
  exact Nat.lt_of_lt_of_le (hs i rfl) (length_of_le hle)

/-- **A settled handle stands for the same in every larger table.** -/
theorem get?_of_le {t t' : Table} {h : Handle} (hle : t ≤ t') (hs : t.Settled h) :
    t'.get? h = t.get? h := by
  cases h with
  | primitive p => rfl
  | loose w => rfl
  | minted table index =>
    -- a handle of this very table is settled only within the entries that both have
    obtain ⟨rest, hr⟩ := entries_of_le hle
    by_cases ht : table = t.number
    · subst ht
      simp only [get?, number_of_le hle, if_true, ← hr, List.getElem?_append_left (hs index rfl)]
    · simp only [get?, number_of_le hle, if_neg ht]

theorem contains_of_le {t t' : Table} {h : Handle} (hle : t ≤ t') (hc : t.contains h = true) :
    t'.contains h = true := by
  rw [contains_eq_isSome_get?, get?_of_le hle (settled_of_contains hc),
    ← contains_eq_isSome_get?, hc]

/-! ## Order among the entries -/

/-- Each entry mentions, of this table's own handles, only entries before it. -/
def Ordered (t : Table) : Prop :=
  ∀ (i : Nat) (c : Compound), t.entries[i]? = some c →
    ∀ h ∈ c.parts, ∀ j, h = Handle.minted t.number j → j < i

theorem ordered_empty (number : Nat) : (empty number).Ordered := by
  intro i c hc
  simp [empty] at hc

/-- A compound of settled handles keeps the table ordered: it comes after
everything the table has. -/
theorem Ordered.adding {t : Table} (ho : t.Ordered) {c : Compound}
    (hc : ∀ h ∈ c.parts, t.Settled h) : (t.adding c).Ordered := by
  intro i d hd h hh j hj
  rw [number_adding] at hj
  rw [entries_adding] at hd
  split at hd
  · exact ho i d hd h hh j hj
  · -- the entry was there before, or it is `c` behind all that was
    rcases Nat.lt_or_ge i t.entries.length with hi | hi
    · rw [List.getElem?_append_left hi] at hd
      exact ho i d hd h hh j hj
    · rw [List.getElem?_append_right hi] at hd
      obtain rfl : d = c := List.mem_singleton.1 (List.mem_of_getElem? hd)
      have := hc h hh j hj
      omega

theorem Ordered.intern {t : Table} (ho : t.Ordered) {s : Shape}
    (hs : ∀ h ∈ s.parts, t.Settled h) : (t.intern s).2.Ordered := by
  cases s with
  | primitive p => exact ho
  | compound c => exact ho.adding hs

/-- The position of a known compound counted from one, zero for anything
else. -/
def rank (t : Table) : Handle → Nat
  | .minted table index => if table = t.number ∧ index < t.entries.length then index + 1 else 0
  | _ => 0

theorem rank_lt_depth (t : Table) (h : Handle) : t.rank h < t.depth := by
  cases h with
  | primitive p => exact Nat.succ_pos _
  | loose w => exact Nat.succ_pos _
  | minted table index => simp only [rank, depth]; split <;> omega

/-- What a known handle's shape mentions is settled. -/
theorem Ordered.settled {t : Table} (ho : t.Ordered) {h x : Handle} {s : Shape}
    (hg : t.get? h = some s) (hx : x ∈ s.parts) : t.Settled x := by
  cases h with
  | primitive p => cases hg; simp [Shape.parts] at hx
  | loose w => simp [get?] at hg
  | minted table index =>
    simp only [get?, Option.ite_none_right_eq_some, Option.map_eq_some_iff] at hg
    obtain ⟨rfl, c, hc, rfl⟩ := hg
    intro j hj
    have := ho index c hc x hx j hj
    have := (List.getElem?_eq_some_iff.1 hc).1
    omega

/-- **The parts of a known handle rank below it.** -/
theorem Ordered.rank_lt {t : Table} (ho : t.Ordered) {h x : Handle} {s : Shape}
    (hg : t.get? h = some s) (hx : x ∈ s.parts) : t.rank x < t.rank h := by
  cases h with
  | primitive p => cases hg; simp [Shape.parts] at hx
  | loose w => simp [get?] at hg
  | minted table index =>
    simp only [get?, Option.ite_none_right_eq_some, Option.map_eq_some_iff] at hg
    obtain ⟨rfl, c, hc, rfl⟩ := hg
    have hi := (List.getElem?_eq_some_iff.1 hc).1
    simp only [rank, hi, and_self, if_true]
    -- only a part that the table has ranks at all, and it comes before `index`
    cases x with
    | primitive p => exact Nat.succ_pos _
    | loose w => exact Nat.succ_pos _
    | minted table' j =>
      simp only
      split
      · rename_i hj
        have := ho index c hc _ hx j (by rw [hj.1])
        omega
      · omega

/-- **Induction along a table**: a property that passes from the parts of a
handle to the handle holds of every handle. -/
theorem Ordered.induction {t : Table} (ho : t.Ordered) {motive : Handle → Prop}
    (step : ∀ h, (∀ s, t.get? h = some s → ∀ x ∈ s.parts, motive x) → motive h)
    (h : Handle) : motive h := by
  induction hn : t.rank h using Nat.strongRecOn generalizing h with
  | _ n ih =>
    refine step h fun s hs x hx => ih (t.rank x) ?_ x rfl
    rw [← hn]
    exact ho.rank_lt hs hx

end Table

end DeviceTypes
