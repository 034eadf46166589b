import DeviceTypes.Proofs.Table.Spelling
import Mathlib.Data.List.Chain
import Mathlib.Logic.Relation
/-!
# Descents through a table

A handle mentions the handles in its shape. In an ordered table the rank
falls with every mention, so mentions are well founded
(`Ordered.wellFounded_mentions`), no handle leads back to itself
(`Ordered.not_transGen_mentions`), and a descent takes no more steps than
the table has compounds (`Ordered.length_le_of_isChain`).

The text of a handle is written by such a descent. `spellWithin` is that
descent with a limit on its levels, and answers nothing where the limit is
met. One level more than there are compounds is never met
(`Ordered.spellWithin_eq`).
-/

namespace DeviceTypes.Table

open Relation (TransGen)

variable {t : Table} {h x : Handle} {levels : Nat}

/-- The shape of `h` mentions `x`. -/
def Mentions (t : Table) (h x : Handle) : Prop := ∃ s, t.get? h = some s ∧ x ∈ s.parts

theorem Ordered.rank_lt_of_mentions (ho : t.Ordered) (hm : t.Mentions h x) :
    t.rank x < t.rank h := by
  obtain ⟨s, hs, hx⟩ := hm
  exact ho.rank_lt hs hx

/-- **There is no endless descent.** -/
theorem Ordered.wellFounded_mentions (ho : t.Ordered) :
    WellFounded fun x h => t.Mentions h x :=
  Subrelation.wf (fun hm => ho.rank_lt_of_mentions hm) (measure t.rank).wf

/-- **No type contains itself**, at any depth. -/
theorem Ordered.not_transGen_mentions (ho : t.Ordered) (h : Handle) :
    ¬ TransGen t.Mentions h h := by
  have hfalls : ∀ {x}, TransGen t.Mentions h x → t.rank x < t.rank h := by
    intro x hx
    induction hx with
    | single hm => exact ho.rank_lt_of_mentions hm
    | tail _ hm ih => exact Nat.lt_trans (ho.rank_lt_of_mentions hm) ih
  exact fun hh => Nat.lt_irrefl _ (hfalls hh)

/-- **A descent takes no more steps than the table has compounds.** -/
theorem Ordered.length_le_of_isChain (ho : t.Ordered) {xs : List Handle}
    (hc : List.IsChain t.Mentions (h :: xs)) : xs.length ≤ t.entries.length := by
  have hrank : xs.length ≤ t.rank h := by
    induction xs generalizing h with
    | nil => exact Nat.zero_le _
    | cons x xs ih =>
      obtain ⟨hm, hrest⟩ := List.isChain_cons_cons.1 hc
      have := ih hrest
      have := ho.rank_lt_of_mentions hm
      rw [List.length_cons]
      omega
  have := rank_lt_depth t h
  simp only [depth] at this
  omega

/-! ## Writing out within so many levels -/

/-- The text of a handle, nothing where it would take more levels than these. -/
def spellWithin (t : Table) : Nat → Handle → Option String
  | 0, _ => none
  | levels + 1, h =>
    match t.get? h with
    | none => some "<unknown>"
    | some (.primitive p) => some p.name
    | some (.compound c) => c.spell? (spellWithin t levels)

/-- Levels past the rank of a handle are not felt. -/
theorem Ordered.spellWithin_eq_spellBelow (ho : t.Ordered) {depth : Nat}
    (hl : t.rank h < levels) (hd : t.rank h < depth) :
    t.spellWithin levels h = some (t.spellBelow depth h) := by
  induction levels generalizing h depth with
  | zero => omega
  | succ levels ih =>
    obtain ⟨depth, rfl⟩ : ∃ k, depth = k + 1 := ⟨depth - 1, by omega⟩
    rw [spellWithin, spellBelow]
    rcases hg : t.get? h with - | p | c
    · rfl
    · rfl
    · refine Compound.spell?_eq fun x hx => ?_
      have := ho.rank_lt hg hx
      exact ih (by omega) (by omega)

/-- **Texts are finite**: one level more than the table has compounds is never met. -/
theorem Ordered.spellWithin_eq (ho : t.Ordered) (h : Handle)
    (hl : t.entries.length + 1 ≤ levels) : t.spellWithin levels h = some (t.spell h) :=
  ho.spellWithin_eq_spellBelow (Nat.lt_of_lt_of_le (rank_lt_depth t h) hl) (rank_lt_depth t h)

end DeviceTypes.Table
