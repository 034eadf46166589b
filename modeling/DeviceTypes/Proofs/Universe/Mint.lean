import DeviceTypes.Proofs.Tree.Accepted
import DeviceTypes.Proofs.Tree.Plant
import DeviceTypes.Proofs.Universe.Sound
/-!
# Minting trees

A universe is asked for a pointer, an array or an aggregate of handles. Put
in terms of the trees of those handles, it is asked for a tree, and it
answers what its target admits: the handle of that tree, planted in its
table, or the objection, with its table as it was (`Sound.mints_pointer`,
`Sound.mints_array`, `Sound.mints_aggregate`). Its layouts play no part in that.
-/

namespace DeviceTypes.Universe

/-- A universe asked for a tree answered as its target does: with a handle
of the tree, which it planted, or with an objection and nothing planted. -/
structure Mints (u : Universe) (T : Tree) (r : Except Rejection Handle × Universe) : Prop where
  sound : r.2.Sound
  le : u ≤ r.2
  planted : r.2.table = match T.verdict u.target with
    | .ok () => (u.table.plant T).2
    | .error _ => u.table
  answer : match T.verdict u.target with
    | .ok () => ∃ h, r.1 = .ok h ∧ r.2.table.Reads h T
    | .error e => r.1 = .error e

variable {u : Universe}

/-- The layout of a compound is that of its tree. -/
theorem Sound.layout_tree (hu : u.Sound) (c : Compound) :
    (Shape.tree u.table.unfold (.compound c)).layout u.target =
      c.layoutIn u.target u.layoutAnew := by
  rw [Shape.layout_tree, Shape.layoutIn]
  exact Compound.layoutIn_congr fun x _ => (hu.ordered.layoutAnew_eq_layout u.target x).symm

/-- **Minting a compound** that passed the checks is minting its tree. -/
theorem Sound.mints (hu : u.Sound) {c : Compound} (hc : ∀ x ∈ c.parts, u.table.Settled x)
    (hcheck : (Shape.tree u.table.unfold (.compound c)).check u.target = .ok ()) :
    u.Mints (Shape.tree u.table.unfold (.compound c)) ((Universe.mint c).run u) := by
  have hlay := hu.layout_tree c
  rcases hl : c.layoutIn u.target u.layoutAnew with e | l
  · obtain ⟨layouts, hs, hr⟩ := hu.run_mint_of_error hl
    have hverdict : (Shape.tree u.table.unfold (.compound c)).verdict u.target = .error e := by
      rw [Tree.verdict, hcheck, hlay, hl]
      rfl
    rw [hr]
    exact ⟨hs, ⟨rfl, rfl, le_refl _⟩, by rw [hverdict], by rw [hverdict]⟩
  · obtain ⟨layouts, hs, hr⟩ := hu.run_mint_of_ok hc hl
    have hverdict : (Shape.tree u.table.unfold (.compound c)).verdict u.target = .ok () :=
      Tree.verdict_eq_ok_iff.2 ⟨hcheck, l, hlay.trans hl⟩
    rw [hr]
    refine ⟨hs, ⟨rfl, rfl, Table.le_adding u.table c⟩, ?_, ?_⟩
    · rw [hverdict, hu.ordered.plant_tree]
      rfl
    · rw [hverdict]
      exact ⟨_, rfl, hu.ordered.reads_handleOf hc⟩

/-- **A pointer** to a handle that reads as `T`. -/
theorem Sound.mints_pointer (hu : u.Sound) {h : Handle} {T : Tree} (hr : u.table.Reads h T)
    (space : AddressSpace) :
    u.Mints (.pointer T space) ((Universe.pointer h space).run u) := by
  have hparts : ∀ x ∈ (Compound.pointer h space).parts, u.table.Settled x :=
    List.forall_mem_singleton.2 hr.settled
  have htree : Shape.tree u.table.unfold (.compound (.pointer h space)) = .pointer T space := by
    rw [Shape.tree, hr.unfold_eq]
  have hverdict : (Tree.pointer T space).verdict u.target = .ok () := rfl
  rw [run_pointer, if_pos hr.contains]
  refine ⟨hu.intern hparts, ⟨rfl, rfl, Table.le_intern u.table _⟩, ?_, ?_⟩
  · rw [hverdict, ← htree, hu.ordered.plant_tree]
  · rw [hverdict, ← htree]
    exact ⟨_, rfl, hu.ordered.reads_handleOf hparts⟩

/-- **An array** of a handle that reads as `T`. -/
theorem Sound.mints_array (hu : u.Sound) {h : Handle} {T : Tree} (hr : u.table.Reads h T)
    (length : UInt64) : u.Mints (.array T length) ((Universe.array h length).run u) := by
  have hparts : ∀ x ∈ (Compound.array h length).parts, u.table.Settled x :=
    List.forall_mem_singleton.2 hr.settled
  have htree : Shape.tree u.table.unfold (.compound (.array h length)) = .array T length := by
    rw [Shape.tree, hr.unfold_eq]
  rw [run_array, ← htree]
  exact hu.mints hparts rfl

/-- **An aggregate** of members that read as `Ts`. -/
theorem Sound.mints_aggregate (hu : u.Sound) {members : List Member} {Ts : List (String × Tree)}
    (hr : u.table.ReadsEach members Ts) (policy : Policy) :
    u.Mints (.ofPolicy policy Ts) ((Universe.aggregate policy members).run u) := by
  have hparts : ∀ x ∈ (Compound.aggregate (policy.aggregate members)).parts,
      u.table.Settled x := by
    intro x hx
    obtain ⟨m, hm, rfl⟩ := List.mem_map.1 hx
    exact Table.settled_of_contains (hr.contains m hm)
  have htree : Shape.tree u.table.unfold (.compound (.aggregate (policy.aggregate members))) =
      .ofPolicy policy Ts := by
    rw [← hr.unfold_eq]
    rfl
  -- the checks read names and alignments only, which the members and `Ts` share
  have hcheck : (Tree.ofPolicy policy Ts).check u.target =
      (policy.aggregate members).check u.target := by
    refine Aggregate.check_congr ?_ rfl
    rw [← hr.unfold_eq, List.map_map, List.map_map]
    rfl
  rw [run_aggregate]
  rcases hc : (policy.aggregate members).check u.target with e | ⟨⟩
  · have hverdict : (Tree.ofPolicy policy Ts).verdict u.target = .error e := by
      rw [Tree.verdict, hcheck, hc]
      rfl
    exact ⟨hu, le_refl u, by rw [hverdict], by rw [hverdict]⟩
  · rw [← htree]
    exact hu.mints hparts (by rw [htree, hcheck, hc])

end DeviceTypes.Universe
