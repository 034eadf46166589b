import Mathlib.Data.List.Nodup
import Mathlib.Data.List.Perm.Basic
import Mathlib.Logic.Equiv.Defs
import DeviceTypes.Proofs.Tree.Held
/-!
# Tables that hold the same trees

Two tables of one number that hold the same trees are equally large and
differ only in which handle stands for which type. The renaming that takes
one to the other sends a handle to the one with the same tree, and through
it the shapes of the one are the shapes of the other
(`Ordered.exists_renaming`).
-/

namespace DeviceTypes

/-- The shape with its handles renamed. -/
def Shape.rename (ρ : Handle → Handle) : Shape → Shape
  | .primitive p => .primitive p
  | .compound (.pointer pointee space) => .compound (.pointer (ρ pointee) space)
  | .compound (.array element length) => .compound (.array (ρ element) length)
  | .compound (.aggregate a) =>
    .compound (.aggregate { a with members := a.members.map fun m => ⟨m.name, ρ m.type⟩ })

/-- Renaming first or reading first, the tree is the same. -/
theorem Shape.tree_rename (f : Handle → Tree) (ρ : Handle → Handle) (s : Shape) :
    (s.rename ρ).tree f = s.tree fun h => f (ρ h) := by
  rcases s with p | ⟨x, space⟩ | ⟨x, length⟩ | a
  · rfl
  · rfl
  · rfl
  · simp only [rename, tree, List.map_map]
    rfl

namespace Table

variable {t t' : Table} {h h' : Handle}

/-- The handles that a table knows. -/
def known (t : Table) : List Handle :=
  Primitive.all.map .primitive ++ (List.range t.entries.length).map (.minted t.number)

theorem mem_known : h ∈ t.known ↔ t.contains h = true := by
  cases h with
  | primitive p => simp [known, contains, Primitive.mem_all]
  | loose w => simp [known, contains]
  | minted table index =>
    simp only [known, contains, List.mem_append, List.mem_map, List.mem_range, reduceCtorEq,
      and_false, exists_false, false_or, Handle.minted.injEq, decide_eq_true_eq]
    constructor
    · rintro ⟨i, hi, rfl, rfl⟩
      exact ⟨rfl, hi⟩
    · rintro ⟨rfl, hi⟩
      exact ⟨index, hi, rfl, rfl⟩

theorem length_known (t : Table) : t.known.length = t.size := by
  simp [known, size]

theorem nodup_known (t : Table) : t.known.Nodup := by
  have hall : Primitive.all.Nodup := by decide
  refine List.nodup_append.2 ⟨hall.map ?_, List.nodup_range.map ?_, ?_⟩
  · intro p q hpq
    exact Handle.primitive.inj hpq
  · intro i j hij
    exact (Handle.minted.inj hij).2
  · intro a ha b hb hab
    obtain ⟨p, -, rfl⟩ := List.mem_map.1 ha
    obtain ⟨i, -, rfl⟩ := List.mem_map.1 hb
    cases hab

/-- The trees held are those of the known handles. -/
theorem holds_iff_mem {T : Tree} : t.Holds T ↔ T ∈ t.known.map t.unfold := by
  simp only [List.mem_map, mem_known]
  constructor
  · rintro ⟨h, hc, hT⟩
    exact ⟨h, hc, hT⟩
  · rintro ⟨h, hc, hT⟩
    exact ⟨h, hc, hT⟩

/-- **Tables that hold the same trees are equally large.** -/
theorem Ordered.size_eq (ho : t.Ordered) (ho' : t'.Ordered)
    (hh : ∀ T, t.Holds T ↔ t'.Holds T) : t.size = t'.size := by
  have hnodup : (t.known.map t.unfold).Nodup :=
    t.nodup_known.map fun a b hab => ho.unfold_injective hab
  have hnodup' : (t'.known.map t'.unfold).Nodup :=
    t'.nodup_known.map fun a b hab => ho'.unfold_injective hab
  have hperm : (t.known.map t.unfold).Perm (t'.known.map t'.unfold) := by
    refine (List.perm_ext_iff_of_nodup hnodup hnodup').2 fun T => ?_
    rw [← holds_iff_mem, ← holds_iff_mem, hh]
  simpa only [List.length_map, length_known] using hperm.length_eq

/-- So, under one number, they know the same handles. -/
theorem contains_eq_of_size (hnum : t'.number = t.number) (hsize : t.size = t'.size)
    (h : Handle) : t'.contains h = t.contains h := by
  have hlen : t'.entries.length = t.entries.length := by
    simp only [size] at hsize
    omega
  cases h with
  | primitive p => rfl
  | loose w => rfl
  | minted table index => rw [contains, contains, hnum, hlen]

theorem Ordered.unfold_of_not_contains (ho : t.Ordered) (hc : t.contains h = false) :
    t.unfold h = .unknown h := by
  rw [contains_eq_isSome_get?, Option.isSome_eq_false_iff, Option.isNone_iff_eq_none] at hc
  rw [ho.unfold_eq, hc]

/-- Each handle has a counterpart with its tree. -/
theorem Ordered.exists_counterpart (ho : t.Ordered) (ho' : t'.Ordered)
    (hnum : t'.number = t.number) (hh : ∀ T, t.Holds T ↔ t'.Holds T) (h : Handle) :
    ∃ h', t'.unfold h' = t.unfold h := by
  cases hc : t.contains h with
  | true =>
    obtain ⟨h', hr⟩ := (hh _).1 ⟨h, hc, rfl⟩
    exact ⟨h', hr.unfold_eq⟩
  | false =>
    -- a handle that neither table knows is its own counterpart
    have hc' : t'.contains h = false := by
      rw [contains_eq_of_size hnum (ho.size_eq ho' hh), hc]
    exact ⟨h, by rw [ho.unfold_of_not_contains hc, ho'.unfold_of_not_contains hc']⟩

/-- Handles with one tree have one shape, up to the renaming that keeps trees. -/
theorem Ordered.get?_of_unfold_eq (ho : t.Ordered) (ho' : t'.Ordered) {ρ : Handle → Handle}
    (hρ : ∀ x, t'.unfold (ρ x) = t.unfold x) (h : Handle) :
    t'.get? (ρ h) = (t.get? h).map (Shape.rename ρ) := by
  have heq := hρ h
  rcases hg : t.get? h with - | s
  · rw [ho.unfold_eq h, hg, ho'.unfold_eq] at heq
    rcases hg' : t'.get? (ρ h) with - | s'
    · rfl
    · rw [hg'] at heq
      exact absurd heq (Shape.tree_ne_unknown h)
  · rw [ho.unfold_of_get? hg, ho'.unfold_eq] at heq
    rcases hg' : t'.get? (ρ h) with - | s'
    · rw [hg'] at heq
      exact absurd heq.symm (Shape.tree_ne_unknown _)
    · rw [hg'] at heq
      have htree : s'.tree t'.unfold = (s.rename ρ).tree t'.unfold := by
        simp only [Shape.tree_rename, hρ]
        exact heq
      rw [Shape.tree_inj (fun x _ y hxy => ho'.unfold_injective hxy) htree]
      rfl

/-- **Tables that hold the same trees differ by a renaming**: a permutation of
the handles that keeps every tree, and through which the shapes of one
table are the shapes of the other. -/
theorem Ordered.exists_renaming (ho : t.Ordered) (ho' : t'.Ordered)
    (hnum : t'.number = t.number) (hh : ∀ T, t.Holds T ↔ t'.Holds T) :
    ∃ ρ : Equiv.Perm Handle, (∀ h, t'.unfold (ρ h) = t.unfold h) ∧
      ∀ h, t'.get? (ρ h) = (t.get? h).map (Shape.rename ρ) := by
  choose ρ hρ using ho.exists_counterpart ho' hnum hh
  choose σ hσ using ho'.exists_counterpart ho hnum.symm fun T => (hh T).symm
  have hleft : ∀ h, σ (ρ h) = h := fun h => ho.unfold_injective ((hσ _).trans (hρ h))
  have hright : ∀ h, ρ (σ h) = h := fun h => ho'.unfold_injective ((hρ _).trans (hσ h))
  exact ⟨⟨ρ, σ, hleft, hright⟩, hρ, ho.get?_of_unfold_eq ho' hρ⟩

end Table

end DeviceTypes
