import DeviceTypes.Proofs.Tree.Basic
/-!
# Planting trees

To plant a tree in a table is to intern it from the leaves up. What a table
has planted is a function of the table and the tree alone, so planting
says what a table becomes without speaking of how it was asked. A tree
that the table can read already changes nothing (`Ordered.plant_unfold`),
and over parts that it can read, planting is interning one shape
(`Ordered.plant_tree`).
-/

namespace DeviceTypes.Table

mutual

/-- The handle of a tree, and the table that knows it. -/
def plant : Tree → Table → Handle × Table
  | .unknown h, t => (h, t)
  | .primitive p, t => (.primitive p, t)
  | .pointer T space, t =>
    let r := plant T t
    r.2.intern (.compound (.pointer r.1 space))
  | .array T length, t =>
    let r := plant T t
    r.2.intern (.compound (.array r.1 length))
  | .aggregate kind members alignment packing passing, t =>
    let r := plantEach members t
    r.2.intern (.compound (.aggregate ⟨kind, r.1, alignment, packing, passing⟩))

/-- Members planted one after another. -/
def plantEach : List (String × Tree) → Table → List Member × Table
  | [], t => ([], t)
  | m :: rest, t =>
    let r := plant m.2 t
    let rs := plantEach rest r.2
    (⟨m.1, r.1⟩ :: rs.1, rs.2)

end

/-- The table after some trees are planted in it. -/
def plantAll (t : Table) (trees : List Tree) : Table := trees.foldl (fun t T => (t.plant T).2) t

variable {t : Table}

theorem plantAll_append (trees trees' : List Tree) :
    t.plantAll (trees ++ trees') = (t.plantAll trees).plantAll trees' := List.foldl_append ..

theorem plantEach_of_parts {members : List Member}
    (h : ∀ x ∈ members.map Member.type, t.plant (t.unfold x) = (x, t)) :
    t.plantEach (members.map fun m => (m.name, t.unfold m.type)) = (members, t) := by
  induction members with
  | nil => rfl
  | cons m rest ih =>
    have hm := h m.type (List.mem_cons_self ..)
    have hrest := ih fun x hx => h x (List.mem_cons_of_mem _ hx)
    simp only [List.map_cons, plantEach, hm, hrest]

/-- Over parts that change nothing, planting is interning one shape. -/
theorem plant_tree_of_parts {s : Shape} (h : ∀ x ∈ s.parts, t.plant (t.unfold x) = (x, t)) :
    t.plant (s.tree t.unfold) = t.intern s := by
  rcases s with p | ⟨x, space⟩ | ⟨x, length⟩ | a
  · rfl
  · simp only [Shape.tree, plant, h x (List.mem_singleton.2 rfl)]
  · simp only [Shape.tree, plant, h x (List.mem_singleton.2 rfl)]
  · simp only [Shape.tree, plant, plantEach_of_parts h]

/-- **What a table can read it need not plant.** -/
theorem Ordered.plant_unfold (ho : t.Ordered) (h : Handle) : t.plant (t.unfold h) = (h, t) := by
  induction h using ho.induction with
  | step h ih =>
    rcases hg : t.get? h with - | s
    · rw [ho.unfold_eq, hg]
      rfl
    · rw [ho.unfold_of_get? hg, plant_tree_of_parts (ih s hg)]
      exact intern_of_find? (find?_of_get? hg)

/-- **A shape is planted by interning it.** -/
theorem Ordered.plant_tree (ho : t.Ordered) (s : Shape) :
    t.plant (s.tree t.unfold) = t.intern s :=
  plant_tree_of_parts fun x _ => ho.plant_unfold x

theorem Reads.plant {h : Handle} {T : Tree} (hr : t.Reads h T) (ho : t.Ordered) :
    t.plant T = (h, t) := hr.unfold_eq ▸ ho.plant_unfold h

theorem Ordered.plantAll_of_reads (ho : t.Ordered) {trees : List Tree}
    (h : ∀ T ∈ trees, ∃ x, t.Reads x T) : t.plantAll trees = t := by
  induction trees with
  | nil => rfl
  | cons T rest ih =>
    obtain ⟨x, hx⟩ := h T (List.mem_cons_self ..)
    have hT : (t.plant T).2 = t := by rw [hx.plant ho]
    rw [plantAll, List.foldl_cons, hT]
    exact ih fun T hT => h T (List.mem_cons_of_mem _ hT)

end DeviceTypes.Table
