import DeviceTypes.Policy
import DeviceTypes.Proofs.Layout.Anew
/-!
# Type trees

What a handle stands for all the way down, with no handles in it except
those that its table does not know. The tree of a handle is a reading of
its table (`Table.unfold`), and in an ordered table it says everything
about the handle: two handles with the same tree are the same
(`Ordered.unfold_injective`), and the layout of a handle is the layout of
its tree (`Ordered.layoutAnew_eq_layout`).
-/

namespace DeviceTypes

/-- A type with all its parts. -/
inductive Tree where
  /-- A handle that its table does not know. -/
  | unknown (h : Handle)
  | primitive (p : Primitive)
  | pointer (pointee : Tree) (space : AddressSpace)
  | array (element : Tree) (length : UInt64)
  | aggregate (kind : AggregateKind) (members : List (String × Tree)) (alignment : Alignment)
      (packing : Packing) (passing : Passing)

namespace Tree

/-- A property that passes from the parts of a tree to the tree holds of
every tree. -/
@[elab_as_elim, induction_eliminator]
theorem induction {motive : Tree → Prop} (unknown : ∀ h, motive (.unknown h))
    (primitive : ∀ p, motive (.primitive p))
    (pointer : ∀ T space, motive T → motive (.pointer T space))
    (array : ∀ T length, motive T → motive (.array T length))
    (aggregate : ∀ kind members alignment packing passing, (∀ m ∈ members, motive m.2) →
      motive (.aggregate kind members alignment packing passing)) : ∀ T, motive T
  | .unknown h => unknown h
  | .primitive p => primitive p
  | .pointer T space =>
    pointer T space (induction unknown primitive pointer array aggregate T)
  | .array T length => array T length (induction unknown primitive pointer array aggregate T)
  | .aggregate kind members alignment packing passing =>
    aggregate kind members alignment packing passing fun m hm =>
      have : sizeOf m < sizeOf members := List.sizeOf_lt_of_mem hm
      have : sizeOf m.2 < sizeOf m := by cases m; simp only [Prod.mk.sizeOf_spec]; omega
      induction unknown primitive pointer array aggregate m.2
  termination_by T => sizeOf T

/-- The tree of an aggregate with its hints filled in as the policy says. -/
def ofPolicy (policy : Policy) (members : List (String × Tree)) : Tree :=
  .aggregate policy.kind members (policy.alignment.getD .natural)
    (policy.packing.getD .sequential) (policy.passing.getD .targetDefault)

/-! ## Layout -/

mutual

/-- The layout of a type from the layouts of its parts. -/
def layout (target : Target) : Tree → Except Rejection Layout
  | unknown h => .error (.unknownHandle h)
  | primitive p => .ok (.scalar p.bytes)
  | pointer _ space => .ok (.scalar (target.pointerWidth space).toNat)
  | array element length =>
    (element.layout target).bind fun l => orOverflow (l.row? length.toNat)
  | aggregate kind members alignment packing _ =>
    (Placement.placeEach kind (packing = .packed) {} (layoutEach target members)).bind
      fun placed => placed.close alignment

/-- The layouts of all members. -/
def layoutEach (target : Target) : List (String × Tree) → List (Except Rejection Layout)
  | [] => []
  | m :: rest => m.2.layout target :: layoutEach target rest

end

theorem layoutEach_eq (target : Target) (members : List (String × Tree)) :
    layoutEach target members = members.map fun m => m.2.layout target := by
  induction members with
  | nil => rw [layoutEach, List.map_nil]
  | cons m rest ih => rw [layoutEach, List.map_cons, ih]

end Tree

/-! ## Handles as trees -/

/-- The tree of a shape, given the trees of the handles in it. -/
def Shape.tree (f : Handle → Tree) : Shape → Tree
  | .primitive p => .primitive p
  | .compound (.pointer pointee space) => .pointer (f pointee) space
  | .compound (.array element length) => .array (f element) length
  | .compound (.aggregate a) =>
    .aggregate a.kind (a.members.map fun m => (m.name, f m.type)) a.alignment a.packing a.passing

theorem Shape.tree_congr {f g : Handle → Tree} {s : Shape} (h : ∀ x ∈ s.parts, f x = g x) :
    s.tree f = s.tree g := by
  match s with
  | .primitive p => rfl
  | .compound (.pointer pointee space) =>
    simp only [tree, h pointee (List.mem_singleton.2 rfl)]
  | .compound (.array element length) =>
    simp only [tree, h element (List.mem_singleton.2 rfl)]
  | .compound (.aggregate a) =>
    have hmap : (a.members.map fun m => (m.name, f m.type)) =
        a.members.map fun m => (m.name, g m.type) :=
      List.map_congr_left fun m hm => by rw [h m.type (List.mem_map_of_mem hm)]
    simp only [tree, hmap]

/-- Laying out the tree of a shape is laying out the shape. -/
theorem Shape.layout_tree (target : Target) (f : Handle → Tree) (s : Shape) :
    (s.tree f).layout target = s.layoutIn target fun x => (f x).layout target := by
  match s with
  | .primitive p => rfl
  | .compound (.pointer pointee space) => rfl
  | .compound (.array element length) =>
    rw [Shape.layoutIn, Compound.layoutIn_array, tree, Tree.layout]
  | .compound (.aggregate a) =>
    rw [Shape.layoutIn, Compound.layoutIn, Aggregate.layoutIn_eq, tree, Tree.layout,
      Tree.layoutEach_eq, List.map_map]
    rfl

section Inversion

variable {f : Handle → Tree} {s s' : Shape} {T : Tree}

theorem Shape.tree_ne_unknown (h : Handle) : s.tree f ≠ .unknown h := by
  intro he
  rcases s with p | ⟨x, space⟩ | ⟨x, length⟩ | a
  all_goals simp only [tree, reduceCtorEq] at he

theorem Shape.tree_eq_primitive {p : Primitive} (h : s.tree f = .primitive p) :
    s = .primitive p := by
  rcases s with q | ⟨x, space⟩ | ⟨x, length⟩ | a
  · rw [tree, Tree.primitive.injEq] at h
    rw [h]
  all_goals simp only [tree, reduceCtorEq] at h

theorem Shape.tree_eq_pointer {space : AddressSpace} (h : s.tree f = .pointer T space) :
    ∃ x, s = .compound (.pointer x space) ∧ f x = T := by
  rcases s with p | ⟨x, space⟩ | ⟨x, length⟩ | a
  case compound.pointer =>
    rw [tree, Tree.pointer.injEq] at h
    exact ⟨x, by rw [h.2], h.1⟩
  all_goals simp only [tree, reduceCtorEq] at h

theorem Shape.tree_eq_array {length : UInt64} (h : s.tree f = .array T length) :
    ∃ x, s = .compound (.array x length) ∧ f x = T := by
  rcases s with p | ⟨x, space⟩ | ⟨x, length⟩ | a
  case compound.array =>
    rw [tree, Tree.array.injEq] at h
    exact ⟨x, by rw [h.2], h.1⟩
  all_goals simp only [tree, reduceCtorEq] at h

theorem Shape.tree_eq_aggregate {kind : AggregateKind} {ms : List (String × Tree)}
    {alignment : Alignment} {packing : Packing} {passing : Passing}
    (h : s.tree f = .aggregate kind ms alignment packing passing) :
    ∃ members, s = .compound (.aggregate ⟨kind, members, alignment, packing, passing⟩) ∧
      (members.map fun m => (m.name, f m.type)) = ms := by
  rcases s with p | ⟨x, space⟩ | ⟨x, length⟩ | ⟨kind, members, alignment, packing, passing⟩
  case compound.aggregate =>
    rw [tree, Tree.aggregate.injEq] at h
    obtain ⟨rfl, hms, rfl, rfl, rfl⟩ := h
    exact ⟨members, rfl, hms⟩
  all_goals simp only [tree, reduceCtorEq] at h

theorem Member.map_inj {ms ms' : List Member} (hf : ∀ m ∈ ms, ∀ y, f m.type = f y → m.type = y)
    (h : (ms.map fun m => (m.name, f m.type)) = ms'.map fun m => (m.name, f m.type)) :
    ms = ms' := by
  induction ms generalizing ms' with
  | nil => exact (List.map_eq_nil_iff.1 h.symm).symm
  | cons m rest ih =>
    rcases ms' with - | ⟨m', rest'⟩
    · simp at h
    simp only [List.map_cons, List.cons.injEq, Prod.mk.injEq] at h
    obtain ⟨⟨hname, htype⟩, hrest⟩ := h
    have hm : m = m' := by
      have := hf m (List.mem_cons_self ..) m'.type htype
      cases m
      cases m'
      simp only at hname this
      rw [hname, this]
    rw [hm, ih (fun m hm => hf m (List.mem_cons_of_mem _ hm)) hrest]

/-- Where trees tell handles apart, they tell shapes apart. -/
theorem Shape.tree_inj (hf : ∀ x ∈ s.parts, ∀ y, f x = f y → x = y) (h : s.tree f = s'.tree f) :
    s = s' := by
  rcases s with p | ⟨x, space⟩ | ⟨x, length⟩ | a
  · exact (tree_eq_primitive h.symm).symm
  · obtain ⟨y, rfl, hy⟩ := tree_eq_pointer h.symm
    rw [hf x (List.mem_singleton.2 rfl) y hy.symm]
  · obtain ⟨y, rfl, hy⟩ := tree_eq_array h.symm
    rw [hf x (List.mem_singleton.2 rfl) y hy.symm]
  · obtain ⟨members, rfl, hms⟩ := tree_eq_aggregate h.symm
    have := Member.map_inj (fun m hm => hf m.type (List.mem_map_of_mem hm)) hms.symm
    rw [← this]

end Inversion

/-- Handles read as trees. -/
def treeReading : Reading Tree where
  unknown := .unknown
  shape := Shape.tree
  shape_congr := Shape.tree_congr

namespace Table

/-- The tree of a handle. -/
def unfold (t : Table) (h : Handle) : Tree := t.read treeReading h

variable {t t' : Table} {h h' : Handle} {T : Tree}

/-- **The tree of a handle** has the trees of its parts. -/
theorem Ordered.unfold_eq (ho : t.Ordered) (h : Handle) :
    t.unfold h =
      match t.get? h with
      | none => .unknown h
      | some s => s.tree t.unfold :=
  ho.read_eq treeReading h

theorem Ordered.unfold_of_get? (ho : t.Ordered) {s : Shape} (hg : t.get? h = some s) :
    t.unfold h = s.tree t.unfold := by
  rw [ho.unfold_eq, hg]

/-- **Different handles have different trees.** -/
theorem Ordered.unfold_injective (ho : t.Ordered) (he : t.unfold h = t.unfold h') : h = h' := by
  induction h using ho.induction generalizing h' with
  | step h ih =>
    rcases hg : t.get? h with - | s <;> rcases hg' : t.get? h' with - | s'
    · simpa [ho.unfold_eq h, hg, ho.unfold_eq h', hg'] using he
    · rw [ho.unfold_of_get? hg', ho.unfold_eq h, hg] at he
      exact absurd he.symm (Shape.tree_ne_unknown h)
    · rw [ho.unfold_of_get? hg, ho.unfold_eq h', hg'] at he
      exact absurd he (Shape.tree_ne_unknown h')
    · rw [ho.unfold_of_get? hg, ho.unfold_of_get? hg'] at he
      -- one tree, so one shape, and a table holds no shape twice
      obtain rfl := Shape.tree_inj (fun x hx y hxy => ih s hg x hx hxy) he
      exact Option.some.inj ((find?_of_get? hg).symm.trans (find?_of_get? hg'))

/-- **What is read off the trees is read off the handles**: a reading that goes by
the tree of each shape goes by the tree of each handle. -/
theorem Ordered.read_eq_of_tree {β : Type} (ho : t.Ordered) {r : Reading β} {g : Tree → β}
    (hunknown : ∀ h, g (.unknown h) = r.unknown h)
    (hshape : ∀ f s, g (Shape.tree f s) = r.shape (fun x => g (f x)) s) (h : Handle) :
    t.read r h = g (t.unfold h) := by
  induction h using ho.induction with
  | step h ih =>
    rw [ho.read_eq, ho.unfold_eq]
    rcases hg : t.get? h with - | s
    · exact (hunknown h).symm
    · simp only [hshape]
      exact r.shape_congr fun x hx => ih s hg x hx

/-- **A handle is laid out as its tree is.** -/
theorem Ordered.layoutAnew_eq_layout (ho : t.Ordered) (target : Target) (h : Handle) :
    t.layoutAnew target h = (t.unfold h).layout target :=
  ho.read_eq_of_tree (fun _ => rfl) (fun f s => s.layout_tree target f) h

/-- The table knows the handle, and knows it as the tree. -/
structure Reads (t : Table) (h : Handle) (T : Tree) : Prop where
  contains : t.contains h = true
  unfold_eq : t.unfold h = T

theorem Reads.of_le (hr : t.Reads h T) (ho : t.Ordered) (ho' : t'.Ordered) (hle : t ≤ t') :
    t'.Reads h T where
  contains := contains_of_le hle hr.contains
  unfold_eq := by
    rw [← hr.unfold_eq]
    exact ho.read_of_le ho' hle treeReading (settled_of_contains hr.contains)

theorem Reads.settled (hr : t.Reads h T) : t.Settled h := settled_of_contains hr.contains

/-- A tree is read off one handle at most. -/
theorem Reads.inj (hr : t.Reads h T) (hr' : t.Reads h' T) (ho : t.Ordered) : h = h' :=
  ho.unfold_injective (hr.unfold_eq.trans hr'.unfold_eq.symm)

/-- The table knows the members, and knows their types as the trees. -/
structure ReadsEach (t : Table) (members : List Member) (Ts : List (String × Tree)) : Prop where
  contains : ∀ m ∈ members, t.contains m.type = true
  unfold_eq : (members.map fun m => (m.name, t.unfold m.type)) = Ts

theorem readsEach_nil (t : Table) : t.ReadsEach [] [] := ⟨fun _ h => by simp at h, rfl⟩

theorem Reads.cons {members : List Member} {Ts : List (String × Tree)} (hr : t.Reads h T)
    (hrs : t.ReadsEach members Ts) (name : String) :
    t.ReadsEach (⟨name, h⟩ :: members) ((name, T) :: Ts) where
  contains := List.forall_mem_cons.2 ⟨hr.contains, hrs.contains⟩
  unfold_eq := by rw [List.map_cons, hr.unfold_eq, hrs.unfold_eq]

theorem Ordered.reads_primitive (ho : t.Ordered) (p : Primitive) :
    t.Reads (.primitive p) (.primitive p) where
  contains := rfl
  unfold_eq := by rw [ho.unfold_eq]; rfl

/-- **An interned compound reads as the tree of its parts.** -/
theorem Ordered.reads_handleOf (ho : t.Ordered) {c : Compound}
    (hc : ∀ x ∈ c.parts, t.Settled x) :
    (t.adding c).Reads (t.handleOf c) (Shape.tree t.unfold (.compound c)) := by
  have ho' := ho.adding hc
  have hg : (t.adding c).get? (t.handleOf c) = some (.compound c) :=
    get?_of_find? (find?_intern t (.compound c))
  refine ⟨by rw [contains_eq_isSome_get?, hg, Option.isSome_some], ?_⟩
  rw [ho'.unfold_of_get? hg]
  exact Shape.tree_congr fun x hx =>
    ho.read_of_le ho' (le_adding t c) treeReading (hc x hx)

end Table

end DeviceTypes
