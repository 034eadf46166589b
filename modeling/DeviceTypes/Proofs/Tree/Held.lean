import DeviceTypes.Proofs.Tree.Accepted
import DeviceTypes.Proofs.Tree.Plant
/-!
# The trees a table holds

A table holds a tree when one of its handles reads as that tree. Planting
a tree that has no unknown handle in it makes the table hold the parts of
the tree, at every depth, and nothing else that is new
(`Ordered.plants`). So what a table holds after some trees are planted
does not depend on their order, nor on how often each of them is planted
(`Ordered.holds_plantAll`).
-/

namespace DeviceTypes

namespace Tree

/-- `S` is `T` or a part of it, at any depth. -/
inductive PartOf : Tree → Tree → Prop
  | self (T : Tree) : PartOf T T
  | pointer {S T : Tree} {space : AddressSpace} : PartOf S T → PartOf S (.pointer T space)
  | array {S T : Tree} {length : UInt64} : PartOf S T → PartOf S (.array T length)
  | member {S : Tree} {m : String × Tree} {kind : AggregateKind} {members : List (String × Tree)}
      {alignment : Alignment} {packing : Packing} {passing : Passing} :
      m ∈ members → PartOf S m.2 → PartOf S (.aggregate kind members alignment packing passing)

/-- No part of the tree is a handle that its table does not know. -/
def Known (T : Tree) : Prop := ∀ h, ¬ PartOf (.unknown h) T

variable {S T : Tree}

theorem Known.of_pointer {space : AddressSpace} (hk : (pointer T space).Known) : T.Known :=
  fun h hp => hk h (.pointer hp)

theorem Known.of_array {length : UInt64} (hk : (array T length).Known) : T.Known :=
  fun h hp => hk h (.array hp)

theorem Known.of_member {kind : AggregateKind} {members : List (String × Tree)}
    {alignment : Alignment} {packing : Packing} {passing : Passing}
    (hk : (aggregate kind members alignment packing passing).Known) {m : String × Tree}
    (hm : m ∈ members) : m.2.Known :=
  fun h hp => hk h (.member hm hp)

/-- **What a target accepts is known all the way down.** -/
theorem Accepted.known {target : Target} (hT : T.Accepted target) : T.Known := by
  intro h hp
  induction hT with
  | primitive p => cases hp
  | pointer space _ ih =>
    cases hp with
    | pointer hp => exact ih hp
  | array _ _ ih =>
    cases hp with
    | array hp => exact ih hp
  | aggregate _ _ _ _ _ _ ih =>
    cases hp with
    | member hm hp => exact ih _ hm hp

/-! ## The parts, constructor by constructor -/

theorem partOf_primitive {p : Primitive} : S.PartOf (.primitive p) ↔ S = .primitive p := by
  constructor
  · intro h
    cases h
    rfl
  · rintro rfl
    exact .self _

theorem partOf_pointer {space : AddressSpace} :
    S.PartOf (.pointer T space) ↔ S.PartOf T ∨ S = .pointer T space := by
  constructor
  · intro h
    cases h with
    | self => exact Or.inr rfl
    | pointer h => exact Or.inl h
  · rintro (h | rfl)
    · exact .pointer h
    · exact .self _

theorem partOf_array {length : UInt64} :
    S.PartOf (.array T length) ↔ S.PartOf T ∨ S = .array T length := by
  constructor
  · intro h
    cases h with
    | self => exact Or.inr rfl
    | array h => exact Or.inl h
  · rintro (h | rfl)
    · exact .array h
    · exact .self _

theorem partOf_aggregate {kind : AggregateKind} {members : List (String × Tree)}
    {alignment : Alignment} {packing : Packing} {passing : Passing} :
    S.PartOf (.aggregate kind members alignment packing passing) ↔
      (∃ m ∈ members, S.PartOf m.2) ∨ S = .aggregate kind members alignment packing passing := by
  constructor
  · intro h
    cases h with
    | self => exact Or.inr rfl
    | member hm h => exact Or.inl ⟨_, hm, h⟩
  · rintro (⟨m, hm, h⟩ | rfl)
    · exact .member hm h
    · exact .self _

end Tree

namespace Table

variable {t t' : Table} {h : Handle} {S T : Tree}

/-- Some handle of the table reads as the tree. -/
def Holds (t : Table) (T : Tree) : Prop := ∃ h, t.Reads h T

theorem Ordered.holds_primitive (ho : t.Ordered) (p : Primitive) : t.Holds (.primitive p) :=
  ⟨_, ho.reads_primitive p⟩

theorem Holds.of_le (hh : t.Holds T) (ho : t.Ordered) (ho' : t'.Ordered) (hle : t ≤ t') :
    t'.Holds T := by
  obtain ⟨h, hr⟩ := hh
  exact ⟨h, hr.of_le ho ho' hle⟩

/-- A handle of the larger table is one of the smaller, or that of the compound
that was added. -/
theorem contains_adding {c : Compound} (hc : (t.adding c).contains h = true) :
    t.contains h = true ∨ h = t.handleOf c := by
  cases h with
  | primitive p => exact Or.inl rfl
  | loose w => simp [contains] at hc
  | minted table index =>
    simp only [contains, number_adding, decide_eq_true_eq] at hc ⊢
    obtain ⟨rfl, hlt⟩ := hc
    rw [entries_adding] at hlt
    split at hlt
    · exact Or.inl ⟨rfl, hlt⟩
    · rename_i hnew
      rw [List.length_append, List.length_singleton] at hlt
      rcases Nat.lt_succ_iff_lt_or_eq.1 hlt with hlt | rfl
      · exact Or.inl ⟨rfl, hlt⟩
      · right
        rw [handleOf, List.idxOf_eq_length hnew]

/-- **Adding a compound** makes a table hold its tree, and nothing else that is
new. -/
theorem Ordered.holds_adding (ho : t.Ordered) {c : Compound}
    (hc : ∀ x ∈ c.parts, t.Settled x) :
    (t.adding c).Holds S ↔ t.Holds S ∨ S = Shape.tree t.unfold (.compound c) := by
  have ho' := ho.adding hc
  have hle := le_adding t c
  have hnew := ho.reads_handleOf hc
  constructor
  · rintro ⟨h, hr⟩
    rcases contains_adding hr.contains with hold | rfl
    · have hr' : t.Reads h (t.unfold h) := ⟨hold, rfl⟩
      have hS : t.unfold h = S := (hr'.of_le ho ho' hle).unfold_eq.symm.trans hr.unfold_eq
      exact Or.inl ⟨h, hS ▸ hr'⟩
    · exact Or.inr (hr.unfold_eq.symm.trans hnew.unfold_eq)
  · rintro (hh | rfl)
    · exact hh.of_le ho ho' hle
    · exact ⟨_, hnew⟩

/-! ## Planting -/

/-- What planting does to a table: it grows, and comes to hold the trees of
which `new` says so. -/
structure Plants (t t' : Table) (new : Tree → Prop) : Prop where
  ordered : t'.Ordered
  le : t ≤ t'
  holds : ∀ S, t'.Holds S ↔ t.Holds S ∨ new S

theorem Ordered.plants_refl (ho : t.Ordered) {new : Tree → Prop} (hnew : ∀ S, new S → t.Holds S) :
    Plants t t new :=
  ⟨ho, le_refl t, fun S => ⟨Or.inl, fun h => h.elim id (hnew S)⟩⟩

theorem Plants.trans {t'' : Table} {new new' : Tree → Prop} (h : Plants t t' new)
    (h' : Plants t' t'' new') : Plants t t'' fun S => new S ∨ new' S where
  ordered := h'.ordered
  le := le_trans h.le h'.le
  holds S := by rw [h'.holds, h.holds, or_assoc]

theorem Plants.congr {new new' : Tree → Prop} (h : Plants t t' new)
    (he : ∀ S, new S ↔ new' S) : Plants t t' new' :=
  ⟨h.ordered, h.le, fun S => by rw [h.holds, he]⟩

/-- **A compound over parts that were planted**: its handle reads as its tree,
and this is all that is held besides the parts. -/
theorem Plants.compound {new : Tree → Prop} (h : Plants t t' new) {c : Compound}
    (hc : ∀ x ∈ c.parts, t'.Settled x) (hT : Shape.tree t'.unfold (.compound c) = T) :
    Plants t (t'.intern (.compound c)).2 (fun S => new S ∨ S = T) ∧
      (t'.intern (.compound c)).2.Reads (t'.intern (.compound c)).1 T := by
  subst hT
  refine ⟨h.trans ⟨h.ordered.adding hc, le_adding t' c, fun _ => ?_⟩, ?_⟩
  · exact h.ordered.holds_adding hc
  · exact h.ordered.reads_handleOf hc

/-- **Members are planted** one after another. -/
theorem plantEach_spec {members : List (String × Tree)}
    (hm : ∀ m ∈ members, ∀ t : Table, t.Ordered →
      Plants t (t.plant m.2).2 (·.PartOf m.2) ∧ (t.plant m.2).2.Reads (t.plant m.2).1 m.2)
    (ho : t.Ordered) :
    Plants t (t.plantEach members).2 (fun S => ∃ m ∈ members, S.PartOf m.2) ∧
      (t.plantEach members).2.ReadsEach (t.plantEach members).1 members := by
  induction members generalizing t with
  | nil =>
    refine ⟨ho.plants_refl ?_, readsEach_nil t⟩
    rintro S ⟨m, hm, -⟩
    exact absurd hm List.not_mem_nil
  | cons m rest ih =>
    rw [List.forall_mem_cons] at hm
    obtain ⟨hfirst, hreads⟩ := hm.1 t ho
    obtain ⟨hrest, hreadsEach⟩ := ih hm.2 hfirst.ordered
    constructor
    · refine (hfirst.trans hrest).congr fun S => ?_
      simp only [List.mem_cons, exists_eq_or_imp]
    · -- the rest is planted behind the first, whose handle goes on reading the same
      exact (hreads.of_le hfirst.ordered hrest.ordered hrest.le).cons hreadsEach m.1

/-- **A planted tree** is read off its handle, and its parts are all that the
table holds anew. -/
theorem Ordered.plants (ho : t.Ordered) (hk : T.Known) :
    Plants t (t.plant T).2 (·.PartOf T) ∧ (t.plant T).2.Reads (t.plant T).1 T := by
  induction T generalizing t with
  | unknown h => exact absurd (.self _) (hk h)
  | primitive p =>
    refine ⟨ho.plants_refl fun S hS => ?_, ho.reads_primitive p⟩
    rw [Tree.partOf_primitive.1 hS]
    exact ho.holds_primitive p
  | pointer T space ih =>
    obtain ⟨hparts, hreads⟩ := ih ho hk.of_pointer
    have hsettled : ∀ x ∈ (Compound.pointer (t.plant T).1 space).parts,
        (t.plant T).2.Settled x := List.forall_mem_singleton.2 hreads.settled
    have htree : Shape.tree (t.plant T).2.unfold (.compound (.pointer (t.plant T).1 space)) =
        .pointer T space := by rw [Shape.tree, hreads.unfold_eq]
    obtain ⟨hplants, hread⟩ := hparts.compound hsettled htree
    exact ⟨hplants.congr fun S => Tree.partOf_pointer.symm, hread⟩
  | array T length ih =>
    obtain ⟨hparts, hreads⟩ := ih ho hk.of_array
    have hsettled : ∀ x ∈ (Compound.array (t.plant T).1 length).parts,
        (t.plant T).2.Settled x := List.forall_mem_singleton.2 hreads.settled
    have htree : Shape.tree (t.plant T).2.unfold (.compound (.array (t.plant T).1 length)) =
        .array T length := by rw [Shape.tree, hreads.unfold_eq]
    obtain ⟨hplants, hread⟩ := hparts.compound hsettled htree
    exact ⟨hplants.congr fun S => Tree.partOf_array.symm, hread⟩
  | aggregate kind members alignment packing passing ih =>
    obtain ⟨hparts, hreads⟩ := plantEach_spec
      (fun m hm t ho => ih m hm ho (hk.of_member hm)) ho
    let a : Aggregate := ⟨kind, (t.plantEach members).1, alignment, packing, passing⟩
    have hsettled : ∀ x ∈ (Compound.aggregate a).parts, (t.plantEach members).2.Settled x := by
      intro x hx
      obtain ⟨m, hm, rfl⟩ := List.mem_map.1 hx
      exact settled_of_contains (hreads.contains m hm)
    have htree : Shape.tree (t.plantEach members).2.unfold (.compound (.aggregate a)) =
        .aggregate kind members alignment packing passing := by
      rw [Shape.tree, hreads.unfold_eq]
    obtain ⟨hplants, hread⟩ := hparts.compound hsettled htree
    exact ⟨hplants.congr fun S => Tree.partOf_aggregate.symm, hread⟩

/-- **What a table holds after some trees are planted**: what it held, and the
parts of these trees. -/
theorem Ordered.plants_plantAll (ho : t.Ordered) {trees : List Tree} (hk : ∀ T ∈ trees, T.Known) :
    Plants t (t.plantAll trees) fun S => ∃ T ∈ trees, S.PartOf T := by
  induction trees generalizing t with
  | nil =>
    refine ho.plants_refl ?_
    rintro S ⟨T, hT, -⟩
    exact absurd hT List.not_mem_nil
  | cons T rest ih =>
    rw [List.forall_mem_cons] at hk
    have hfirst := (ho.plants hk.1).1
    refine (hfirst.trans (ih hfirst.ordered hk.2)).congr fun S => ?_
    simp only [List.mem_cons, exists_eq_or_imp]

/-- **The order of planting does not show** in what is held. -/
theorem Ordered.holds_plantAll_congr (ho : t.Ordered) {trees trees' : List Tree}
    (hk : ∀ T ∈ trees, T.Known) (he : ∀ T, T ∈ trees ↔ T ∈ trees') :
    (t.plantAll trees).Holds S ↔ (t.plantAll trees').Holds S := by
  have hk' : ∀ T ∈ trees', T.Known := fun T hT => hk T ((he T).2 hT)
  rw [(ho.plants_plantAll hk).holds, (ho.plants_plantAll hk').holds]
  simp only [he]

end Table

end DeviceTypes
