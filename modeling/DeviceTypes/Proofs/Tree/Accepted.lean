import DeviceTypes.Proofs.Tree.Basic
/-!
# Accepted trees

What a target accepts: `Tree.Accepted` says it of a whole tree, condition
by condition, and `Tree.verdict` answers for the outermost type alone and
names the first objection. A tree is accepted exactly when its parts are
and the verdict on the whole is good (`accepted_array_iff`,
`accepted_aggregate_iff`).
-/

namespace DeviceTypes

namespace Aggregate

/-! ## Checks on names and alignments -/

theorem nameFault?_eq_none_iff {index : Nat} {seen : List String} {members : List Member} :
    nameFault? index seen members = none ↔
      (∀ m ∈ members, m.name ≠ "" ∧ m.name ∉ seen) ∧ (members.map Member.name).Nodup := by
  induction members generalizing index seen with
  | nil => simp [nameFault?]
  | cons m rest ih =>
    rw [nameFault?]
    by_cases hempty : m.name = ""
    · simp [hempty]
    by_cases hseen : m.name ∈ seen
    · simp [hempty, hseen]
    rw [if_neg hempty, if_neg hseen, ih]
    simp only [List.mem_cons, not_or, forall_eq_or_imp, List.map_cons, List.nodup_cons,
      List.mem_map, not_exists, not_and]
    constructor
    · rintro ⟨hrest, hnodup⟩
      exact ⟨⟨⟨hempty, hseen⟩, fun x hx => ⟨(hrest x hx).1, (hrest x hx).2.2⟩⟩,
        fun x hx => (hrest x hx).2.1, hnodup⟩
    · rintro ⟨⟨-, hrest⟩, hfresh, hnodup⟩
      exact ⟨fun x hx => ⟨(hrest x hx).1, hfresh x hx, (hrest x hx).2⟩, hnodup⟩

theorem nameFault?_congr {index : Nat} {seen : List String} {ms ms' : List Member}
    (h : ms.map Member.name = ms'.map Member.name) :
    nameFault? index seen ms = nameFault? index seen ms' := by
  induction ms generalizing index seen ms' with
  | nil => rw [List.map_eq_nil_iff.1 h.symm]
  | cons m rest ih =>
    rcases ms' with - | ⟨m', rest'⟩
    · simp at h
    simp only [List.map_cons, List.cons.injEq] at h
    rw [nameFault?, nameFault?, h.1, ih h.2]

theorem checkAlignment_eq_ok_iff {max : Nat} {alignment : Alignment} :
    checkAlignment max alignment = .ok () ↔ ∀ a, alignment = .explicit a → a.bytes ≤ max := by
  cases alignment with
  | natural => simp [checkAlignment]
  | explicit a => simp [checkAlignment]

/-- **An aggregate is checked** for members, names and its explicit alignment. -/
theorem check_eq_ok_iff {target : Target} {a : Aggregate} :
    a.check target = .ok () ↔ (a.members = [] → target.allowsEmpty = true) ∧
      (∀ m ∈ a.members, m.name ≠ "") ∧ (a.members.map Member.name).Nodup ∧
      ∀ x, a.alignment = .explicit x → x.bytes ≤ target.maxAlignment.toNat := by
  rw [check]
  by_cases hempty : (a.members.isEmpty && !target.allowsEmpty) = true
  · rw [if_pos hempty]
    simp only [Bool.and_eq_true, List.isEmpty_iff, Bool.not_eq_true'] at hempty
    simp [hempty.1, hempty.2]
  · have hsome : a.members = [] → target.allowsEmpty = true := by
      intro hnil
      simpa [hnil] using hempty
    rw [if_neg hempty]
    rcases hf : nameFault? 0 [] a.members with - | fault
    · have := nameFault?_eq_none_iff.1 hf
      simp only [checkAlignment_eq_ok_iff]
      exact ⟨fun h => ⟨hsome, fun m hm => (this.1 m hm).1, this.2, h⟩, fun h => h.2.2.2⟩
    · simp only [reduceCtorEq, false_iff]
      rintro ⟨-, hnames, hnodup, -⟩
      have hnone : nameFault? 0 [] a.members = none :=
        nameFault?_eq_none_iff.2 ⟨fun m hm => ⟨hnames m hm, List.not_mem_nil⟩, hnodup⟩
      rw [hnone] at hf
      exact absurd hf (by simp)

/-- The check does not look at the types of the members. -/
theorem check_congr {target : Target} {a b : Aggregate}
    (hm : a.members.map Member.name = b.members.map Member.name) (ha : a.alignment = b.alignment) :
    a.check target = b.check target := by
  have hempty : a.members.isEmpty = b.members.isEmpty := by
    rw [← List.isEmpty_map (f := Member.name), hm, List.isEmpty_map]
  rw [check, check, hempty, nameFault?_congr hm, ha]

/-- Nor does it matter to it in which order they come. -/
theorem check_perm {target : Target} {a b : Aggregate} (h : a.check target = .ok ())
    (hp : a.members.Perm b.members) (ha : a.alignment = b.alignment) :
    b.check target = .ok () := by
  obtain ⟨hempty, hnames, hnodup, halign⟩ := check_eq_ok_iff.1 h
  refine check_eq_ok_iff.2 ⟨fun hnil => hempty ?_, fun m hm => hnames m (hp.mem_iff.2 hm),
    ((hp.map Member.name).nodup_iff).1 hnodup, ha ▸ halign⟩
  exact (hnil ▸ hp).eq_nil

end Aggregate

namespace Tree

variable {target : Target}

/-- What a target asks of a type before it is laid out. It does not depend on
the types of the members, so any will do for them. -/
def check (target : Target) : Tree → Except Rejection Unit
  | aggregate kind members alignment packing passing =>
    Aggregate.check target
      ⟨kind, members.map fun m => ⟨m.1, .primitive .void⟩, alignment, packing, passing⟩
  | _ => .ok ()

/-- What a target answers to a type whose parts it has accepted. -/
def verdict (target : Target) (T : Tree) : Except Rejection Unit := do
  T.check target
  let _ ← T.layout target

/-- **The target accepts the type and all its parts.** Whatever is laid out has
a size, and aggregates have distinct names, an alignment in range, and some
member unless the target does without. -/
inductive Accepted (target : Target) : Tree → Prop
  | primitive (p : Primitive) : Accepted target (.primitive p)
  | pointer {T : Tree} (space : AddressSpace) : Accepted target T →
      Accepted target (.pointer T space)
  | array {T : Tree} {length : UInt64} {l : Layout} : Accepted target T →
      layout target (.array T length) = .ok l → Accepted target (.array T length)
  | aggregate {kind : AggregateKind} {members : List (String × Tree)} {alignment : Alignment}
      {packing : Packing} {passing : Passing} {l : Layout} :
      (∀ m ∈ members, Accepted target m.2) →
      (members = [] → target.allowsEmpty = true) →
      (∀ m ∈ members, m.1 ≠ "") → (members.map Prod.fst).Nodup →
      (∀ a, alignment = .explicit a → a.bytes ≤ target.maxAlignment.toNat) →
      layout target (.aggregate kind members alignment packing passing) = .ok l →
      Accepted target (.aggregate kind members alignment packing passing)

theorem verdict_eq_ok_iff {T : Tree} :
    T.verdict target = .ok () ↔ T.check target = .ok () ∧ ∃ l, T.layout target = .ok l := by
  rw [verdict]
  rcases hc : T.check target with e | -
  · simp [bind, Except.bind]
  rcases hl : T.layout target with e | l
  · simp [bind, Except.bind]
  · simp [bind, Except.bind, pure, Except.pure]

theorem check_aggregate_eq_ok_iff {kind : AggregateKind} {members : List (String × Tree)}
    {alignment : Alignment} {packing : Packing} {passing : Passing} :
    (aggregate kind members alignment packing passing).check target = .ok () ↔
      (members = [] → target.allowsEmpty = true) ∧ (∀ m ∈ members, m.1 ≠ "") ∧
      (members.map Prod.fst).Nodup ∧
      ∀ a, alignment = .explicit a → a.bytes ≤ target.maxAlignment.toNat := by
  rw [check, Aggregate.check_eq_ok_iff]
  simp only [List.map_eq_nil_iff, List.mem_map, forall_exists_index, and_imp,
    forall_apply_eq_imp_iff₂, List.map_map]
  rfl

/-- **A type with accepted parts is accepted exactly when it is admitted.** -/
theorem accepted_array_iff {T : Tree} {length : UInt64} (hT : T.Accepted target) :
    (array T length).Accepted target ↔ (array T length).verdict target = .ok () := by
  rw [verdict_eq_ok_iff]
  constructor
  · intro h
    cases h with
    | array _ hl => exact ⟨rfl, _, hl⟩
  · rintro ⟨-, l, hl⟩
    exact .array hT hl

theorem accepted_aggregate_iff {kind : AggregateKind} {members : List (String × Tree)}
    {alignment : Alignment} {packing : Packing} {passing : Passing}
    (hm : ∀ m ∈ members, m.2.Accepted target) :
    (aggregate kind members alignment packing passing).Accepted target ↔
      (aggregate kind members alignment packing passing).verdict target = .ok () := by
  rw [verdict_eq_ok_iff, check_aggregate_eq_ok_iff]
  constructor
  · intro h
    cases h with
    | aggregate _ hempty hnames hnodup halign hl =>
      exact ⟨⟨hempty, hnames, hnodup, halign⟩, _, hl⟩
  · rintro ⟨⟨hempty, hnames, hnodup, halign⟩, l, hl⟩
    exact .aggregate hm hempty hnames hnodup halign hl

end Tree

end DeviceTypes
