import DeviceTypes.Policy
import DeviceTypes.Proofs.Layout.Exact
/-!
# What is wrong with an aggregate

An aggregate may be refused for its names, for its alignment, for a member
that has no layout or no place, and for its size, and for several of these
at once. `Aggregate.objections` lists what may be wrong with it, each
complaint in its own terms and without regard to the others, and `FirstOf`
is the first that applies. The checks and the layout answer with that one
(`Aggregate.check_eq_error_iff`, `Aggregate.layoutIn_eq_error_iff`), though
some complaints are found on the way through the members and others only
once all of them are placed.
-/

namespace DeviceTypes

/-! ## First of several -/

/-- The first complaint in a row is `e`. -/
def First (objects : Nat → Rejection → Prop) (e : Rejection) : Prop :=
  ∃ i, objects i e ∧ ∀ j < i, ∀ e', ¬ objects j e'

/-- The first complaint from a list is `e`. -/
def FirstOf (objections : List (Rejection → Prop)) : Rejection → Prop :=
  First fun i e => ∃ objects ∈ objections[i]?, objects e

variable {e : Rejection}

/-- **The first complaint is at the head, or it is the first behind it.** -/
theorem first_succ_iff {objects : Nat → Rejection → Prop} :
    First objects e ↔
      objects 0 e ∨ (∀ e', ¬ objects 0 e') ∧ First (fun i => objects (i + 1)) e := by
  constructor
  · rintro ⟨_ | i, hi, hfirst⟩
    · exact Or.inl hi
    · exact Or.inr ⟨hfirst 0 (Nat.succ_pos i), i, hi,
        fun j hj => hfirst (j + 1) (Nat.succ_lt_succ hj)⟩
  · rintro (h | ⟨hnone, i, hi, hfirst⟩)
    · exact ⟨0, h, fun j hj => absurd hj (Nat.not_lt_zero j)⟩
    · refine ⟨i + 1, hi, fun j hj => ?_⟩
      rcases j with _ | j
      · exact hnone
      · exact hfirst j (Nat.lt_of_succ_lt_succ hj)

theorem firstOf_nil : ¬ FirstOf [] e := by
  rintro ⟨i, ⟨P, hP, -⟩, -⟩
  cases hP

theorem firstOf_cons {P : Rejection → Prop} {Ps : List (Rejection → Prop)} :
    FirstOf (P :: Ps) e ↔ P e ∨ (∀ e', ¬ P e') ∧ FirstOf Ps e := by
  have hhead : ∀ e, (∃ objects ∈ (P :: Ps)[0]?, objects e) ↔ P e := by
    intro e
    simp
  rw [FirstOf, first_succ_iff]
  simp only [hhead]
  rfl

/-- Where there is a complaint there is a first one. -/
theorem exists_firstOf_iff {Ps : List (Rejection → Prop)} :
    (∃ e, FirstOf Ps e) ↔ ∃ P ∈ Ps, ∃ e, P e := by
  induction Ps with
  | nil => simp [firstOf_nil]
  | cons P Ps ih =>
    simp only [firstOf_cons, List.mem_cons, exists_eq_or_imp, ← ih]
    by_cases hP : ∃ e, P e
    · obtain ⟨e, he⟩ := hP
      exact ⟨fun _ => Or.inl ⟨e, he⟩, fun _ => ⟨e, Or.inl he⟩⟩
    · constructor
      · rintro ⟨e, he | ⟨-, he⟩⟩
        · exact absurd ⟨e, he⟩ hP
        · exact Or.inr ⟨e, he⟩
      · rintro (h | ⟨e, he⟩)
        · exact absurd h hP
        · exact ⟨e, Or.inr ⟨not_exists.1 hP, he⟩⟩

theorem firstOf_append {Ps Qs : List (Rejection → Prop)} :
    FirstOf (Ps ++ Qs) e ↔ FirstOf Ps e ∨ (∀ e', ¬ FirstOf Ps e') ∧ FirstOf Qs e := by
  induction Ps with
  | nil => simp [firstOf_nil]
  | cons P Ps ih =>
    rw [List.cons_append, firstOf_cons, ih]
    simp only [firstOf_cons]
    by_cases hP : ∃ e, P e
    · obtain ⟨e', he'⟩ := hP
      have hsome : ¬ ∀ e, ¬ P e := fun hnone => hnone e' he'
      simp only [hsome, false_and, or_false]
    · have hnone := not_exists.1 hP
      simp [hnone]

/-! ## The objections -/

/-- The name at position `i` is empty, or it is one from before. -/
def nameObjects (names : List String) (i : Nat) (e : Rejection) : Prop :=
  (names[i]? = some "" ∧ e = .unnamedMember i) ∨
    ∃ name, names[i]? = some name ∧ name ≠ "" ∧ name ∈ names.take i ∧ e = .repeatedMember name

/-- The member at position `i` has no layout, or its place behind those before it,
which start at `stop`, leaves the address range. -/
def placeObjects (kind : AggregateKind) (packed : Bool) (stop : Nat)
    (rs : List (Except Rejection Layout)) (i : Nat) (e : Rejection) : Prop :=
  rs[i]? = some (.error e) ∨
    ∃ ls l, rs.take i = ls.map .ok ∧ rs[i]? = some (.ok l) ∧
      Exact.Overflows kind packed (Exact.extent kind packed stop ls) l ∧ e = .sizeOverflow

namespace Aggregate

variable (target : Target) (f : Handle → Except Rejection Layout) (a : Aggregate)

/-- What a target may object to before an aggregate is laid out. -/
def checkObjections : List (Rejection → Prop) := [
  -- there is no member, and the target wants one
  fun e => a.members = [] ∧ target.allowsEmpty = false ∧ e = .noMembers,
  -- a name is empty or repeated
  First (nameObjects (a.members.map Member.name)),
  -- the explicit alignment is above the maximum
  fun e => ∃ x, a.alignment = .explicit x ∧ target.maxAlignment.toNat < x.bytes ∧
    e = .alignmentTooLarge x.bytes target.maxAlignment.toNat]

/-- What the layout may object to, the members being laid out by `f`. -/
def layoutObjections : List (Rejection → Prop) := [
  -- a member has no layout, or no place in the address range
  First (placeObjects a.kind a.isPacked 0 (a.members.map fun m => f m.type)),
  -- the explicit alignment is below the largest of the members'
  fun e => ∃ x ls, a.alignment = .explicit x ∧ a.isPacked = false ∧
    (a.members.map fun m => f m.type) = ls.map .ok ∧ x.bytes < Exact.natural false ls ∧
    e = .alignmentTooSmall x.bytes (Exact.natural false ls),
  -- rounding the size up leaves the address range
  fun e => ∃ ls, (a.members.map fun m => f m.type) = ls.map .ok ∧
    addressLimit ≤ Exact.extent a.kind a.isPacked 0 ls + (a.exactAlign ls - 1) ∧
    e = .sizeOverflow]

/-- What may be wrong with an aggregate, first things first. -/
def objections : List (Rejection → Prop) := a.checkObjections target ++ a.layoutObjections f

end Aggregate

/-! ## Names -/

/-- **The first faulty name** is what the walk through the names ends with, after
the names of `before`. -/
theorem Aggregate.nameFault?_eq_some_iff_of_before (members : List Member)
    (before seen : List String) (hseen : ∀ name, name ∈ seen ↔ name ∈ before) :
    nameFault? before.length seen members = some e ↔
      First (fun i => nameObjects (before ++ members.map Member.name) (before.length + i)) e := by
  induction members generalizing before seen with
  | nil =>
    simp only [nameFault?, reduceCtorEq, false_iff]
    rintro ⟨i, h, -⟩
    simp [nameObjects] at h
  | cons m rest ih =>
    have hhead : ∀ e, nameObjects (before ++ (m :: rest).map Member.name) (before.length + 0) e ↔
        (m.name = "" ∧ e = .unnamedMember before.length) ∨
          (m.name ≠ "" ∧ m.name ∈ seen ∧ e = .repeatedMember m.name) := by
      intro e
      simp [nameObjects, hseen]
    have htail : First (fun i => nameObjects (before ++ (m :: rest).map Member.name)
        (before.length + (i + 1))) e ↔
          nameFault? (before.length + 1) (m.name :: seen) rest = some e := by
      have hmore := ih (before ++ [m.name]) (m.name :: seen) fun name => by
        simp [hseen, or_comm]
      rw [List.length_append, List.length_singleton, List.append_assoc] at hmore
      rw [hmore]
      simp only [Nat.add_assoc, Nat.add_comm 1]
      rfl
    rw [first_succ_iff, htail, nameFault?]
    simp only [hhead]
    by_cases hempty : m.name = ""
    · simp [hempty, eq_comm]
    by_cases hold : m.name ∈ seen
    · simp [hempty, hold, eq_comm]
    · simp [hempty, hold]

theorem Aggregate.nameFault?_eq_some_iff {a : Aggregate} :
    nameFault? 0 [] a.members = some e ↔ First (nameObjects (a.members.map Member.name)) e := by
  have h := nameFault?_eq_some_iff_of_before (e := e) a.members [] [] fun _ => Iff.rfl
  simpa using h

/-! ## The checks -/

theorem Aggregate.checkAlignment_eq_error_iff {max : Nat} {alignment : Alignment} :
    checkAlignment max alignment = .error e ↔
      ∃ x, alignment = .explicit x ∧ max < x.bytes ∧ e = .alignmentTooLarge x.bytes max := by
  cases alignment with
  | natural => simp [checkAlignment]
  | explicit x =>
    rw [checkAlignment]
    by_cases hlarge : max < x.bytes
    · simp [hlarge, eq_comm]
    · simp [hlarge]

/-- **The checks refuse an aggregate for the first of their objections.** -/
theorem Aggregate.check_eq_error_iff {target : Target} {a : Aggregate} :
    a.check target = .error e ↔ FirstOf (a.checkObjections target) e := by
  simp only [checkObjections, firstOf_cons, firstOf_nil, and_false, or_false]
  rw [check]
  by_cases hempty : a.members = [] ∧ target.allowsEmpty = false
  · simp [hempty, eq_comm]
  have hpass : ¬ (a.members.isEmpty && !target.allowsEmpty) = true := by
    simpa using hempty
  have hmembers : ∀ e',
      ¬ (a.members = [] ∧ target.allowsEmpty = false ∧ e' = Rejection.noMembers) :=
    fun e' h => hempty ⟨h.1, h.2.1⟩
  rw [if_neg hpass]
  simp only [hmembers, false_or, not_false_eq_true, implies_true, true_and]
  rcases hname : nameFault? 0 [] a.members with - | fault
  · have hnames : ∀ e, ¬ First (nameObjects (a.members.map Member.name)) e := by
      intro e h
      rw [nameFault?_eq_some_iff.2 h] at hname
      cases hname
    simp [hnames, checkAlignment_eq_error_iff]
  · have hnames : ∀ e, First (nameObjects (a.members.map Member.name)) e ↔ fault = e := by
      intro e
      rw [← nameFault?_eq_some_iff, hname, Option.some.injEq]
    simp [hnames]

/-! ## The layout -/

/-- Behind a member with a layout, the others are objected to as if they came past it. -/
theorem placeObjects_succ (kind : AggregateKind) (packed : Bool) (stop : Nat) (l : Layout)
    (rest : List (Except Rejection Layout)) :
    (fun i => placeObjects kind packed stop (.ok l :: rest) (i + 1)) =
      placeObjects kind packed (Exact.past kind packed stop l) rest := by
  funext i e
  simp only [placeObjects, List.getElem?_cons_succ, List.take_succ_cons]
  refine propext (or_congr_right ⟨?_, ?_⟩)
  · rintro ⟨_, l', hls, hi, hover⟩
    obtain ⟨_, ls, rfl, hl, hrest⟩ := List.map_eq_cons_iff.1 hls.symm
    obtain rfl := Except.ok.inj hl
    exact ⟨ls, l', hrest.symm, hi, hover⟩
  · rintro ⟨ls, l', hls, hi, hover⟩
    exact ⟨l :: ls, l', congrArg (Except.ok l :: ·) hls, hi, hover⟩

/-- **Members are refused for the first that has no layout or no place.** -/
theorem Placement.placeEach_eq_error_iff {kind : AggregateKind} {packed : Bool} {p : Placement}
    {rs : List (Except Rejection Layout)} (hpos : ∀ l, .ok l ∈ rs → 0 < l.align) :
    p.placeEach kind packed rs = .error e ↔ First (placeObjects kind packed p.stop rs) e := by
  induction rs generalizing p with
  | nil =>
    simp only [placeEach, reduceCtorEq, false_iff]
    rintro ⟨i, h, -⟩
    simp [placeObjects] at h
  | cons r rest ih =>
    rw [first_succ_iff, placeEach]
    rcases r with e₀ | l
    · have hhead : ∀ e, placeObjects kind packed p.stop (.error e₀ :: rest) 0 e ↔ e₀ = e := by
        intro e
        simp [placeObjects]
      simp only [hhead]
      simp [bind, Except.bind]
    have hhead : ∀ e, placeObjects kind packed p.stop (.ok l :: rest) 0 e ↔
        Exact.Overflows kind packed p.stop l ∧ e = .sizeOverflow := by
      intro e
      simp [placeObjects, Exact.extent]
    rw [placeObjects_succ]
    simp only [hhead, bind, Except.bind]
    rw [place_eq kind packed p (hpos l (List.mem_cons_self ..))]
    by_cases hover : Exact.Overflows kind packed p.stop l
    · simp [hover, eq_comm]
    · rw [if_neg hover]
      simp only [hover, false_and, false_or, not_false_eq_true, implies_true, true_and]
      exact ih fun m hm => hpos m (List.mem_cons_of_mem _ hm)

/-- **Placed members are refused** for an alignment below theirs, and else for the
size. -/
theorem Aggregate.close_eq_error_iff {a : Aggregate} {ls : List Layout} :
    (Placement.extend a.kind a.isPacked {} ls).close a.alignment = .error e ↔
      FirstOf [fun e => ∃ x, a.alignment = .explicit x ∧ a.isPacked = false ∧
          x.bytes < Exact.natural false ls ∧
          e = .alignmentTooSmall x.bytes (Exact.natural false ls),
        fun e => addressLimit ≤ Exact.extent a.kind a.isPacked 0 ls + (a.exactAlign ls - 1) ∧
          e = .sizeOverflow] e := by
  simp only [firstOf_cons, firstOf_nil, and_false, or_false]
  rw [exactAlign]
  rcases halign : a.alignment with - | x
  · rw [Placement.close_natural _ (Exact.natural_pos _ _), Placement.closeAt_eq_error_iff]
    simp only [reduceCtorEq, false_and, exists_false, false_or, not_false_eq_true, implies_true,
      true_and]
    rfl
  · have hnatural : (Placement.extend a.kind a.isPacked {} ls).natural =
        Exact.natural a.isPacked ls := rfl
    rw [Placement.close_explicit, hnatural]
    by_cases hlow : x.bytes < Exact.natural a.isPacked ls
    · -- no alignment is below that of a packed aggregate
      have hpacked : a.isPacked = false := by
        cases hp : a.isPacked
        · rfl
        · have hone : x.bytes < 1 := by rwa [hp] at hlow
          have := x.bytes_pos
          omega
      rw [hpacked] at hlow ⊢
      simp [hlow, eq_comm]
    · have hnone : ∀ e', ¬ ∃ y, Alignment.explicit x = .explicit y ∧ a.isPacked = false ∧
          y.bytes < Exact.natural false ls ∧
          e' = Rejection.alignmentTooSmall y.bytes (Exact.natural false ls) := by
        rintro e' ⟨y, hy, hpacked, hlt, -⟩
        obtain rfl := Alignment.explicit.inj hy
        exact hlow (hpacked ▸ hlt)
      rw [if_neg hlow, Placement.closeAt_eq_error_iff]
      simp only [hnone, false_or, not_false_eq_true, implies_true, true_and]
      rfl

/-- **An aggregate is not laid out for the first of the objections**, when no part
has alignment zero. -/
theorem Aggregate.layoutIn_eq_error_iff {f : Handle → Except Rejection Layout} {a : Aggregate}
    (hpos : ∀ m ∈ a.members, ∀ l, f m.type = .ok l → 0 < l.align) :
    a.layoutIn f = .error e ↔ FirstOf (a.layoutObjections f) e := by
  have hall := align_pos_of_mem_map hpos
  have hplaces : ∀ e, First (placeObjects a.kind a.isPacked 0 (a.members.map fun m => f m.type)) e ↔
      Placement.placeEach a.kind a.isPacked {} (a.members.map fun m => f m.type) = .error e :=
    fun e => (Placement.placeEach_eq_error_iff (p := {}) hall).symm
  have hsame : ∀ ls ls' : List Layout,
      (ls.map .ok : List (Except Rejection Layout)) = ls'.map .ok ↔ ls = ls' :=
    fun _ _ => List.map_inj_right fun _ _ => Except.ok.inj
  rw [layoutObjections, firstOf_cons, layoutIn_eq]
  simp only [hplaces]
  rcases hp : Placement.placeEach a.kind a.isPacked {} (a.members.map fun m => f m.type) with e₀ | q
  · rw [hp]
    simp [Except.bind]
  obtain ⟨ls, hls, rfl⟩ := Placement.placeEach_eq_ok hall hp
  rw [hp]
  simp only [reduceCtorEq, false_or, not_false_eq_true, implies_true, true_and]
  refine close_eq_error_iff.trans ?_
  rw [hls]
  simp [hsame]

end DeviceTypes
