import DeviceTypes.Proofs.Layout.Placed
/-!
# Layouts over unbounded numbers

The rules by which members are placed, with numbers of any size and
nothing checked: where each member starts (`Exact.offsets`), the first byte
past all of them (`Exact.extent`), and the layout of the whole
(`Aggregate.exact`).

The checks on the way refuse a member whose start is rounded up through
numbers out of range, or whose end is out of range (`Exact.Overflows`); else
it goes where the rules say (`Placement.place_eq`). So whatever is laid out
has the exact layout (`Aggregate.exact_of_layoutIn`).
-/

namespace DeviceTypes

/-! ## The rules -/

namespace Exact

/-- Where a member of layout `l` starts, `stop` being the first byte past those
before it. -/
def start (kind : AggregateKind) (packed : Bool) (stop : Nat) (l : Layout) : Nat :=
  match kind with
  | .union => 0
  | .struct => if packed then stop else Layout.roundUp stop l.align

/-- The first byte past the member and those before it. -/
def past (kind : AggregateKind) (packed : Bool) (stop : Nat) (l : Layout) : Nat :=
  max stop (start kind packed stop l + l.size)

/-- Where members of these layouts start. -/
def offsets (kind : AggregateKind) (packed : Bool) : Nat → List Layout → List Nat
  | _, [] => []
  | stop, l :: ls => start kind packed stop l :: offsets kind packed (past kind packed stop l) ls

/-- The first byte past members of these layouts. -/
def extent (kind : AggregateKind) (packed : Bool) : Nat → List Layout → Nat
  | stop, [] => stop
  | stop, l :: ls => extent kind packed (past kind packed stop l) ls

/-- The largest alignment among the members, one when they are packed. -/
def natural (packed : Bool) (ls : List Layout) : Nat :=
  if packed then 1 else (ls.map Layout.align).foldl max 1

/-- Placing a member of layout `l` leaves the address range: rounding up on the
way to its start, or at its end. -/
def Overflows (kind : AggregateKind) (packed : Bool) (stop : Nat) (l : Layout) : Prop :=
  kind = .struct ∧ ((packed = false ∧ addressLimit ≤ stop + (l.align - 1)) ∨
    addressLimit ≤ start kind packed stop l + l.size)

instance (kind : AggregateKind) (packed : Bool) (stop : Nat) (l : Layout) :
    Decidable (Overflows kind packed stop l) :=
  inferInstanceAs (Decidable (kind = .struct ∧
    ((packed = false ∧ addressLimit ≤ stop + (l.align - 1)) ∨
      addressLimit ≤ start kind packed stop l + l.size)))

end Exact

namespace Aggregate

/-- The alignment of an aggregate whose members have these layouts. -/
def exactAlign (a : Aggregate) (ls : List Layout) : Nat :=
  match a.alignment with
  | .natural => Exact.natural a.isPacked ls
  | .explicit x => x.bytes

/-- The layout of an aggregate whose members have these layouts, over unbounded
numbers. -/
def exact (a : Aggregate) (ls : List Layout) : Layout where
  size := Layout.roundUp (Exact.extent a.kind a.isPacked 0 ls) (a.exactAlign ls)
  align := a.exactAlign ls
  offsets := Exact.offsets a.kind a.isPacked 0 ls

/-- The explicit alignment, if there is one, is not below the natural one. -/
def AlignsMembers (a : Aggregate) (ls : List Layout) : Prop :=
  ∀ x, a.alignment = .explicit x → Exact.natural a.isPacked ls ≤ x.bytes

end Aggregate

/-! ## What the checks refuse -/

theorem Layout.roundUp?_eq_ite (value : Nat) {align : Nat} (ha : 0 < align) :
    roundUp? value align =
      if addressLimit ≤ value + (align - 1) then none else some (roundUp value align) := by
  rw [roundUp?, Nat.max_eq_left ha]
  split
  · rw [inRange?_eq_none_iff.2 ‹_›]
    rfl
  · rw [inRange?_eq_some_iff.2 ⟨rfl, Nat.lt_of_not_le ‹_›⟩]
    rfl

namespace Exact

variable {kind : AggregateKind} {packed : Bool} {stop : Nat} {l : Layout} {ls : List Layout}

theorem le_past (kind : AggregateKind) (packed : Bool) (stop : Nat) (l : Layout) :
    stop ≤ past kind packed stop l := Nat.le_max_left ..

theorem le_extent (kind : AggregateKind) (packed : Bool) (stop : Nat) (ls : List Layout) :
    stop ≤ extent kind packed stop ls := by
  induction ls generalizing stop with
  | nil => exact Nat.le_refl _
  | cons l ls ih => exact Nat.le_trans (le_past kind packed stop l) (ih _)

theorem natural_pos (packed : Bool) (ls : List Layout) : 0 < natural packed ls := by
  have hfold : ∀ n : Nat, n ≤ (ls.map Layout.align).foldl max n := by
    induction ls with
    | nil => exact fun n => Nat.le_refl n
    | cons l ls ih => exact fun n => Nat.le_trans (Nat.le_max_left n l.align) (ih _)
  rw [natural]
  split
  · exact Nat.one_pos
  · exact hfold 1

/-- A member of a struct ends past those before it. -/
theorem past_struct (hl : 0 < l.align) :
    past .struct packed stop l = start .struct packed stop l + l.size := by
  have hstart : stop ≤ start .struct packed stop l := by
    rw [start]
    split
    · exact Nat.le_refl _
    · exact Layout.le_roundUp stop hl
  rw [past]
  omega

end Exact

namespace Placement

open Exact

variable {kind : AggregateKind} {packed : Bool} {p : Placement} {l : Layout} {ls : List Layout}

/-- **One member**: refused where its place leaves the address range, else put where
the rules say. -/
theorem place_eq (kind : AggregateKind) (packed : Bool) (p : Placement) (hl : 0 < l.align) :
    p.place kind packed l =
      if Overflows kind packed p.stop l then .error .sizeOverflow
      else .ok ⟨p.offsets ++ [start kind packed p.stop l], past kind packed p.stop l,
        p.raise packed l⟩ := by
  cases kind with
  | union =>
    have hnever : ¬ Overflows .union packed p.stop l := by
      rintro ⟨h, -⟩
      cases h
    rw [place, if_neg hnever]
    simp only [past, start, Nat.zero_add]
  | struct =>
    have hnext : p.next? packed l =
        if packed = false ∧ addressLimit ≤ p.stop + (l.align - 1) then none
        else some (start .struct packed p.stop l) := by
      cases packed with
      | true => simp [next?, start]
      | false => simp [next?, start, Layout.roundUp?_eq_ite _ hl]
    rw [place, hnext, past_struct hl]
    simp only [Overflows, true_and]
    by_cases hround : packed = false ∧ addressLimit ≤ p.stop + (l.align - 1)
    · rw [if_pos hround, if_pos (Or.inl hround)]
      rfl
    rw [if_neg hround]
    by_cases hend : addressLimit ≤ start .struct packed p.stop l + l.size
    · rw [if_pos (Or.inr hend)]
      simp only [orOverflow, bind, Except.bind, Layout.inRange?_eq_none_iff.2 hend]
    · rw [if_neg (not_or.2 ⟨hround, hend⟩)]
      simp only [orOverflow, bind, Except.bind, Layout.inRange?, if_pos (Nat.lt_of_not_le hend)]
      rfl

/-- The layout of an aggregate of this alignment, once its members are placed. -/
def closeAt (p : Placement) (align : Nat) : Except Rejection Layout :=
  if addressLimit ≤ p.stop + (align - 1) then .error .sizeOverflow
  else .ok ⟨Layout.roundUp p.stop align, align, p.offsets⟩

theorem closeAt_eq (p : Placement) {align : Nat} (ha : 0 < align) :
    (do let size ← orOverflow (Layout.roundUp? p.stop align)
        return (⟨size, align, p.offsets⟩ : Layout)) = p.closeAt align := by
  rw [closeAt, Layout.roundUp?_eq_ite _ ha]
  split <;> rfl

theorem closeAt_eq_ok {p : Placement} {align : Nat} {l : Layout} (h : p.closeAt align = .ok l) :
    ⟨Layout.roundUp p.stop align, align, p.offsets⟩ = l := by
  rw [closeAt] at h
  split at h
  · cases h
  · exact Except.ok.inj h

theorem closeAt_eq_error_iff {p : Placement} {align : Nat} {e : Rejection} :
    p.closeAt align = .error e ↔ addressLimit ≤ p.stop + (align - 1) ∧ e = .sizeOverflow := by
  rw [closeAt]
  by_cases h : addressLimit ≤ p.stop + (align - 1)
  · simp [h, eq_comm]
  · simp [h]

/-- **Closing with the natural alignment.** -/
theorem close_natural (p : Placement) (hp : 0 < p.natural) :
    p.close .natural = p.closeAt p.natural := p.closeAt_eq hp

/-- **Closing with an explicit alignment**, which may not be below the natural one. -/
theorem close_explicit (p : Placement) (x : Align) :
    p.close (.explicit x) =
      if x.bytes < p.natural then .error (.alignmentTooSmall x.bytes p.natural)
      else p.closeAt x.bytes := by
  rw [close, align]
  split
  · rfl
  · exact p.closeAt_eq x.bytes_pos

/-- The alignment that members of these layouts leave an aggregate with. -/
def raiseAll (p : Placement) (packed : Bool) (ls : List Layout) : Nat :=
  if packed then p.natural else (ls.map Layout.align).foldl max p.natural

theorem raiseAll_nil (p : Placement) (packed : Bool) : p.raiseAll packed [] = p.natural := by
  rw [raiseAll]
  split <;> rfl

/-- The placement of members of these layouts behind those of `p`. -/
def extend (kind : AggregateKind) (packed : Bool) (p : Placement) (ls : List Layout) :
    Placement where
  offsets := p.offsets ++ Exact.offsets kind packed p.stop ls
  stop := extent kind packed p.stop ls
  natural := p.raiseAll packed ls

theorem extend_nil (kind : AggregateKind) (packed : Bool) (p : Placement) :
    p.extend kind packed [] = p := by
  rw [extend, Exact.offsets, List.append_nil, extent, raiseAll_nil]

theorem extend_cons (kind : AggregateKind) (packed : Bool) (p : Placement) (l : Layout)
    (ls : List Layout) :
    p.extend kind packed (l :: ls) =
      extend kind packed ⟨p.offsets ++ [start kind packed p.stop l], past kind packed p.stop l,
        p.raise packed l⟩ ls := by
  have hraise : p.raiseAll packed (l :: ls) =
      raiseAll ⟨p.offsets ++ [start kind packed p.stop l], past kind packed p.stop l,
        p.raise packed l⟩ packed ls := by
    cases packed <;> rfl
  rw [extend, extend, hraise, Exact.offsets, extent, List.append_assoc]
  rfl

/-- **Members that are all placed** have layouts, and go where the rules say. -/
theorem placeEach_eq_ok {q : Placement} {rs : List (Except Rejection Layout)}
    (hpos : ∀ l, .ok l ∈ rs → 0 < l.align) (h : p.placeEach kind packed rs = .ok q) :
    ∃ ls : List Layout, rs = ls.map .ok ∧ q = p.extend kind packed ls := by
  induction rs generalizing p with
  | nil => exact ⟨[], rfl, by rw [extend_nil]; exact (Except.ok.inj h).symm⟩
  | cons r rest ih =>
    rw [placeEach] at h
    rcases r with e | l
    · cases h
    simp only [bind, Except.bind] at h
    rw [place_eq kind packed p (hpos l (List.mem_cons_self ..))] at h
    split at h
    · cases h
    · rename_i p' hp'
      split at hp'
      · cases hp'
      · obtain ⟨ls, rfl, rfl⟩ := ih (fun m hm => hpos m (List.mem_cons_of_mem _ hm)) h
        obtain rfl := Except.ok.inj hp'
        exact ⟨l :: ls, rfl, (extend_cons kind packed p l ls).symm⟩

end Placement

variable {f : Handle → Except Rejection Layout} {l : Layout}

theorem Aggregate.align_pos_of_mem_map {a : Aggregate}
    (hpos : ∀ m ∈ a.members, ∀ l, f m.type = .ok l → 0 < l.align) :
    ∀ l, .ok l ∈ (a.members.map fun m => f m.type) → 0 < l.align := by
  intro l hl
  obtain ⟨m, hm, hf⟩ := List.mem_map.1 hl
  exact hpos m hm l hf

/-- **An aggregate that is laid out** has parts with layouts, its alignment is not
below theirs, and its layout is the exact one. -/
theorem Aggregate.exact_of_layoutIn {a : Aggregate} (h : a.layoutIn f = .ok l)
    (hpos : ∀ m ∈ a.members, ∀ l', f m.type = .ok l' → 0 < l'.align) :
    ∃ ls, (a.members.map fun m => f m.type) = ls.map .ok ∧ a.AlignsMembers ls ∧ l = a.exact ls := by
  rw [layoutIn_eq] at h
  rcases hp : Placement.placeEach a.kind a.isPacked {} (a.members.map fun m => f m.type) with e | q
  · rw [hp] at h
    cases h
  obtain ⟨ls, hls, rfl⟩ := Placement.placeEach_eq_ok (align_pos_of_mem_map hpos) hp
  rw [hp] at h
  change (Placement.extend a.kind a.isPacked {} ls).close a.alignment = .ok l at h
  refine ⟨ls, hls, ?_⟩
  rw [AlignsMembers, exact, exactAlign]
  rcases halign : a.alignment with - | x
  · rw [halign, Placement.close_natural _ (Exact.natural_pos _ _)] at h
    exact ⟨fun x hx => (nomatch hx), (Placement.closeAt_eq_ok h).symm⟩
  · rw [halign, Placement.close_explicit] at h
    split at h
    · cases h
    · rename_i hfits
      refine ⟨fun y hy => ?_, (Placement.closeAt_eq_ok h).symm⟩
      obtain rfl := Alignment.explicit.inj hy
      exact Nat.le_of_not_lt hfits

theorem Aggregate.exactAlign_pos (a : Aggregate) (ls : List Layout) : 0 < a.exactAlign ls := by
  rw [exactAlign]
  split
  · exact Exact.natural_pos a.isPacked ls
  · exact Align.bytes_pos _

/-- **No layout has alignment zero**, whatever the pointer widths. -/
theorem Table.Ordered.align_pos_layoutAnew {t : Table} (ho : t.Ordered) {target : Target}
    {h : Handle} (hl : t.layoutAnew target h = .ok l) : 0 < l.align := by
  induction h using ho.induction generalizing l with
  | step h ih =>
    obtain ⟨s, hs, hin⟩ := ho.get?_of_layoutAnew hl
    have hparts := ih s hs
    rcases s with p | ⟨x, space⟩ | ⟨x, length⟩ | a
    · obtain rfl := Except.ok.inj hin
      exact Nat.lt_of_lt_of_le Nat.one_pos (Nat.le_max_right ..)
    · obtain rfl := Except.ok.inj hin
      exact Nat.lt_of_lt_of_le Nat.one_pos (Nat.le_max_right ..)
    · change (Compound.array x length).layoutIn target _ = _ at hin
      obtain ⟨le, -, hle, -, -, halign⟩ := Compound.layoutIn_array_eq_ok hin
      rw [halign]
      exact hparts x (List.mem_singleton.2 rfl) hle
    · obtain ⟨ls, -, -, rfl⟩ := Aggregate.exact_of_layoutIn hin fun m hm l' =>
        hparts m.type (List.mem_map_of_mem hm)
      exact a.exactAlign_pos ls

end DeviceTypes
