import DeviceTypes.Proofs.Layout.Exact
import Mathlib.Data.List.Forall2
/-!
# Powers of two and the limit of addresses

Checked rounding may go out of range where the rounded number would not.
With powers of two it never does, because they divide the limit. So where
pointer widths are powers of two, an array or an aggregate is refused for
its size exactly where its exact size is out of range (`Whole.row?_eq`,
`Aggregate.layoutIn_eq_bounded`), and no check on the way refuses earlier.

That rests on what holds of the parts: alignments divide sizes, and both
are in range (`Layout.Whole`). It passes from parts to wholes, so it holds
of every layout (`Table.Ordered.whole_layoutAnew`).
-/

namespace DeviceTypes

namespace Layout

/-- `length` elements of layout `l` in a row, over unbounded numbers. -/
def row (l : Layout) (length : Nat) : Layout := ⟨roundUp l.size l.align * length, l.align, []⟩

/-- The layout, if its size is in range. -/
def bounded (l : Layout) : Except Rejection Layout :=
  if l.size < addressLimit then .ok l else .error .sizeOverflow

theorem bounded_eq_ok {l E : Layout} (h : E.bounded = .ok l) :
    E.size < addressLimit ∧ E = l := by
  rw [bounded] at h
  split at h
  · exact ⟨‹_›, Except.ok.inj h⟩
  · cases h

/-- With powers of two, the sum on the way is out of range only where the rounded
number is. -/
theorem addressLimit_le_roundUp_iff (value : Nat) {align : Nat} (ha : align.isPowerOfTwo)
    (hlt : align < addressLimit) :
    addressLimit ≤ roundUp value align ↔ addressLimit ≤ value + (align - 1) := by
  have hchecked := roundUp?_eq_ite value (Nat.pos_of_isPowerOfTwo ha)
  rw [← inRange?_eq_none_iff, ← roundUp?_eq value ha hlt, hchecked, ite_eq_left_iff]
  simp

end Layout

namespace Placement

/-- With a power of two, closing is refused exactly where the size is out of range. -/
theorem closeAt_eq_bounded (p : Placement) {align : Nat} (ha : align.isPowerOfTwo)
    (hlt : align < addressLimit) :
    p.closeAt align = Layout.bounded ⟨Layout.roundUp p.stop align, align, p.offsets⟩ := by
  have hround := Layout.addressLimit_le_roundUp_iff p.stop ha hlt
  rw [closeAt, Layout.bounded]
  by_cases h : addressLimit ≤ p.stop + (align - 1)
  · rw [if_pos h, if_neg (Nat.not_lt.2 (hround.2 h))]
  · rw [if_neg h, if_pos (Nat.lt_of_not_le fun hle => h (hround.1 hle))]

end Placement

/-- The alignment is a power of two that divides the size, and both are in range. -/
structure Layout.Whole (l : Layout) : Prop where
  regular : l.Regular
  align_lt : l.align < addressLimit
  align_dvd : l.align ∣ l.size
  size_lt : l.size < addressLimit

namespace Layout.Whole

variable {l : Layout}

/-- **The stride is the size**, and always there is one. -/
theorem stride?_eq (hl : l.Whole) : l.stride? = some l.size := by
  rw [stride?, roundUp?_eq l.size hl.regular hl.align_lt, roundUp_of_dvd hl.align_dvd]
  exact inRange?_eq_some_iff.2 ⟨rfl, hl.size_lt⟩

theorem scalar {n : Nat} (hn : n = 0 ∨ n.isPowerOfTwo) (hlt : n < addressLimit) :
    (Layout.scalar n).Whole where
  regular := regular_scalar hn
  align_lt := Nat.max_lt.2 ⟨hlt, by decide⟩
  align_dvd := by
    rcases hn with rfl | hn
    · exact Nat.dvd_zero _
    · have hmax : max n 1 = n := Nat.max_eq_left (Nat.pos_of_isPowerOfTwo hn)
      exact ⟨1, by rw [Layout.scalar, hmax, Nat.mul_one]⟩
  size_lt := hlt

/-- **A row is refused exactly where its size is out of range.** -/
theorem row?_eq (hl : l.Whole) (length : Nat) :
    orOverflow (l.row? length) = (l.row length).bounded := by
  rw [row?, hl.stride?_eq, bounded, row, roundUp_of_dvd hl.align_dvd]
  by_cases hlt : l.size * length < addressLimit
  · simp [inRange?, hlt, orOverflow]
  · simp [inRange?, hlt, orOverflow]

theorem row (hl : l.Whole) {length : Nat} (hlt : (l.row length).size < addressLimit) :
    (l.row length).Whole where
  regular := hl.regular
  align_lt := hl.align_lt
  align_dvd := Nat.dvd_mul_right_of_dvd (dvd_roundUp l.size l.align) length
  size_lt := hlt

end Layout.Whole

namespace Exact

variable {kind : AggregateKind} {packed : Bool} {stop : Nat} {l : Layout} {ls : List Layout}

/-- **With powers of two, a member is refused exactly where it ends out of range.** -/
theorem overflows_iff (hl : l.Whole) (hstop : stop < addressLimit) :
    Overflows kind packed stop l ↔ addressLimit ≤ past kind packed stop l := by
  cases kind with
  | union =>
    have := hl.size_lt
    simp only [Overflows, past, start, reduceCtorEq, false_and, false_iff]
    omega
  | struct =>
    rw [past_struct hl.regular.align_pos]
    simp only [Overflows, true_and, or_iff_right_iff_imp]
    rintro ⟨hpacked, hround⟩
    rw [← Layout.addressLimit_le_roundUp_iff stop hl.regular hl.align_lt] at hround
    rw [start, hpacked]
    exact Nat.le_add_right_of_le hround

theorem natural_spec (hls : ∀ l ∈ ls, l.Whole) :
    (natural packed ls).isPowerOfTwo ∧ natural packed ls < addressLimit := by
  have hfold : ∀ n : Nat, n.isPowerOfTwo → n < addressLimit →
      ((ls.map Layout.align).foldl max n).isPowerOfTwo ∧
        (ls.map Layout.align).foldl max n < addressLimit := by
    induction ls with
    | nil => exact fun n hn hlt => ⟨hn, hlt⟩
    | cons l ls ih =>
      intro n hn hlt
      rw [List.forall_mem_cons] at hls
      refine ih hls.2 (max n l.align) ?_ (Nat.max_lt.2 ⟨hlt, hls.1.align_lt⟩)
      rcases Nat.le_total n l.align with h | h
      · rw [Nat.max_eq_right h]
        exact hls.1.regular
      · rw [Nat.max_eq_left h]
        exact hn
  rw [natural]
  split
  · exact ⟨⟨0, rfl⟩, by decide⟩
  · exact hfold 1 ⟨0, rfl⟩ (by decide)

end Exact

namespace Placement

open Exact

variable {kind : AggregateKind} {packed : Bool} {p : Placement} {ls : List Layout}

/-- **Members are refused exactly where they end out of range.** -/
theorem placeEach_eq_ite (hls : ∀ l ∈ ls, l.Whole) (hp : p.stop < addressLimit) :
    p.placeEach kind packed (ls.map .ok) =
      if extent kind packed p.stop ls < addressLimit then .ok (p.extend kind packed ls)
      else .error .sizeOverflow := by
  induction ls generalizing p with
  | nil => rw [extend_nil, extent, if_pos hp]; rfl
  | cons l ls ih =>
    rw [List.forall_mem_cons] at hls
    rw [List.map_cons, placeEach]
    simp only [bind, Except.bind]
    rw [place_eq kind packed p hls.1.regular.align_pos]
    simp only [overflows_iff hls.1 hp]
    by_cases hover : addressLimit ≤ past kind packed p.stop l
    · -- what comes behind cannot end earlier
      have hle := le_extent kind packed (past kind packed p.stop l) ls
      rw [if_pos hover, extent, if_neg (by omega)]
    · rw [if_neg hover, extend_cons, extent]
      exact ih hls.2 (Nat.lt_of_not_le hover)

end Placement

/-- `E` is the layout over unbounded numbers of an array, or of an aggregate whose
alignment is not below that of its members, given how its parts are laid out. -/
inductive Compound.HasExact (laid : Handle → Layout → Prop) : Compound → Layout → Prop
  | array {element : Handle} {l : Layout} (length : UInt64) :
      laid element l → HasExact laid (.array element length) (l.row length.toNat)
  | aggregate {a : Aggregate} {ls : List Layout} :
      List.Forall₂ (fun m l => laid m.type l) a.members ls → a.AlignsMembers ls →
      HasExact laid (.aggregate a) (a.exact ls)

namespace Aggregate

variable {a : Aggregate} {ls : List Layout} {f : Handle → Except Rejection Layout}

theorem exactAlign_spec (hls : ∀ l ∈ ls, l.Whole) :
    (a.exactAlign ls).isPowerOfTwo ∧ a.exactAlign ls < addressLimit := by
  rw [exactAlign]
  split
  · exact Exact.natural_spec hls
  · rename_i x _
    have hle : x.bytes ≤ 2 ^ 31 := by
      rw [Align.bytes, Nat.one_shiftLeft]
      exact Nat.pow_le_pow_right (by decide) (Nat.le_of_lt_succ x.exponent.isLt)
    exact ⟨x.isPowerOfTwo_bytes, Nat.lt_of_le_of_lt hle (by decide)⟩

/-- Placed members are closed with the exact alignment. -/
theorem close_extend (hls : ∀ l ∈ ls, l.Whole) (ha : a.AlignsMembers ls) :
    (Placement.extend a.kind a.isPacked {} ls).close a.alignment = (a.exact ls).bounded := by
  obtain ⟨hpow, hlt⟩ := exactAlign_spec (a := a) hls
  have hat : (Placement.extend a.kind a.isPacked {} ls).close a.alignment =
      (Placement.extend a.kind a.isPacked {} ls).closeAt (a.exactAlign ls) := by
    rw [exactAlign] at hpow ⊢
    rcases halign : a.alignment with - | x
    · rw [halign] at hpow
      exact Placement.close_natural _ (Nat.pos_of_isPowerOfTwo hpow)
    · have hfits : ¬ x.bytes < (Placement.extend a.kind a.isPacked {} ls).natural :=
        Nat.not_lt.2 (ha x halign)
      rw [Placement.close_explicit, if_neg hfits]
  rw [hat, Placement.closeAt_eq_bounded _ hpow hlt]
  rfl

/-- **An aggregate is refused exactly where its size is out of range**, when its
parts are whole and its alignment is not below theirs; else it has the exact
layout. -/
theorem layoutIn_eq_bounded (hls : ∀ l ∈ ls, l.Whole)
    (hf : (a.members.map fun m => f m.type) = ls.map .ok) (ha : a.AlignsMembers ls) :
    a.layoutIn f = (a.exact ls).bounded := by
  obtain ⟨hpow, hlt⟩ := exactAlign_spec (a := a) hls
  have hle := Layout.le_roundUp (Exact.extent a.kind a.isPacked 0 ls)
    (Nat.pos_of_isPowerOfTwo hpow)
  rw [layoutIn_eq, hf, Placement.placeEach_eq_ite hls (by decide)]
  by_cases hextent : Exact.extent a.kind a.isPacked 0 ls < addressLimit
  · rw [if_pos hextent]
    exact close_extend hls ha
  · rw [if_neg hextent, Layout.bounded, if_neg]
    · rfl
    · change ¬ Layout.roundUp _ _ < _
      omega

theorem exact_whole (hls : ∀ l ∈ ls, l.Whole) (hlt : (a.exact ls).size < addressLimit) :
    (a.exact ls).Whole where
  regular := (exactAlign_spec hls).1
  align_lt := (exactAlign_spec hls).2
  align_dvd := Layout.dvd_roundUp _ _
  size_lt := hlt

end Aggregate

/-! ## From parts to wholes -/

variable {target : Target} {f : Handle → Except Rejection Layout} {l : Layout}

theorem map_eq_map_ok {members : List Member} {ls : List Layout}
    (h : List.Forall₂ (fun m l => f m.type = .ok l) members ls) :
    (members.map fun m => f m.type) = ls.map .ok := by
  rw [← List.forall₂_eq_eq_eq, List.forall₂_map_left_iff, List.forall₂_map_right_iff]
  exact h

/-- What has an exact layout has all its parts laid out. -/
theorem Compound.HasExact.laid {c : Compound} {E : Layout}
    (h : c.HasExact (fun x l => f x = .ok l) E) : ∀ x ∈ c.parts, ∃ l, f x = .ok l := by
  intro x hx
  cases h with
  | @array element l length hl =>
    obtain rfl := List.mem_singleton.1 hx
    exact ⟨l, hl⟩
  | @aggregate a ls hls halign =>
    obtain ⟨m, hm, rfl⟩ := List.mem_map.1 hx
    have hmem : f m.type ∈ ls.map .ok := map_eq_map_ok hls ▸ List.mem_map_of_mem hm
    obtain ⟨l, -, hl⟩ := List.mem_map.1 hmem
    exact ⟨l, hl.symm⟩

/-- **A compound is refused exactly where its exact size is out of range**, when its
parts are whole; else it has the exact layout. -/
theorem Compound.layoutIn_eq_bounded {c : Compound} {E : Layout}
    (hwhole : ∀ x l, f x = .ok l → l.Whole) (h : c.HasExact (fun x l => f x = .ok l) E) :
    c.layoutIn target f = E.bounded := by
  cases h with
  | @array element l length hl =>
    rw [layoutIn_array, hl]
    exact (hwhole element l hl).row?_eq length.toNat
  | @aggregate a ls hls halign =>
    have hmap := map_eq_map_ok hls
    refine Aggregate.layoutIn_eq_bounded (fun l hl => ?_) hmap halign
    have hmem : .ok l ∈ (a.members.map fun m => f m.type) := hmap ▸ List.mem_map_of_mem hl
    obtain ⟨m, -, hf⟩ := List.mem_map.1 hmem
    exact hwhole m.type l hf

/-- **Whole parts make a whole.** -/
theorem Shape.whole_of_layoutIn (ht : target.Regular) {s : Shape}
    (h : s.layoutIn target f = .ok l)
    (hparts : ∀ x ∈ s.parts, ∀ l', f x = .ok l' → l'.Whole) : l.Whole := by
  rcases s with p | ⟨x, space⟩ | ⟨x, length⟩ | a
  · obtain rfl := Except.ok.inj h
    refine Layout.Whole.scalar p.bytes_eq ?_
    cases p <;> decide
  · obtain rfl := Except.ok.inj h
    exact Layout.Whole.scalar (ht space)
      (Nat.lt_trans (target.pointerWidth space).toNat_lt (by decide))
  · rw [Shape.layoutIn, Compound.layoutIn_array] at h
    rcases hx : f x with e | le
    · rw [hx] at h
      cases h
    · have hle := hparts x (List.mem_singleton.2 rfl) le hx
      rw [hx] at h
      change orOverflow (le.row? length.toNat) = .ok l at h
      rw [hle.row?_eq] at h
      obtain ⟨hlt, rfl⟩ := Layout.bounded_eq_ok h
      exact hle.row hlt
  · change a.layoutIn f = .ok l at h
    have hmembers : ∀ m ∈ a.members, ∀ l', f m.type = .ok l' → l'.Whole :=
      fun m hm => hparts m.type (List.mem_map_of_mem hm)
    obtain ⟨ls, hls, halign, -⟩ :=
      Aggregate.exact_of_layoutIn h fun m hm l' hl' => (hmembers m hm l' hl').regular.align_pos
    have hwhole : ∀ l' ∈ ls, l'.Whole := by
      intro l' hl'
      have hmem : .ok l' ∈ (a.members.map fun m => f m.type) := hls ▸ List.mem_map_of_mem hl'
      obtain ⟨m, hm, hf⟩ := List.mem_map.1 hmem
      exact hmembers m hm l' hf
    rw [Aggregate.layoutIn_eq_bounded hwhole hls halign] at h
    obtain ⟨hlt, rfl⟩ := Layout.bounded_eq_ok h
    exact Aggregate.exact_whole hwhole hlt

/-- **Every layout is whole**, when pointer widths are powers of two. -/
theorem Table.Ordered.whole_layoutAnew {t : Table} (ho : t.Ordered) (ht : target.Regular)
    {h : Handle} (hl : t.layoutAnew target h = .ok l) : l.Whole := by
  induction h using ho.induction generalizing l with
  | step h ih =>
    obtain ⟨s, hs, hin⟩ := ho.get?_of_layoutAnew hl
    exact Shape.whole_of_layoutIn ht hin fun x hx l' hl' => ih s hs x hx hl'

end DeviceTypes
