import DeviceTypes.Proofs.Layout.Least
import Mathlib.Data.List.Perm.Basic
/-!
# Layouts compared

An aggregate is laid out exactly when its members are, each of them ends in
the address range, its alignment is not below theirs, and rounding up to it
stays in range. With the layouts of the members given this is
`Aggregate.Fits`, and what is then laid out is the exact layout
(`Aggregate.layoutIn_eq_ok_iff`). So aggregates of the same members, or of
the members in another order, are compared by `Fits` and by the exact rules.

Two facts carry the comparisons. If one way to place members never starts a
member behind the place where another starts it, it never gets farther
(`Exact.extent_le_extent`). And where nothing is rounded on the way, how far
the members reach does not depend on their order (`Exact.extent_perm`).
-/

namespace DeviceTypes

namespace Exact

variable {kind kind' : AggregateKind} {packed packed' : Bool} {stop stop' : Nat} {l : Layout}
  {ls ls' : List Layout}

/-- Members of these layouts are placed without leaving the address range. -/
def Fits (kind : AggregateKind) (packed : Bool) : Nat → List Layout → Prop
  | _, [] => True
  | stop, l :: ls => ¬ Overflows kind packed stop l ∧ Fits kind packed (past kind packed stop l) ls

/-! ## Members that fit -/

/-- **A union never leaves the range.** -/
theorem fits_union : Fits .union packed stop ls := by
  induction ls generalizing stop with
  | nil => exact trivial
  | cons l ls ih => exact ⟨fun h => (nomatch h.1), ih⟩

/-- **A struct that fits ends in range.** -/
theorem Fits.extent_lt (h : Fits .struct packed stop ls) (hpos : ∀ l ∈ ls, 0 < l.align)
    (hstop : stop < addressLimit) : extent .struct packed stop ls < addressLimit := by
  induction ls generalizing stop with
  | nil => exact hstop
  | cons l ls ih =>
    rw [List.forall_mem_cons] at hpos
    refine ih h.2 hpos.2 ?_
    rw [past_struct hpos.1]
    exact Nat.lt_of_not_le fun hend => h.1 ⟨rfl, Or.inr hend⟩

/-- **A packed struct fits if it ends in range.** -/
theorem fits_packed (hpos : ∀ l ∈ ls, 0 < l.align)
    (hend : extent .struct true stop ls < addressLimit) : Fits .struct true stop ls := by
  induction ls generalizing stop with
  | nil => exact trivial
  | cons l ls ih =>
    rw [List.forall_mem_cons] at hpos
    refine ⟨?_, ih hpos.2 hend⟩
    rintro ⟨-, ⟨hfalse, -⟩ | hlimit⟩
    · cases hfalse
    · rw [← past_struct hpos.1] at hlimit
      exact Nat.not_le_of_lt hend (Nat.le_trans hlimit (le_extent ..))

/-! ## One way to place members against another -/

theorem past_le_past (hstart : start kind packed stop l ≤ start kind' packed' stop' l)
    (hstop : stop ≤ stop') : past kind packed stop l ≤ past kind' packed' stop' l := by
  rw [past, past]
  omega

/-- **What never starts a member later never gets farther.** -/
theorem extent_le_extent
    (h : ∀ l ∈ ls, ∀ s s', s ≤ s' → start kind packed s l ≤ start kind' packed' s' l)
    (hstop : stop ≤ stop') : extent kind packed stop ls ≤ extent kind' packed' stop' ls := by
  induction ls generalizing stop stop' with
  | nil => exact hstop
  | cons l ls ih =>
    rw [List.forall_mem_cons] at h
    exact ih h.2 (past_le_past (h.1 stop stop' hstop) hstop)

/-- **And starts no member later**, from the first on. -/
theorem offsets_le_offsets
    (h : ∀ l ∈ ls, ∀ s s', s ≤ s' → start kind packed s l ≤ start kind' packed' s' l)
    (hstop : stop ≤ stop') :
    List.Forall₂ (· ≤ ·) (offsets kind packed stop ls) (offsets kind' packed' stop' ls) := by
  induction ls generalizing stop stop' with
  | nil => exact .nil
  | cons l ls ih =>
    rw [List.forall_mem_cons] at h
    have hstart := h.1 stop stop' hstop
    exact .cons hstart (ih h.2 (past_le_past hstart hstop))

/-- Packing a struct starts no member later. -/
theorem start_packed_le (hpos : ∀ l ∈ ls, 0 < l.align) :
    ∀ l ∈ ls, ∀ s s', s ≤ s' → start .struct true s l ≤ start .struct false s' l :=
  fun l hl _ s' hs => Nat.le_trans hs (Layout.le_roundUp s' (hpos l hl))

/-- Nor does putting all members on top of each other. -/
theorem start_union_le :
    ∀ l ∈ ls, ∀ s s', s ≤ s' → start .union packed s l ≤ start kind' packed' s' l :=
  fun _ _ _ _ _ => Nat.zero_le _

/-! ## Members in another order -/

/-- Where nothing is rounded on the way, two members may change places. -/
theorem past_right_comm (hfree : kind = .union ∨ packed = true) (stop : Nat) (l l' : Layout) :
    past kind packed (past kind packed stop l) l' =
      past kind packed (past kind packed stop l') l := by
  cases kind with
  | union =>
    simp only [past, start]
    omega
  | struct =>
    obtain rfl : packed = true := hfree.resolve_left (by simp)
    simp only [past, start, if_true]
    omega

theorem extent_eq_foldl : extent kind packed stop ls = ls.foldl (past kind packed) stop := by
  induction ls generalizing stop with
  | nil => rfl
  | cons l ls ih => exact ih

/-- **How far unaligned members reach does not depend on their order.** -/
theorem extent_perm (hfree : kind = .union ∨ packed = true) (hp : ls.Perm ls') :
    extent kind packed stop ls = extent kind packed stop ls' := by
  rw [extent_eq_foldl, extent_eq_foldl]
  exact hp.foldl_eq' (fun l _ l' _ s => past_right_comm hfree s l l') stop

/-- Nor does the alignment they leave the whole with. -/
theorem natural_perm (hp : ls.Perm ls') : natural packed ls = natural packed ls' := by
  rw [natural, natural, (hp.map Layout.align).foldl_eq]

/-- **Nor whether they fit.** -/
theorem Fits.perm (h : Fits kind packed 0 ls) (hfree : kind = .union ∨ packed = true)
    (hpos : ∀ l ∈ ls, 0 < l.align) (hp : ls.Perm ls') : Fits kind packed 0 ls' := by
  cases kind with
  | union => exact fits_union
  | struct =>
    obtain rfl : packed = true := hfree.resolve_left (by simp)
    have hend := h.extent_lt hpos (by decide)
    exact fits_packed (fun l hl => hpos l (hp.mem_iff.2 hl)) (extent_perm hfree hp ▸ hend)

end Exact

namespace Placement

open Exact

variable {kind : AggregateKind} {packed : Bool} {p q : Placement} {ls : List Layout}

/-- **Members with layouts are placed exactly if they fit.** -/
theorem placeEach_map_ok_iff (hpos : ∀ l ∈ ls, 0 < l.align) :
    p.placeEach kind packed (ls.map .ok) = .ok q ↔
      Fits kind packed p.stop ls ∧ p.extend kind packed ls = q := by
  induction ls generalizing p with
  | nil =>
    rw [extend_nil]
    exact ⟨fun h => ⟨trivial, Except.ok.inj h⟩, fun h => congrArg _ h.2⟩
  | cons l ls ih =>
    rw [List.forall_mem_cons] at hpos
    simp only [List.map_cons, placeEach, bind, Except.bind, Fits]
    rw [place_eq kind packed p hpos.1, extend_cons]
    by_cases hover : Overflows kind packed p.stop l
    · simp [hover]
    · simp only [hover, if_false, not_false_eq_true, true_and]
      exact ih hpos.2

theorem closeAt_eq_ok_iff {align : Nat} {l : Layout} :
    p.closeAt align = .ok l ↔
      p.stop + (align - 1) < addressLimit ∧ ⟨Layout.roundUp p.stop align, align, p.offsets⟩ = l := by
  rw [closeAt]
  split
  · simp [Nat.not_lt.2 ‹_›]
  · simp [Nat.lt_of_not_le ‹_›]

end Placement

namespace Aggregate

variable {a b : Aggregate} {f : Handle → Except Rejection Layout} {l : Layout}
  {ls ls' : List Layout}

/-- An aggregate whose members have these layouts passes all checks on the way to
its own. -/
structure Fits (a : Aggregate) (ls : List Layout) : Prop where
  /-- Its members are placed in range. -/
  placed : Exact.Fits a.kind a.isPacked 0 ls
  /-- Its alignment is not below theirs. -/
  aligns : a.AlignsMembers ls
  /-- Its size is rounded up in range. -/
  closed : Exact.extent a.kind a.isPacked 0 ls + (a.exactAlign ls - 1) < addressLimit

/-- **Placed members are closed** unless an alignment or the size forbids it. -/
theorem close_eq_ok_iff :
    (Placement.extend a.kind a.isPacked {} ls).close a.alignment = .ok l ↔ a.AlignsMembers ls ∧
      Exact.extent a.kind a.isPacked 0 ls + (a.exactAlign ls - 1) < addressLimit ∧
      a.exact ls = l := by
  have hnatural : (Placement.extend a.kind a.isPacked {} ls).natural =
      Exact.natural a.isPacked ls := rfl
  rw [AlignsMembers, exact, exactAlign]
  rcases a.alignment with - | x
  · rw [Placement.close_natural _ (Exact.natural_pos _ _), Placement.closeAt_eq_ok_iff, hnatural]
    exact ⟨fun h => ⟨by simp, h⟩, fun h => h.2⟩
  · rw [Placement.close_explicit, hnatural]
    by_cases hlow : x.bytes < Exact.natural a.isPacked ls
    · rw [if_pos hlow]
      exact ⟨by simp, fun h => absurd (h.1 x rfl) (Nat.not_le_of_lt hlow)⟩
    · rw [if_neg hlow, Placement.closeAt_eq_ok_iff]
      refine ⟨fun h => ⟨fun y hy => ?_, h⟩, fun h => h.2⟩
      exact Alignment.explicit.inj hy ▸ Nat.le_of_not_lt hlow

/-- **What it takes to be laid out**, and what the layout is. -/
theorem layoutIn_eq_ok_iff (hpos : ∀ m ∈ a.members, ∀ l, f m.type = .ok l → 0 < l.align) :
    a.layoutIn f = .ok l ↔ ∃ ls, List.Forall₂ (fun m lm => f m.type = .ok lm) a.members ls ∧
      a.Fits ls ∧ a.exact ls = l := by
  have hall := align_pos_of_mem_map hpos
  have hpos' : ∀ ls : List Layout, (a.members.map fun m => f m.type) = ls.map .ok →
      ∀ l ∈ ls, 0 < l.align :=
    fun ls hls l hl => hall l (hls ▸ List.mem_map_of_mem hl)
  rw [layoutIn_eq]
  constructor
  · intro h
    rcases hp : Placement.placeEach a.kind a.isPacked {} (a.members.map fun m => f m.type) with e | q
    · rw [hp] at h
      cases h
    obtain ⟨ls, hls, -⟩ := Placement.placeEach_eq_ok hall hp
    rw [hp] at h
    rw [hls, Placement.placeEach_map_ok_iff (hpos' ls hls)] at hp
    obtain ⟨hplaced, rfl⟩ := hp
    obtain ⟨haligns, hclosed, hl⟩ := close_eq_ok_iff.1 h
    exact ⟨ls, map_eq_map_iff_forall₂.1 hls, ⟨hplaced, haligns, hclosed⟩, hl⟩
  · rintro ⟨ls, hls, hfits, hl⟩
    have hmap := map_eq_map_iff_forall₂.2 hls
    rw [hmap, (Placement.placeEach_map_ok_iff (hpos' ls hmap)).2 ⟨hfits.placed, rfl⟩]
    exact close_eq_ok_iff.2 ⟨hfits.aligns, hfits.closed, hl⟩

/-! ## Aggregates of the same members -/

/-- **An aggregate that reaches no farther than another** and whose alignment divides
the other's fits where the other does, in no more bytes. -/
theorem Fits.of_le (ha : a.Fits ls) (hplaced : Exact.Fits b.kind b.isPacked 0 ls)
    (haligns : b.AlignsMembers ls)
    (hextent : Exact.extent b.kind b.isPacked 0 ls ≤ Exact.extent a.kind a.isPacked 0 ls)
    (halign : b.exactAlign ls ∣ a.exactAlign ls) :
    b.Fits ls ∧ (b.exact ls).size ≤ (a.exact ls).size := by
  have hle := Nat.le_of_dvd (a.exactAlign_pos ls) halign
  have hclosed := ha.closed
  refine ⟨⟨hplaced, haligns, by omega⟩, Layout.roundUp_le ?_ ?_⟩
  · exact Nat.le_trans hextent (Layout.le_roundUp _ (a.exactAlign_pos ls))
  · exact Nat.dvd_trans halign (Layout.dvd_roundUp ..)

theorem alignsMembers_of_natural (h : a.alignment = .natural) (ls : List Layout) :
    a.AlignsMembers ls := by
  intro x hx
  rw [h] at hx
  cases hx

theorem exactAlign_of_natural (h : a.alignment = .natural) (ls : List Layout) :
    a.exactAlign ls = Exact.natural a.isPacked ls := by
  rw [exactAlign, h]

/-- **Packing a struct** leaves out padding and nothing else. -/
theorem Fits.packed_le (ha : a.Fits ls) (hpos : ∀ l ∈ ls, 0 < l.align)
    (hkind : a.kind = .struct) (hloose : a.isPacked = false) (hkind' : b.kind = .struct)
    (hpacked : b.isPacked = true) (hnatural : b.alignment = .natural) :
    b.Fits ls ∧ (b.exact ls).size ≤ (a.exact ls).size ∧
      List.Forall₂ (· ≤ ·) (b.exact ls).offsets (a.exact ls).offsets := by
  have hsooner := Exact.start_packed_le hpos
  have hplaced := ha.placed
  rw [hkind, hloose] at hplaced
  have hextent := Exact.extent_le_extent hsooner (Nat.le_refl 0)
  have hend := hplaced.extent_lt hpos (by decide)
  have hone : b.exactAlign ls = 1 := by
    rw [exactAlign_of_natural hnatural, hpacked]
    rfl
  have hle : b.Fits ls ∧ (b.exact ls).size ≤ (a.exact ls).size := by
    refine ha.of_le ?_ (alignsMembers_of_natural hnatural ls) ?_ (hone ▸ Nat.one_dvd _)
    · rw [hkind', hpacked]
      exact Exact.fits_packed hpos (Nat.lt_of_le_of_lt hextent hend)
    · rw [hkind, hloose, hkind', hpacked]
      exact hextent
  refine ⟨hle.1, hle.2, ?_⟩
  rw [exact, exact, hkind, hloose, hkind', hpacked]
  exact Exact.offsets_le_offsets hsooner (Nat.le_refl 0)

/-- **Members on top of one another** need no more room than one behind another, and
no other alignment unless they are packed. -/
theorem Fits.union_le (ha : a.Fits ls) (hloose : a.isPacked = false)
    (hnatural : a.alignment = .natural) (hkind' : b.kind = .union)
    (hnatural' : b.alignment = .natural) :
    b.Fits ls ∧ (b.exact ls).size ≤ (a.exact ls).size ∧
      (b.isPacked = false → (b.exact ls).align = (a.exact ls).align) := by
  have halign : b.isPacked = false → b.exactAlign ls = a.exactAlign ls := by
    intro hloose'
    rw [exactAlign_of_natural hnatural, exactAlign_of_natural hnatural', hloose, hloose']
  have hdvd : b.exactAlign ls ∣ a.exactAlign ls := by
    cases hpacked : b.isPacked with
    | false => exact (halign hpacked).symm ▸ Nat.dvd_refl (a.exactAlign ls)
    | true =>
      rw [exactAlign_of_natural hnatural', hpacked]
      exact Nat.one_dvd _
  have hle : b.Fits ls ∧ (b.exact ls).size ≤ (a.exact ls).size := by
    refine ha.of_le ?_ (alignsMembers_of_natural hnatural' ls) ?_ hdvd
    · rw [hkind']
      exact Exact.fits_union
    · rw [hkind']
      exact Exact.extent_le_extent Exact.start_union_le (Nat.le_refl 0)
  exact ⟨hle.1, hle.2, halign⟩

/-! ## Members in another order -/

/-- **Members in another order** fit in the same bytes where nothing is rounded on
the way. -/
theorem Fits.perm (h : a.Fits ls) (hfree : a.kind = .union ∨ a.isPacked = true)
    (hpos : ∀ l ∈ ls, 0 < l.align) (hp : ls.Perm ls') (members : List Member) :
    Fits { a with members } ls' ∧
      (exact { a with members } ls').size = (a.exact ls).size ∧
      (exact { a with members } ls').align = (a.exact ls).align := by
  have hnatural : Exact.natural a.isPacked ls = Exact.natural a.isPacked ls' :=
    Exact.natural_perm hp
  have hextent : Exact.extent a.kind a.isPacked 0 ls = Exact.extent a.kind a.isPacked 0 ls' :=
    Exact.extent_perm hfree hp
  have halign : exactAlign { a with members } ls' = a.exactAlign ls := by
    rw [exactAlign, exactAlign, hnatural]
    rfl
  refine ⟨⟨h.placed.perm hfree hpos hp, ?_, ?_⟩, ?_, halign⟩
  · exact fun x hx => hnatural ▸ h.aligns x hx
  · rw [halign]
    exact hextent ▸ h.closed
  · rw [exact, exact, halign]
    exact congrArg (Layout.roundUp · (a.exactAlign ls)) hextent.symm

end Aggregate

end DeviceTypes
