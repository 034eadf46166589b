import DeviceTypes.Proofs.Layout.Exact
import Mathlib.Algebra.GroupWithZero.Nat
import Mathlib.Data.List.Forall2
import Mathlib.Order.Bounds.Defs
/-!
# The least placement

The members of a struct may lie anywhere, as long as each is aligned and
comes behind the one declared before it (`Exact.Sequenced`). The rules put
them at the least offsets of all such placements, member by member
(`Exact.Sequenced.offsets_le`). This asks nothing of the alignments but
that they are positive: they need not be powers of two, and members may
have no size.

The first byte past all members is the least number that covers each of
them (`Exact.extent_le_iff`), so the size of an aggregate is the least
multiple of its alignment that does. `Aggregate.Tight` says all that is
asked of a layout, without the rules, and `Aggregate.exact_tight` that the
rules meet it.
-/

namespace DeviceTypes

/-- Lists that two functions map alike agree place by place. -/
theorem map_eq_map_iff_forall₂ {α β γ : Type} {f : α → γ} {g : β → γ} {as : List α}
    {bs : List β} : as.map f = bs.map g ↔ List.Forall₂ (fun a b => f a = g b) as bs := by
  rw [← List.forall₂_eq_eq_eq, List.forall₂_map_left_iff, List.forall₂_map_right_iff]

namespace Exact

variable {kind : AggregateKind} {packed : Bool} {stop n : Nat} {l : Layout} {ls : List Layout}
  {o : Nat} {os : List Nat}

/-- Offsets at which members of these layouts may start, one behind another: each
is a multiple of its member's alignment, and not before the end of the member
declared before it. -/
structure Sequenced (ls : List Layout) (os : List Nat) : Prop where
  length_eq : os.length = ls.length
  aligned : ∀ (k : Nat) (l : Layout) (o : Nat), ls[k]? = some l → os[k]? = some o → l.align ∣ o
  behind : ∀ (k : Nat) (l : Layout) (o o' : Nat), ls[k]? = some l → os[k]? = some o →
    os[k + 1]? = some o' → o + l.size ≤ o'

/-- Members of these layouts at these offsets all end at `n` or before. -/
def Covers (ls : List Layout) (os : List Nat) (n : Nat) : Prop :=
  ∀ (k : Nat) (l : Layout) (o : Nat), ls[k]? = some l → os[k]? = some o → o + l.size ≤ n

@[simp] theorem length_offsets (kind : AggregateKind) (packed : Bool) (stop : Nat)
    (ls : List Layout) : (offsets kind packed stop ls).length = ls.length := by
  induction ls generalizing stop with
  | nil => rfl
  | cons l ls ih => rw [offsets, List.length_cons, List.length_cons, ih]

/-! ## One behind another -/

theorem sequenced_nil : Sequenced [] [] where
  length_eq := rfl
  aligned _ _ _ h := by simp at h
  behind _ _ _ _ h := by simp at h

/-- **One more member in front**: it is aligned, and the next one comes behind it. -/
theorem sequenced_cons_iff : Sequenced (l :: ls) (o :: os) ↔
    l.align ∣ o ∧ (∀ o' ∈ os.head?, o + l.size ≤ o') ∧ Sequenced ls os := by
  constructor
  · rintro ⟨hlength, haligned, hbehind⟩
    refine ⟨haligned 0 l o rfl rfl, fun o' ho' => hbehind 0 l o o' rfl rfl ?_,
      Nat.succ.inj hlength, fun k => haligned (k + 1), fun k => hbehind (k + 1)⟩
    rw [List.getElem?_cons_succ, ← List.head?_eq_getElem?]
    exact ho'
  · rintro ⟨hdvd, hnext, hlength, haligned, hbehind⟩
    refine ⟨congrArg Nat.succ hlength, fun k => ?_, fun k => ?_⟩
    · rcases k with - | k
      · rintro _ _ ⟨⟩ ⟨⟩
        exact hdvd
      · exact haligned k
    · rcases k with - | k
      · rintro _ _ o' ⟨⟩ ⟨⟩ ho'
        rw [List.getElem?_cons_succ, ← List.head?_eq_getElem?] at ho'
        exact hnext o' ho'
      · exact hbehind k

/-- The first member of a struct starts at the stop or behind it. -/
theorem le_head_offsets (hpos : ∀ l ∈ ls, 0 < l.align) :
    ∀ o ∈ (offsets .struct false stop ls).head?, stop ≤ o := by
  intro o ho
  rcases ls with - | ⟨l, ls⟩
  · cases ho
  · obtain rfl : Layout.roundUp stop l.align = o := Option.some.inj ho
    exact Layout.le_roundUp stop (hpos l (List.mem_cons_self ..))

/-- **The rules put members one behind another.** -/
theorem sequenced_offsets (hpos : ∀ l ∈ ls, 0 < l.align) :
    Sequenced ls (offsets .struct false stop ls) := by
  induction ls generalizing stop with
  | nil => exact sequenced_nil
  | cons l ls ih =>
    rw [List.forall_mem_cons] at hpos
    refine sequenced_cons_iff.2 ⟨Layout.dvd_roundUp stop l.align, fun o ho => ?_, ih hpos.2⟩
    have hle := le_head_offsets hpos.2 o ho
    rwa [past_struct hpos.1] at hle

/-- **And nowhere sooner could they lie**: any placement of them that starts at the
stop or behind it is, member by member, at least that of the rules. -/
theorem Sequenced.offsets_le (hos : Sequenced ls os) (hpos : ∀ l ∈ ls, 0 < l.align)
    (hstop : ∀ o ∈ os.head?, stop ≤ o) :
    List.Forall₂ (· ≤ ·) (offsets .struct false stop ls) os := by
  induction ls generalizing os stop with
  | nil =>
    rw [List.length_eq_zero_iff.1 hos.length_eq]
    exact .nil
  | cons l ls ih =>
    obtain ⟨o, os, rfl⟩ := List.exists_cons_of_length_eq_add_one hos.length_eq
    obtain ⟨hdvd, hnext, hrest⟩ := sequenced_cons_iff.1 hos
    rw [List.forall_mem_cons] at hpos
    have hfirst : start .struct false stop l ≤ o := Layout.roundUp_le (hstop o rfl) hdvd
    -- so the rules are done with this member no later, and the next may start no later
    refine .cons hfirst (ih hrest hpos.2 fun o' ho' => ?_)
    rw [past_struct hpos.1]
    exact Nat.le_trans (Nat.add_le_add_right hfirst l.size) (hnext o' ho')

/-! ## Packed members and unions -/

/-- **A packed member starts where those before it end**, at the sum of their sizes. -/
theorem getElem?_offsets_packed {k : Nat} (hk : k < ls.length) :
    (offsets .struct true stop ls)[k]? = some (stop + ((ls.take k).map Layout.size).sum) := by
  induction ls generalizing stop k with
  | nil => exact absurd hk (Nat.not_lt_zero k)
  | cons l ls ih =>
    rw [offsets]
    rcases k with - | k
    · rfl
    · have hpast : past .struct true stop l = stop + l.size := Nat.max_eq_right (by simp [start])
      rw [List.getElem?_cons_succ, ih (Nat.lt_of_succ_lt_succ hk), hpast, List.take_succ_cons,
        List.map_cons, List.sum_cons, Nat.add_assoc]

theorem eq_zero_of_mem_offsets_union : ∀ o ∈ offsets .union packed stop ls, o = 0 := by
  induction ls generalizing stop with
  | nil => exact List.forall_mem_nil _
  | cons l ls ih => exact List.forall_mem_cons.2 ⟨rfl, ih⟩

/-! ## How far the members reach -/

/-- **The extent is the least number that covers every member.** -/
theorem extent_le_iff :
    extent kind packed stop ls ≤ n ↔ stop ≤ n ∧ Covers ls (offsets kind packed stop ls) n := by
  induction ls generalizing stop with
  | nil => simp [extent, Covers]
  | cons l ls ih =>
    have hcovers : ∀ o os, Covers (l :: ls) (o :: os) n ↔ o + l.size ≤ n ∧ Covers ls os n := by
      refine fun o os => ⟨fun h => ⟨h 0 l o rfl rfl, fun k => h (k + 1)⟩, fun h k => ?_⟩
      rcases k with - | k
      · rintro _ _ ⟨⟩ ⟨⟩
        exact h.1
      · exact h.2 k
    rw [extent, offsets, ih, hcovers, past, Nat.max_le, and_assoc]

/-- **The natural alignment is the largest of the members'.** -/
theorem isGreatest_natural (hls : ls ≠ []) (hpos : ∀ l ∈ ls, 0 < l.align) :
    IsGreatest {n | ∃ l ∈ ls, l.align = n} (natural false ls) := by
  have hfold : (1 :: ls.map Layout.align).max? = some (natural false ls) := List.max?_cons'
  obtain ⟨hmem, hmax⟩ := List.max?_eq_some_iff.1 hfold
  rw [List.forall_mem_cons] at hmax
  have hupper : ∀ l ∈ ls, l.align ≤ natural false ls :=
    fun l hl => hmax.2 l.align (List.mem_map_of_mem hl)
  refine ⟨?_, fun n ⟨l, hl, hn⟩ => hn ▸ hupper l hl⟩
  rcases List.mem_cons.1 hmem with hone | hmem
  · -- alignments are positive, so one is the largest only where all of them are one
    have hnatural : natural false ls = 1 := hone
    obtain ⟨l, hl⟩ := List.exists_mem_of_ne_nil ls hls
    exact ⟨l, hl, Nat.le_antisymm (hupper l hl) (hnatural ▸ hpos l hl)⟩
  · exact List.mem_map.1 hmem

end Exact

namespace Aggregate

/-- A layout of the aggregate that wastes nothing, when its members have the layouts
`ls`. -/
structure Tight (a : Aggregate) (ls : List Layout) (l : Layout) : Prop where
  /-- There is one offset for each member. -/
  length_eq : l.offsets.length = ls.length
  /-- The members of a union all start together. -/
  union : a.kind = .union → ∀ o ∈ l.offsets, o = 0
  /-- Packed members follow one another without a gap. -/
  packed : a.kind = .struct → a.packing = .packed → ∀ k < ls.length,
    l.offsets[k]? = some ((ls.take k).map Layout.size).sum
  /-- Other members of a struct are aligned and follow one another. -/
  sequential : a.kind = .struct → a.packing = .sequential → Exact.Sequenced ls l.offsets
  /-- No aligned members that follow one another start sooner, not one of them. -/
  least : a.kind = .struct → a.packing = .sequential → ∀ os, Exact.Sequenced ls os →
    List.Forall₂ (· ≤ ·) l.offsets os
  /-- An explicit alignment is the aggregate's own. -/
  explicit : ∀ x, a.alignment = .explicit x → l.align = x.bytes
  /-- Without one, packed members need not be aligned, nor need none. -/
  unaligned : a.alignment = .natural → a.packing = .packed ∨ ls = [] → l.align = 1
  /-- Else the aggregate is aligned as the member that asks for the most. -/
  natural : a.alignment = .natural → a.packing = .sequential → ls ≠ [] →
    IsGreatest {n | ∃ m ∈ ls, m.align = n} l.align
  /-- The size is the least multiple of the alignment that covers every member. -/
  size : IsLeast {n | l.align ∣ n ∧ Exact.Covers ls l.offsets n} l.size

variable {a : Aggregate} {ls : List Layout}

/-- **The rules waste nothing.** -/
theorem exact_tight (hpos : ∀ l ∈ ls, 0 < l.align) : a.Tight ls (a.exact ls) := by
  obtain ⟨kind, members, alignment, packing, passing⟩ := a
  refine {
    length_eq := Exact.length_offsets ..
    union := ?_
    packed := ?_
    sequential := ?_
    least := ?_
    explicit := ?_
    unaligned := ?_
    natural := ?_
    size := ⟨⟨Layout.dvd_roundUp _ _, ?_⟩, ?_⟩ }
  · rintro rfl
    exact Exact.eq_zero_of_mem_offsets_union
  · rintro rfl rfl k hk
    exact (Exact.getElem?_offsets_packed hk).trans (congrArg some (Nat.zero_add _))
  · rintro rfl rfl
    exact Exact.sequenced_offsets hpos
  · rintro rfl rfl os hos
    exact hos.offsets_le hpos fun o _ => Nat.zero_le o
  · rintro x rfl
    rfl
  · rintro rfl (rfl | rfl)
    · rfl
    · cases packing <;> rfl
  · rintro rfl rfl hls
    exact Exact.isGreatest_natural hls hpos
  · exact (Exact.extent_le_iff.1 (Layout.le_roundUp _ (exactAlign_pos _ ls))).2
  · rintro n ⟨hdvd, hcovers⟩
    exact Layout.roundUp_le (Exact.extent_le_iff.2 ⟨Nat.zero_le n, hcovers⟩) hdvd

end Aggregate

end DeviceTypes
