/-!
# Layouts

How many bytes a type occupies, at which multiples it may start, and where
its members lie. Sizes and offsets are natural numbers held below
`addressLimit`: whatever would leave the range is refused (`inRange?`)
before it is used.

Rounding up is checked too. For a power of two it fails only where the
rounded value itself leaves the range (`roundUp?_eq`), so the check never
refuses a layout that would fit.
-/

namespace DeviceTypes

/-- Every size and offset lies below this bound of 64 bits. -/
abbrev addressLimit : Nat := UInt64.size

/-- The memory a type occupies, in bytes. -/
structure Layout where
  size : Nat
  align : Nat
  /-- Where the members start, in declaration order; empty for anything but
  an aggregate. -/
  offsets : List Nat
  deriving DecidableEq, Repr

namespace Layout

/-- The least multiple of `align` that is at least `value`. -/
def roundUp (value align : Nat) : Nat := (value + (align - 1)) / align * align

/-- A number that an address can hold. -/
def inRange? (n : Nat) : Option Nat := if n < addressLimit then some n else none

/-- `value` rounded up to a multiple of `align`, nothing when the sum on the
way leaves the address range. An alignment of zero counts as one. -/
def roundUp? (value align : Nat) : Option Nat :=
  (inRange? (value + (max align 1 - 1))).map fun v => v / max align 1 * max align 1

/-- The layout of an undivided value of `bytes` bytes. -/
def scalar (bytes : Nat) : Layout := ⟨bytes, max bytes 1, []⟩

/-- The distance between neighbouring elements of an array. -/
def stride? (l : Layout) : Option Nat := roundUp? l.size l.align

/-- `length` elements of layout `l` in a row. -/
def row? (l : Layout) (length : Nat) : Option Layout := do
  let stride ← l.stride?
  let size ← inRange? (stride * length)
  return ⟨size, l.align, []⟩

/-! ## Rounding -/

@[simp] theorem inRange?_eq_some_iff {n m : Nat} :
    inRange? n = some m ↔ n = m ∧ n < addressLimit := by
  simp [inRange?, and_comm]

@[simp] theorem inRange?_eq_none_iff {n : Nat} : inRange? n = none ↔ addressLimit ≤ n := by
  simp [inRange?]

theorem le_roundUp (value : Nat) {align : Nat} (h : 0 < align) : value ≤ roundUp value align := by
  have hd := Nat.div_add_mod (value + (align - 1)) align
  have hm := Nat.mod_lt (value + (align - 1)) h
  rw [Nat.mul_comm] at hd
  unfold roundUp
  omega

theorem dvd_roundUp (value align : Nat) : align ∣ roundUp value align :=
  Nat.dvd_mul_left _ _

/-- **Rounding up is least**: no smaller multiple reaches the value. -/
theorem roundUp_le {value align n : Nat} (hv : value ≤ n) (hn : align ∣ n) :
    roundUp value align ≤ n := by
  obtain ⟨k, rfl⟩ := hn
  rcases Nat.eq_zero_or_pos align with rfl | h
  · simp [roundUp]
  · have hk : (value + (align - 1)) / align ≤ k := by
      rw [Nat.div_le_iff_le_mul_add_pred h]
      omega
    unfold roundUp
    rw [Nat.mul_comm align k]
    exact Nat.mul_le_mul_right align hk

theorem roundUp_of_dvd {value align : Nat} (h : align ∣ value) : roundUp value align = value := by
  rcases Nat.eq_zero_or_pos align with rfl | ha
  · simp [roundUp, Nat.eq_zero_of_zero_dvd h]
  · exact Nat.le_antisymm (roundUp_le (Nat.le_refl _) h) (le_roundUp _ ha)

/-- A checked rounding that succeeds is the exact one. -/
theorem roundUp_of_roundUp? {value align n : Nat} (h : roundUp? value align = some n) :
    n = roundUp value (max align 1) := by
  simp only [roundUp?, Option.map_eq_some_iff, inRange?_eq_some_iff] at h
  obtain ⟨v, ⟨rfl, -⟩, rfl⟩ := h
  rfl

/-- **Checked rounding to a power of two is exact**: it fails exactly where
the rounded value leaves the address range. -/
theorem roundUp?_eq (value : Nat) {align : Nat} (ha : align.isPowerOfTwo)
    (hlt : align < addressLimit) :
    roundUp? value align = inRange? (roundUp value align) := by
  obtain ⟨k, rfl⟩ := ha
  have hk : k < 64 := (Nat.pow_lt_pow_iff_right Nat.one_lt_two).1 hlt
  have hpos : 0 < 2 ^ k := Nat.two_pow_pos k
  have hmax : max (2 ^ k) 1 = 2 ^ k := Nat.max_eq_left hpos
  have hdvd : 2 ^ k ∣ addressLimit := Nat.pow_dvd_pow 2 (Nat.le_of_lt hk)
  by_cases h : value + (2 ^ k - 1) < addressLimit
  · have hr : roundUp value (2 ^ k) < addressLimit :=
      Nat.lt_of_le_of_lt (Nat.div_mul_le_self _ _) h
    simp only [roundUp?, hmax, inRange?, if_pos h, if_pos hr, Option.map_some]
    rfl
  · have hr : ¬ roundUp value (2 ^ k) < addressLimit := by
      obtain ⟨q, hq⟩ := hdvd
      obtain ⟨r, hr⟩ := dvd_roundUp value (2 ^ k)
      intro hlt
      rw [hr, hq] at hlt
      have hrq : r + 1 ≤ q := Nat.lt_of_mul_lt_mul_left hlt
      have hle := Nat.mul_le_mul_left (2 ^ k) hrq
      rw [← hq, Nat.mul_add, ← hr, Nat.mul_one] at hle
      have := le_roundUp value hpos
      omega
    simp only [roundUp?, hmax, inRange?, if_neg h, if_neg hr, Option.map_none]

end Layout

end DeviceTypes
