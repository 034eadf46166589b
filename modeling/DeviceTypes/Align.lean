/-!
# Alignments

An alignment is a power of two of bytes that fits in 32 bits, so it is
held as its exponent. `ofBytes?` reads one from a byte count and accepts
exactly the powers of two (`ofBytes?_isSome_iff`).
-/

namespace DeviceTypes

/-- A power-of-two alignment below `2 ^ 32`. -/
structure Align where
  /-- The alignment is two to this power. -/
  exponent : Fin 32
  deriving DecidableEq, Repr

namespace Align

/-- There is a least exponent. -/
instance neZero_exponents : @NeZero Nat Zero.ofOfNat0 32 := ⟨by decide⟩

/-- The alignment in bytes. -/
def bytes (a : Align) : Nat := 1 <<< (a.exponent : Nat)

/-- The alignment of one byte, which every address has. -/
def one : Align := ⟨0⟩

/-- Every alignment, smallest first. -/
def all : List Align := (List.finRange 32).map Align.mk

/-- The alignment of a number of bytes, if that is a power of two. -/
def ofBytes? (n : UInt32) : Option Align := all.find? fun a => a.bytes == n.toNat

theorem mem_all (a : Align) : a ∈ all := by
  simp [all]

theorem isPowerOfTwo_bytes (a : Align) : a.bytes.isPowerOfTwo :=
  ⟨a.exponent, Nat.one_shiftLeft _⟩

theorem bytes_pos (a : Align) : 0 < a.bytes := Nat.pos_of_isPowerOfTwo a.isPowerOfTwo_bytes

theorem bytes_injective {a b : Align} (h : a.bytes = b.bytes) : a = b := by
  rw [bytes, bytes, Nat.one_shiftLeft, Nat.one_shiftLeft] at h
  have : (a.exponent : Nat) = b.exponent := Nat.pow_right_inj (by decide) |>.mp h
  cases a; cases b; congr; exact Fin.ext this

theorem bytes_of_ofBytes? {n : UInt32} {a : Align} (h : ofBytes? n = some a) :
    a.bytes = n.toNat := by
  simpa using List.find?_some h

/-- Exactly the powers of two are alignments. -/
theorem ofBytes?_isSome_iff (n : UInt32) :
    (ofBytes? n).isSome ↔ n.toNat.isPowerOfTwo := by
  simp only [ofBytes?, List.find?_isSome, beq_iff_eq]
  constructor
  · rintro ⟨a, -, h⟩
    exact h ▸ a.isPowerOfTwo_bytes
  · rintro ⟨k, h⟩
    have hk : k < 32 := (Nat.pow_lt_pow_iff_right Nat.one_lt_two).1 (h ▸ n.toNat_lt)
    refine ⟨⟨k, hk⟩, mem_all _, ?_⟩
    rw [h, bytes, Nat.one_shiftLeft]

end Align

end DeviceTypes
