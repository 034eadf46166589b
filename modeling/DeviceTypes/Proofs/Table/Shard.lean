import DeviceTypes.Handle
import Mathlib.Algebra.Group.Nat.Defs
/-!
# Shards

A shard stores data in a row and keeps a map back from a datum to its slot.
The two agree as long as each new datum is pushed once and there is room
(`Shard.Sound.push`).

A handle packs the number of a shard and a slot into one word, and it
carries the number that tells tables apart, which is zero for handles that
no table minted. Both parts are read back from the word (`shard_inTable`,
`slot_inTable`). The words below twelve are the primitives, and they are
also the first slots of the first shard.
-/

namespace DeviceTypes

/-- A handle as it is stored: a word of four bits for the shard and
twenty-eight for the slot, and the table that minted it. -/
structure Packed where
  word : UInt32
  /-- Zero for primitives and for handles that belong to no table. -/
  table : Nat
  deriving DecidableEq

namespace Packed

/-- There is a first shard. -/
instance neZero_shards : @NeZero Nat Zero.ofOfNat0 16 := ⟨by decide⟩

/-- The last slot of a shard. -/
def lastSlot : Nat := 0x0FFFFFFF

/-- The handle of a primitive. -/
def primitive (p : Primitive) : Packed := ⟨UInt32.ofNat p.index.val, 0⟩

/-- The handle of a slot. -/
def inTable (table : Nat) (shard : Fin 16) (slot : UInt32) : Packed :=
  ⟨UInt32.ofNat shard.val <<< 28 ||| slot, table⟩

/-- The shard of a handle. -/
def shard (h : Packed) : Fin 16 := Fin.ofNat 16 (Handle.shard h.word).toNat

/-- The slot of a handle. -/
def slot (h : Packed) : Nat := (Handle.slot h.word).toNat

/-- Whether the handle names a primitive. -/
def isPrimitive (h : Packed) : Bool := h.table = 0 ∧ h.word.toNat < Primitive.count

/-! ## Packing -/

theorem toNat_shard (w : UInt32) : (Handle.shard w).toNat = w.toNat / 2 ^ 28 := by
  rw [Handle.shard, UInt32.toNat_shiftRight, Nat.shiftRight_eq_div_pow]
  rfl

theorem toNat_slot (w : UInt32) : (Handle.slot w).toNat = w.toNat % 2 ^ 28 := by
  rw [Handle.slot, UInt32.toNat_and]
  exact Nat.and_two_pow_sub_one_eq_mod w.toNat 28

theorem toNat_word_inTable (table : Nat) (k : Fin 16) {i : UInt32} (hi : i.toNat < 2 ^ 28) :
    (inTable table k i).word.toNat = k.val * 2 ^ 28 + i.toNat := by
  have hk := k.isLt
  have hword : (UInt32.ofNat k.val <<< 28).toNat = k.val <<< 28 := by
    rw [UInt32.toNat_shiftLeft, UInt32.toNat_ofNat_of_lt' (by simp [UInt32.size]; omega),
      Nat.shiftLeft_eq, Nat.shiftLeft_eq]
    simp
    omega
  rw [inTable, UInt32.toNat_or, hword, ← Nat.shiftLeft_add_eq_or_of_lt hi, Nat.shiftLeft_eq]

/-- **A handle's shard and slot are those it was packed from.** -/
theorem shard_inTable (table : Nat) (k : Fin 16) {i : UInt32} (hi : i.toNat < 2 ^ 28) :
    (inTable table k i).shard = k := by
  have hk := k.isLt
  apply Fin.ext
  rw [shard, toNat_shard, toNat_word_inTable table k hi]
  simp
  omega

theorem slot_inTable (table : Nat) (k : Fin 16) {i : UInt32} (hi : i.toNat < 2 ^ 28) :
    (inTable table k i).slot = i.toNat := by
  rw [slot, toNat_slot, toNat_word_inTable table k hi]
  omega

theorem toNat_word_primitive (p : Primitive) : (primitive p).word.toNat = p.index.val := by
  have hp : p.index.val < 12 := p.index.isLt
  exact UInt32.toNat_ofNat_of_lt' (Nat.lt_trans hp (by decide))

theorem shard_primitive (p : Primitive) : (primitive p).shard = 0 := by
  have hp : p.index.val < 12 := p.index.isLt
  apply Fin.ext
  rw [shard, toNat_shard, toNat_word_primitive]
  simp
  omega

theorem slot_primitive (p : Primitive) : (primitive p).slot = p.index.val := by
  have hp : p.index.val < 12 := p.index.isLt
  rw [slot, toNat_slot, toNat_word_primitive]
  omega

theorem isPrimitive_primitive (p : Primitive) : (primitive p).isPrimitive = true := by
  have hp : p.index.val < 12 := p.index.isLt
  rw [isPrimitive, toNat_word_primitive]
  simp [primitive]

theorem isPrimitive_of_table_ne_zero {h : Packed} (hne : h.table ≠ 0) : h.isPrimitive = false := by
  simp [isPrimitive, hne]

end Packed

variable {C : Type}

/-- One shard of a table. -/
structure Shard (C : Type) where
  /-- The slot of each datum. -/
  slots : List ((Primitive ⊕ C) × UInt32)
  /-- The data, each at the position that is its slot. -/
  data : List (Primitive ⊕ C)

namespace Shard

/-- The shard with one more datum. -/
def push (s : Shard C) (d : Primitive ⊕ C) : Shard C :=
  ⟨(d, UInt32.ofNat s.data.length) :: s.slots, s.data ++ [d]⟩

/-- The shard without data. -/
def empty : Shard C := ⟨[], []⟩

/-- The shard of the primitives. -/
def primitives : Shard C := Primitive.all.foldl (fun s p => s.push (.inl p)) empty

variable [DecidableEq C]

/-- The slot of a datum. -/
def slot? (s : Shard C) (d : Primitive ⊕ C) : Option UInt32 :=
  (s.slots.find? fun e => e.1 = d).map Prod.snd

/-- The map and the row of a shard agree, and the slots fit into their bits. -/
structure Sound (s : Shard C) : Prop where
  slot?_iff : ∀ d i, s.slot? d = some i ↔ s.data[i.toNat]? = some d
  length_le : s.data.length ≤ 2 ^ 28

variable {s : Shard C} {d : Primitive ⊕ C}

theorem Sound.slot?_of_getElem? (hs : s.Sound) {n : Nat} (hn : s.data[n]? = some d) :
    ∃ i, s.slot? d = some i ∧ i.toNat = n := by
  have hlt : n < s.data.length := (List.getElem?_eq_some_iff.1 hn).1
  have hle := hs.length_le
  have hi : (UInt32.ofNat n).toNat = n :=
    UInt32.toNat_ofNat_of_lt' (Nat.lt_of_lt_of_le hlt (Nat.le_trans hle (by decide)))
  exact ⟨UInt32.ofNat n, (hs.slot?_iff d _).2 (by rw [hi, hn]), hi⟩

/-- A datum has a slot where it is in the row. -/
theorem Sound.isSome_slot? (hs : s.Sound) : (s.slot? d).isSome ↔ d ∈ s.data := by
  rw [Option.isSome_iff_exists, List.mem_iff_getElem?]
  constructor
  · rintro ⟨i, hi⟩
    exact ⟨i.toNat, (hs.slot?_iff d i).1 hi⟩
  · rintro ⟨n, hn⟩
    obtain ⟨i, hi, -⟩ := hs.slot?_of_getElem? hn
    exact ⟨i, hi⟩

theorem Sound.slot_lt (hs : s.Sound) {i : UInt32} (hi : s.slot? d = some i) :
    i.toNat < 2 ^ 28 := by
  have hlt := (List.getElem?_eq_some_iff.1 ((hs.slot?_iff d i).1 hi)).1
  exact Nat.lt_of_lt_of_le hlt hs.length_le

theorem slot?_push (s : Shard C) (d d' : Primitive ⊕ C) :
    (s.push d).slot? d' = if d' = d then some (UInt32.ofNat s.data.length) else s.slot? d' := by
  by_cases h : d' = d
  · simp [slot?, push, h]
  · have hne : ¬ d = d' := fun e => h e.symm
    simp [slot?, push, h, hne]

/-- **A new datum keeps the map and the row in agreement.** -/
theorem Sound.push (hs : s.Sound) (hd : s.slot? d = none) (hlt : s.data.length < 2 ^ 28) :
    (s.push d).Sound := by
  have hlast : (UInt32.ofNat s.data.length).toNat = s.data.length :=
    UInt32.toNat_ofNat_of_lt' (Nat.lt_trans hlt (by decide))
  refine ⟨fun d' i => ?_, ?_⟩
  · rw [slot?_push]
    change _ ↔ (s.data ++ [d])[i.toNat]? = some d'
    by_cases hd' : d' = d
    · subst hd'
      rw [if_pos rfl, Option.some.injEq]
      constructor
      · rintro rfl
        rw [hlast, List.getElem?_concat_length]
      · intro hi
        have hle : i.toNat < (s.data ++ [d']).length := (List.getElem?_eq_some_iff.1 hi).1
        rw [List.length_append, List.length_singleton] at hle
        -- an earlier slot is not its own: it had none
        have hge : s.data.length ≤ i.toNat := by
          refine Nat.le_of_not_lt fun hlt' => ?_
          rw [List.getElem?_append_left hlt', ← hs.slot?_iff, hd] at hi
          cases hi
        apply UInt32.toNat_inj.1
        omega
    · rw [if_neg hd', hs.slot?_iff]
      rcases Nat.lt_or_ge i.toNat s.data.length with hi | hi
      · rw [List.getElem?_append_left hi]
      · rw [List.getElem?_append_right hi, List.getElem?_eq_none hi]
        have hne : ∀ n : Nat, [d][n]? ≠ some d' := by
          intro n hn
          exact hd' (List.mem_singleton.1 (List.mem_of_getElem? hn))
        simp [hne]
  · rw [Shard.push, List.length_append]
    exact hlt

theorem sound_empty : (empty : Shard C).Sound :=
  ⟨fun _ _ => by simp [empty, slot?], by simp [empty]⟩

/-- Pushing some primitives one after another. -/
theorem Sound.pushAll {s : Shard C} (hs : s.Sound) {ps : List Primitive} (hps : ps.Nodup)
    (hnew : ∀ p ∈ ps, s.slot? (.inl p) = none) (hlen : s.data.length + ps.length ≤ 2 ^ 28) :
    (ps.foldl (fun s p => s.push (.inl p)) s).Sound ∧
      (ps.foldl (fun s p => s.push (.inl p)) s).data = s.data ++ ps.map .inl := by
  induction ps generalizing s with
  | nil => exact ⟨hs, (List.append_nil _).symm⟩
  | cons p rest ih =>
    rw [List.length_cons] at hlen
    obtain ⟨hp, hrest⟩ := List.nodup_cons.1 hps
    have hpush := hs.push (hnew p List.mem_cons_self) (by omega)
    have hnew' : ∀ q ∈ rest, (s.push (.inl p)).slot? (.inl q) = none := by
      intro q hq
      have hqp : (Sum.inl q : Primitive ⊕ C) ≠ .inl p := by
        rintro ⟨⟩
        exact hp hq
      rw [slot?_push, if_neg hqp]
      exact hnew q (List.mem_cons_of_mem p hq)
    have hlen' : (s.push (.inl p)).data.length + rest.length ≤ 2 ^ 28 := by
      rw [Shard.push, List.length_append, List.length_singleton]
      omega
    obtain ⟨hsound, hdata⟩ := ih hpush hrest hnew' hlen'
    refine ⟨hsound, ?_⟩
    rw [List.foldl_cons, hdata]
    simp [Shard.push]

/-- **The shard of the primitives** has each at its position. -/
theorem sound_primitives :
    (primitives : Shard C).Sound ∧ (primitives : Shard C).data = Primitive.all.map .inl :=
  sound_empty.pushAll (by decide) (fun _ _ => rfl) (by simp [empty, Primitive.count])

end Shard

end DeviceTypes
