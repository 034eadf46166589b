import DeviceTypes.Primitive
/-!
# Type handles

A handle names a type. A primitive's handle is good in every table. A
minted handle names an entry of the table that minted it and means nothing
elsewhere. A loose handle is a bare 32-bit word that no table minted: it
belongs nowhere.

Bare words are split into a shard of four bits and a slot of
twenty-eight. The words below twelve are the primitives themselves, which
is why a loose handle's word starts at twelve (`ofWord`).
-/

namespace DeviceTypes

/-- A bare word past those that stand for primitives. -/
structure LooseWord where
  /-- The 32-bit word. -/
  word : UInt32
  /-- The word is none of the primitives' own. -/
  past_primitives : Primitive.count ≤ word.toNat := by decide
  deriving DecidableEq

/-- The name of a type. -/
inductive Handle where
  /-- A primitive, known to every table. -/
  | primitive (p : Primitive)
  /-- Entry `index` of the table numbered `table`. -/
  | minted (table index : Nat)
  /-- A bare word that belongs to no table. -/
  | loose (word : LooseWord)
  deriving DecidableEq

namespace Handle

/-- The handle of a bare word: a primitive below twelve, loose from there on. -/
def ofWord (w : UInt32) : Handle :=
  if h : w.toNat < Primitive.count then .primitive (Primitive.ofIndex ⟨w.toNat, h⟩)
  else .loose ⟨w, Nat.le_of_not_lt h⟩

/-- The handle whose word joins a shard of four bits and a slot of twenty-eight. -/
def ofSlot (shard slot : UInt32) : Handle := ofWord (shard <<< 28 ||| slot)

/-- The bare word of a handle that carries no table. -/
def word? : Handle → Option UInt32
  | primitive p => some (UInt32.ofNat p.index.val)
  | minted _ _ => none
  | loose w => some w.word

/-- Whether the handle carries a table. -/
def isMinted : Handle → Bool
  | minted _ _ => true
  | _ => false

/-- The primitive that a handle names. -/
def primitive? : Handle → Option Primitive
  | primitive p => some p
  | _ => none

/-- Whether the handle names a primitive. -/
def isPrimitive (h : Handle) : Bool := h.primitive?.isSome

/-- The four high bits of a bare word. -/
def shard (w : UInt32) : UInt32 := w >>> 28

/-- The twenty-eight low bits of a bare word. -/
def slot (w : UInt32) : UInt32 := w &&& 0x0FFFFFFF

/-- The text of a handle in a diagnostic. How a minted handle is written is
up to the reader of the diagnostic, who knows the tables. -/
def describe (minted : Nat → Nat → String) : Handle → String
  | .primitive p => s!"IrType({p.name})"
  | .minted table index => s!"IrType({minted table index})"
  | .loose w => s!"IrType(table=0, shard={shard w.word}, local={slot w.word})"

/-- A bare word is read back from its handle. -/
theorem word?_ofWord (w : UInt32) : (ofWord w).word? = some w := by
  unfold ofWord
  split
  · simp [word?, Primitive.index_ofIndex]
  · rfl

@[simp] theorem isPrimitive_primitive (p : Primitive) : (primitive p).isPrimitive = true := rfl
@[simp] theorem isPrimitive_minted (t i : Nat) : (minted t i).isPrimitive = false := rfl
@[simp] theorem isPrimitive_loose (w : LooseWord) : (loose w).isPrimitive = false := rfl

theorem isPrimitive_iff {h : Handle} : h.isPrimitive = true ↔ ∃ p, h = primitive p := by
  cases h <;> simp

end Handle

end DeviceTypes
