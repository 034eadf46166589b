import DeviceTypes.Handle
import DeviceTypes.Layout.Basic
/-!
# Layout caches

The layouts worked out so far, each under its handle. Primitives are never
stored: their layout is known without looking. Inserting replaces what the
handle had before (`find?_insert`).
-/

namespace DeviceTypes

/-- Layouts by handle, one each. -/
structure LayoutCache where
  entries : List (Handle × Layout) := []
  deriving DecidableEq

namespace LayoutCache

/-- The cache that holds nothing. -/
def empty : LayoutCache := {}

/-- The layout stored for a handle. -/
def find? (c : LayoutCache) (h : Handle) : Option Layout := c.entries.lookup h

/-- How many handles have a layout. -/
def size (c : LayoutCache) : Nat := c.entries.length

/-- The cache with layout `l` for `h`; unchanged when `h` is a primitive. -/
def insert (c : LayoutCache) (h : Handle) (l : Layout) : LayoutCache :=
  if h.isPrimitive then c else ⟨(h, l) :: c.entries.filter fun e => e.1 ≠ h⟩

@[simp] theorem find?_empty (h : Handle) : empty.find? h = none := rfl

theorem lookup_filter_ne {h k : Handle} (hne : k ≠ h) (es : List (Handle × Layout)) :
    (es.filter fun e => e.1 ≠ h).lookup k = es.lookup k := by
  induction es with
  | nil => rfl
  | cons e es ih =>
    obtain ⟨a, l⟩ := e
    by_cases ha : a = h
    · have hk : (k == a) = false := by simpa [ha] using hne
      rw [List.filter_cons_of_neg (by simpa using ha), List.lookup_cons, hk]
      exact ih
    · rw [List.filter_cons_of_pos (by simpa using ha), List.lookup_cons, List.lookup_cons, ih]

/-- **Inserting changes one handle's layout and no other.** -/
theorem find?_insert (c : LayoutCache) {h : Handle} (hp : h.isPrimitive = false) (l : Layout)
    (k : Handle) : (c.insert h l).find? k = if k = h then some l else c.find? k := by
  by_cases hk : k = h
  · simp [insert, find?, hp, hk]
  · have hb : (k == h) = false := by simpa using hk
    simp only [insert, hp, find?, hk, if_false, List.lookup_cons, hb, Bool.false_eq_true]
    exact lookup_filter_ne hk _

end LayoutCache

end DeviceTypes
