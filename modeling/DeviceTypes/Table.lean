import DeviceTypes.Shape
/-!
# Type tables

A table gives every compound type one handle. It is a list of compounds
without repetition that only ever grows at its end; a handle it minted
carries the table's number and a position in the list. Primitives are
known to every table and stored in none.

`get?` reads a handle and `find?` a shape, and each undoes the other
(`find?_eq_some_iff`). `intern` finds the shape or appends it, so
afterwards `find?` answers its handle (`find?_intern`) and every earlier
handle still reads the same (`get?_intern`).
-/

namespace DeviceTypes

/-- The compound types of one table, each once. -/
structure Table where
  /-- The number stamped into the handles this table mints. -/
  number : Nat
  /-- The compounds in the order they were first interned. -/
  entries : List Compound
  /-- No compound is stored twice. -/
  nodup : entries.Nodup

namespace Table

/-- The table that knows only the primitives. -/
def empty (number : Nat) : Table := ⟨number, [], List.nodup_nil⟩

/-- How many types the table knows, primitives included. -/
def size (t : Table) : Nat := Primitive.count + t.entries.length

/-- Whether the table knows only the primitives. -/
def isEmpty (t : Table) : Bool := t.size ≤ Primitive.count

/-- The levels of a type that the table can hold: its compounds, each inside
the next, and a primitive. -/
def depth (t : Table) : Nat := t.entries.length + 1

/-- Whether the handle is a primitive or was minted by this table. -/
def contains (t : Table) : Handle → Bool
  | .primitive _ => true
  | .minted table index => table = t.number ∧ index < t.entries.length
  | .loose _ => false

/-- What a handle stands for in this table. -/
def get? (t : Table) : Handle → Option Shape
  | .primitive p => some (.primitive p)
  | .minted table index => if table = t.number then t.entries[index]?.map .compound else none
  | .loose _ => none

/-- The handle that stands for the entry `c`, or would if `c` came next. -/
def handleOf (t : Table) (c : Compound) : Handle := .minted t.number (t.entries.idxOf c)

/-- The handle of a shape this table already knows. -/
def find? (t : Table) : Shape → Option Handle
  | .primitive p => some (.primitive p)
  | .compound c => if c ∈ t.entries then some (t.handleOf c) else none

/-- The table with `c` among its entries. -/
def adding (t : Table) (c : Compound) : Table :=
  if h : c ∈ t.entries then t
  else
    { t with
      entries := t.entries ++ [c]
      nodup := List.nodup_append.2 ⟨t.nodup, by simp, fun _ ha _ hb e =>
        h (List.mem_singleton.1 hb ▸ e ▸ ha)⟩ }

/-- The handle of a shape, and the table that knows it. -/
def intern (t : Table) : Shape → Handle × Table
  | .primitive p => (.primitive p, t)
  | .compound c => (t.handleOf c, t.adding c)

/-! ## Reading handles and finding shapes -/

/-- The known handles are those that read as something. -/
theorem contains_eq_isSome_get? (t : Table) (h : Handle) :
    t.contains h = (t.get? h).isSome := by
  cases h with
  | primitive p => rfl
  | loose w => rfl
  | minted table index =>
    rw [Bool.eq_iff_iff]
    by_cases ht : table = t.number <;> simp [contains, get?, ht]

theorem get?_handleOf {t : Table} {c : Compound} (h : c ∈ t.entries) :
    t.get? (t.handleOf c) = some (.compound c) := by
  have hlt := List.idxOf_lt_length_of_mem h
  simp [get?, handleOf, List.getElem?_eq_getElem hlt, List.getElem_idxOf]

theorem get?_of_find? {t : Table} {s : Shape} {h : Handle} (hf : t.find? s = some h) :
    t.get? h = some s := by
  cases s with
  | primitive p => cases hf; rfl
  | compound c =>
    simp only [find?, Option.ite_none_right_eq_some, Option.some.injEq] at hf
    exact hf.2 ▸ get?_handleOf hf.1

theorem find?_of_get? {t : Table} {h : Handle} {s : Shape} (hg : t.get? h = some s) :
    t.find? s = some h := by
  cases h with
  | primitive p => cases hg; rfl
  | loose w => simp [get?] at hg
  | minted table index =>
    simp only [get?, Option.ite_none_right_eq_some, Option.map_eq_some_iff] at hg
    obtain ⟨rfl, c, hc, rfl⟩ := hg
    obtain ⟨hlt, rfl⟩ := List.getElem?_eq_some_iff.1 hc
    simp [find?, handleOf, t.nodup.idxOf_getElem]

/-- **Handles and known shapes correspond one to one.** -/
theorem find?_eq_some_iff {t : Table} {s : Shape} {h : Handle} :
    t.find? s = some h ↔ t.get? h = some s :=
  ⟨get?_of_find?, find?_of_get?⟩

/-! ## Growth -/

@[simp] theorem number_adding (t : Table) (c : Compound) : (t.adding c).number = t.number := by
  unfold adding; split <;> rfl

theorem entries_adding (t : Table) (c : Compound) :
    (t.adding c).entries = if c ∈ t.entries then t.entries else t.entries ++ [c] := by
  unfold adding; split <;> simp [*]

theorem adding_of_mem {t : Table} {c : Compound} (h : c ∈ t.entries) : t.adding c = t := by
  simp [adding, h]

/-- A table's entries begin with those it had before. -/
theorem exists_entries_adding (t : Table) (c : Compound) :
    ∃ rest, (t.adding c).entries = t.entries ++ rest := by
  rw [entries_adding]; split
  · exact ⟨[], by simp⟩
  · exact ⟨[c], rfl⟩

/-- **What a handle stands for never changes.** -/
theorem get?_intern {t : Table} {h : Handle} {s : Shape} (hg : t.get? h = some s)
    (s' : Shape) : (t.intern s').2.get? h = some s := by
  cases s' with
  | primitive p => exact hg
  | compound c =>
    cases h with
    | primitive p => exact hg
    | loose w => simp [get?] at hg
    | minted table index =>
      simp only [get?, Option.ite_none_right_eq_some, Option.map_eq_some_iff] at hg
      obtain ⟨rfl, d, hd, rfl⟩ := hg
      obtain ⟨rest, hr⟩ := exists_entries_adding t c
      have hlt := (List.getElem?_eq_some_iff.1 hd).1
      simp [intern, get?, hr, List.getElem?_append_left hlt, hd]

/-- **An interned shape is known by the handle that interning answers.** -/
theorem find?_intern (t : Table) (s : Shape) :
    (t.intern s).2.find? s = some (t.intern s).1 := by
  cases s with
  | primitive p => rfl
  | compound c =>
    by_cases h : c ∈ t.entries
    · simp [intern, find?, adding_of_mem h, h]
    · have hlen := List.idxOf_eq_length h
      simp only [intern, find?, handleOf, number_adding, entries_adding, if_neg h,
        List.idxOf_append, List.mem_append, List.mem_singleton, or_true, if_true,
        List.idxOf_cons_self, hlen, Nat.zero_add]

/-- A known shape is interned without growth. -/
theorem intern_of_find? {t : Table} {s : Shape} {h : Handle} (hf : t.find? s = some h) :
    t.intern s = (h, t) := by
  cases s with
  | primitive p => cases hf; rfl
  | compound c =>
    simp only [find?, Option.ite_none_right_eq_some, Option.some.injEq] at hf
    simp [intern, hf.2, adding_of_mem hf.1]

end Table

end DeviceTypes
