import DeviceTypes.Proofs.Table.Growth
/-!
# Readings of a table

A table is read by going down it: what a handle is read as depends on what
the parts of its shape are read as. `Table.read` goes down as many levels
as the table is deep. In an ordered table that bound is never felt, so the
reading satisfies its own equation (`Ordered.read_eq`), and a settled
handle is read the same in every larger table (`Ordered.read_of_le`).

The layout of a handle and its tree are two readings.
-/

namespace DeviceTypes

/-- A way to read handles as values of `β`. -/
structure Reading (β : Type) where
  /-- What a handle is read as that the table does not know. -/
  unknown : Handle → β
  /-- What a shape is read as, given how the handles in it are read. -/
  shape : (Handle → β) → Shape → β
  /-- A shape is read from its parts and nothing else. -/
  shape_congr : ∀ {f g : Handle → β} {s : Shape}, (∀ x ∈ s.parts, f x = g x) →
    shape f s = shape g s

namespace Table

variable {β : Type} {t : Table}

/-- Reads a handle, going down at most so many levels. -/
def readBelow (t : Table) (r : Reading β) : Nat → Handle → β
  | 0, h => r.unknown h
  | depth + 1, h =>
    match t.get? h with
    | none => r.unknown h
    | some s => r.shape (readBelow t r depth) s

/-- Reads a handle. -/
def read (t : Table) (r : Reading β) (h : Handle) : β := t.readBelow r t.depth h

theorem readBelow_succ (r : Reading β) (depth : Nat) (h : Handle) :
    t.readBelow r (depth + 1) h =
      match t.get? h with
      | none => r.unknown h
      | some s => r.shape (t.readBelow r depth) s := rfl

/-- Depth past the rank of a handle is not felt. -/
theorem Ordered.readBelow_eq (ho : t.Ordered) (r : Reading β) {n m : Nat} {h : Handle}
    (hn : t.rank h < n) (hm : t.rank h < m) : t.readBelow r n h = t.readBelow r m h := by
  -- a level down, both depths still exceed the rank of the part
  induction n generalizing m h with
  | zero => omega
  | succ n ih =>
    obtain ⟨m, rfl⟩ : ∃ k, m = k + 1 := ⟨m - 1, by omega⟩
    rw [readBelow_succ, readBelow_succ]
    cases hg : t.get? h with
    | none => rfl
    | some s =>
      refine r.shape_congr fun x hx => ih ?_ ?_
      all_goals
        have := ho.rank_lt hg hx
        omega

/-- **A handle is read from its parts**, however deep they go. -/
theorem Ordered.read_eq (ho : t.Ordered) (r : Reading β) (h : Handle) :
    t.read r h =
      match t.get? h with
      | none => r.unknown h
      | some s => r.shape (t.read r) s := by
  rw [read, depth, readBelow_succ]
  cases hg : t.get? h with
  | none => rfl
  | some s =>
    refine r.shape_congr fun x hx => ho.readBelow_eq r ?_ (rank_lt_depth t x)
    have := ho.rank_lt hg hx
    have := rank_lt_depth t h
    simp only [depth] at this
    omega

/-- **Growth leaves every reading as it was.** -/
theorem Ordered.read_of_le {t' : Table} (ho : t.Ordered) (ho' : t'.Ordered) (hle : t ≤ t')
    (r : Reading β) {h : Handle} (hs : t.Settled h) : t'.read r h = t.read r h := by
  -- along the smaller table, since the parts of a settled handle are settled there
  induction h using ho.induction with
  | step h ih =>
    rw [ho'.read_eq, ho.read_eq, get?_of_le hle hs]
    cases hg : t.get? h with
    | none => rfl
    | some s => exact r.shape_congr fun x hx => ih s hg x hx (ho.settled hg hx)

end Table

end DeviceTypes
