import DeviceTypes.Layout.OfHandle
import DeviceTypes.Policy
import DeviceTypes.Table.Spelling
/-!
# Universes

A universe is a type table seen through a target, together with the
layouts worked out under that target so far. It is where types are minted:
a pointer needs only a known pointee, while an array or an aggregate is
checked and laid out first and reaches the table only if that succeeds. A
request that fails leaves the table as it was.
-/

namespace DeviceTypes

/-- A type table, a target, and the layouts known under it. -/
structure Universe where
  /-- The number that tells universes apart. -/
  number : Nat
  table : Table
  target : Target
  layouts : LayoutCache

/-- A computation in a universe: it may be rejected, and what it did to the
universe stays either way. -/
abbrev UniverseM := ExceptT Rejection (StateM Universe)

namespace Universe

/-! ## Reading -/

/-- What a handle stands for. -/
def shapeOf (u : Universe) (h : Handle) : Except Rejection Shape :=
  match u.table.get? h with
  | some s => .ok s
  | none => .error (.unknownHandle h)

/-- The aggregate behind a handle, nothing for any other type. -/
def aggregateOf (u : Universe) (h : Handle) : Except Rejection (Option Aggregate) :=
  (u.shapeOf h).map Shape.aggregate?

/-- Whether values of the type go by reference. Only aggregates ever do. -/
def passedByReference (u : Universe) (h : Handle) : Except Rejection Bool :=
  (u.aggregateOf h).map fun
    | some a => u.target.byReference a.passing
    | none => false

/-- The text of a type. -/
def spell (u : Universe) (h : Handle) : String := u.table.spell h

/-! ## Layout -/

/-- A computation of layouts, on the cache of the universe. -/
def withLayouts {α : Type} (x : Universe → LayoutM α) : UniverseM α :=
  ExceptT.mk fun u =>
    let r := (x u).run.run u.layouts
    (r.1, { u with layouts := r.2 })

/-- The layout of a handle. -/
def layoutOf (h : Handle) : UniverseM Layout :=
  withLayouts fun u => u.table.layoutOf u.target h

/-! ## Minting -/

/-- The handle of a shape, which the table knows from here on. Nothing is
checked. -/
def intern (s : Shape) : UniverseM Handle :=
  modifyGet fun u => let (h, table) := u.table.intern s; (h, { u with table })

/-- Stores the layout of a handle. -/
def remember (h : Handle) (l : Layout) : UniverseM Unit :=
  modify fun u => { u with layouts := u.layouts.insert h l }

/-- The handle of a compound that can be laid out. -/
def mint (c : Compound) : UniverseM Handle := do
  let l ← withLayouts fun u => u.table.layoutOfShape u.target (.compound c)
  let h ← intern (.compound c)
  remember h l
  return h

/-- A pointer to `pointee` in the memory `space`. -/
def pointer (pointee : Handle) (space : AddressSpace) : UniverseM Handle := do
  if (← get).table.contains pointee then
    intern (.compound (.pointer pointee space))
  else
    throw (.unknownHandle pointee)

/-- `length` elements in a row. -/
def array (element : Handle) (length : UInt64) : UniverseM Handle :=
  mint (.array element length)

/-- The aggregate with these members under the policy. -/
def aggregate (policy : Policy) (members : List Member) : UniverseM Handle := do
  let a := policy.aggregate members
  MonadExcept.ofExcept (a.check (← get).target)
  mint (.aggregate a)

/-! ## Runs

What each computation answers and what it leaves of the universe. -/

theorem run_layoutOf (h : Handle) (u : Universe) :
    (layoutOf h).run u =
      (((u.table.layoutOf u.target h).run u.layouts).1,
        { u with layouts := ((u.table.layoutOf u.target h).run u.layouts).2 }) := rfl

/-- **A compound reaches the table only if it can be laid out**; its layout
is then stored under its handle. -/
theorem run_mint (c : Compound) (u : Universe) :
    (mint c).run u =
      let r := (u.table.layoutOfShape u.target (.compound c)).run u.layouts
      match r.1 with
      | .ok l =>
        (.ok (u.table.intern (.compound c)).1,
          { u with
            table := (u.table.intern (.compound c)).2
            layouts := r.2.insert (u.table.intern (.compound c)).1 l })
      | .error e => (.error e, { u with layouts := r.2 }) := by
  rcases hr : (u.table.layoutOfShape u.target (.compound c)).run u.layouts with ⟨e | l, layouts⟩
  all_goals
    change StateT.run (u.table.layoutOfShape u.target (.compound c)) u.layouts = _ at hr
    simp only [mint, withLayouts, ExceptT.run, ExceptT.mk, bind, ExceptT.bind, StateT.bind,
      ExceptT.bindCont]
    rw [hr]
    rfl

/-- **A pointer asks only that its pointee is known.** -/
theorem run_pointer (pointee : Handle) (space : AddressSpace) (u : Universe) :
    (pointer pointee space).run u =
      if u.table.contains pointee then
        (.ok (u.table.intern (.compound (.pointer pointee space))).1,
          { u with table := (u.table.intern (.compound (.pointer pointee space))).2 })
      else (.error (.unknownHandle pointee), u) := by
  change (if u.table.contains pointee = true then intern (.compound (.pointer pointee space))
    else throw (.unknownHandle pointee) : UniverseM Handle).run u = _
  split <;> rfl

theorem run_array (element : Handle) (length : UInt64) (u : Universe) :
    (array element length).run u = (mint (.array element length)).run u := rfl

/-- **An aggregate is checked before it is minted.** -/
theorem run_aggregate (policy : Policy) (members : List Member) (u : Universe) :
    (aggregate policy members).run u =
      match (policy.aggregate members).check u.target with
      | .ok () => (mint (.aggregate (policy.aggregate members))).run u
      | .error e => (.error e, u) := by
  change (MonadExcept.ofExcept ((policy.aggregate members).check u.target) >>= fun _ =>
    mint (.aggregate (policy.aggregate members)) : UniverseM Handle).run u = _
  cases (policy.aggregate members).check u.target <;> rfl

end Universe

end DeviceTypes
