import DeviceTypes.Layout.Cache
import DeviceTypes.Layout.Placement
import DeviceTypes.Table
/-!
# The layout of a handle

A handle is laid out by reading its shape and laying out the handles
inside it. Every layout found on the way goes into a cache, which is asked
before anything else; a failure keeps what was cached before it.

The descent is bounded by a depth. One level more than the table has
compounds is always enough, because an entry mentions only entries before
it and each step goes down to one of those.
-/

namespace DeviceTypes

/-- A computation of layouts: it may be rejected, and it keeps its cache
either way. -/
abbrev LayoutM := ExceptT Rejection (StateM LayoutCache)

namespace Table

/-- The layout of a handle, going down at most so many levels. -/
def layoutBelow (t : Table) (target : Target) : Nat → Handle → LayoutM Layout
  | 0, h => throw (.unknownHandle h)
  | depth + 1, h => do
    match (← get).find? h with
    | some l => return l
    | none =>
      match t.get? h with
      | none => throw (.unknownHandle h)
      | some s =>
        let l ← s.layoutIn target (layoutBelow t target depth)
        modify (·.insert h l)
        return l

/-- The layout of a handle. -/
def layoutOf (t : Table) (target : Target) (h : Handle) : LayoutM Layout :=
  t.layoutBelow target t.depth h

/-- The layout of a shape that the table need not know. -/
def layoutOfShape (t : Table) (target : Target) (s : Shape) : LayoutM Layout :=
  s.layoutIn target (t.layoutOf target)

end Table

end DeviceTypes
