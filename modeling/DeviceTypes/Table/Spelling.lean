import DeviceTypes.Table
/-!
# The text of a type

A type is written out in full, without names of its own: `f32*`,
`[4 x i16]`, `packed struct align(8) { x: u8 }`. A pointer names its
address space unless it is the generic one, and an aggregate names each
part of its policy that is not the default. A handle the table does not
know is written `<unknown>`.
-/

namespace DeviceTypes

/-- The text of an explicit alignment. -/
def Alignment.spell : Alignment → String
  | natural => ""
  | explicit a => s!" align({a.bytes})"

/-- The text of a choice how to pass values. -/
def Passing.spell : Passing → String
  | targetDefault => ""
  | byValue => " byval"
  | byReference => " byref"

/-- What stands before the members of an aggregate. -/
def Aggregate.spellHead (a : Aggregate) : String :=
  (if a.isPacked then "packed " else "") ++ a.kind.keyword ++ a.alignment.spell ++ a.passing.spell

/-- One member: its name and the text of its type. -/
def Member.spell (inner : Handle → String) (m : Member) : String :=
  m.name ++ ": " ++ inner m.type

/-- The members of an aggregate between braces. -/
def Aggregate.spellMembers (inner : Handle → String) : List Member → String
  | [] => " \x7b\x7d"
  | members => " \x7b " ++ ", ".intercalate (members.map (Member.spell inner)) ++ " \x7d"

/-- The text of a compound, given the texts of the handles inside it. -/
def Compound.spell (inner : Handle → String) : Compound → String
  | pointer pointee .generic => inner pointee ++ "*"
  | pointer pointee space => inner pointee ++ s!" addrspace({space.name})*"
  | array element length => s!"[{length} x " ++ inner element ++ "]"
  | aggregate a => a.spellHead ++ Aggregate.spellMembers inner a.members

namespace Table

/-- The text of a handle, going down at most so many levels. -/
def spellBelow (t : Table) : Nat → Handle → String
  | 0, _ => "<unknown>"
  | depth + 1, h =>
    match t.get? h with
    | none => "<unknown>"
    | some (.primitive p) => p.name
    | some (.compound c) => c.spell (spellBelow t depth)

/-- The text of a handle. -/
def spell (t : Table) (h : Handle) : String := t.spellBelow t.depth h

end Table

end DeviceTypes
