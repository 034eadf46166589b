/-!
# Address spaces

The memories a device pointer can point into. A target gives each space a
pointer width of its own, so the spaces are numbered densely.
-/

namespace DeviceTypes

/-- The device memory a pointer refers into. -/
inductive AddressSpace where
  /-- The flat space, resolved to one of the others when a program runs. -/
  | generic
  /-- The memory of the whole device. -/
  | global
  /-- The memory of one block of threads. -/
  | shared
  /-- Memory that a program only reads. -/
  | constant
  /-- The memory of one thread. -/
  | threadLocal
  deriving DecidableEq, Repr

namespace AddressSpace

/-- Every address space, in the order of their numbers. -/
def all : List AddressSpace := [generic, global, shared, constant, threadLocal]

/-- The number of a space: its position in `all`. -/
def index : AddressSpace → Fin 5
  | generic => 0 | global => 1 | shared => 2 | constant => 3 | threadLocal => 4

/-- The name a space is printed with. -/
def name : AddressSpace → String
  | generic => "generic" | global => "global" | shared => "shared"
  | constant => "constant" | threadLocal => "local"

/-- The space of a given name. -/
def ofName? (s : String) : Option AddressSpace := all.find? fun a => a.name == s

theorem mem_all (a : AddressSpace) : a ∈ all := by cases a <;> decide

@[simp] theorem all_index (a : AddressSpace) : all[(a.index : Nat)]? = some a := by
  cases a <;> rfl

theorem index_injective {a b : AddressSpace} (h : a.index = b.index) : a = b := by
  revert h; cases a <;> cases b <;> decide

theorem ofName?_name (a : AddressSpace) : ofName? a.name = some a := by
  cases a <;> decide

end AddressSpace

end DeviceTypes
