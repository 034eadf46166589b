import DeviceTypes.Proofs.Source.Declarations
/-!
# Catalogues with an index

How a catalogue is laid out in memory. Beside the list of descriptors it has
an index of the structural ones, so that nothing is searched for. Declaring
writes to both and defining to the list alone, so they might come apart. They
do not: after any calls the index has the structural descriptors of the list,
each under its position, and nothing else (`Indexed.Represents`).

So the indexed catalogue answers every call as the plain one does, and both
are faithful to what was declared. This is the main statement,
`declarations_faithful`.
-/

namespace DeviceTypes.Source

open Catalog (Call Answer)

/-- A catalogue with an index of its structural descriptors. -/
structure Indexed where
  descriptors : List Descriptor
  /-- The identifiers of structural descriptors. -/
  index : List (Descriptor × TypeId)

namespace Indexed

/-- The catalogue that lists nothing. -/
def empty : Indexed := ⟨[], []⟩

/-- The identifier of a structural descriptor, by the index. -/
def find? (x : Indexed) (d : Descriptor) : Option TypeId :=
  if d.isStructural then x.index.lookup d else none

/-- The identifier of a descriptor, and the catalogue that lists it. -/
def declare (x : Indexed) (d : Descriptor) : TypeId × Indexed :=
  match x.find? d with
  | some i => (i, x)
  | none =>
    let i := .ofIndex x.descriptors.length
    (i, ⟨x.descriptors ++ [d], if d.isStructural then (d, i) :: x.index else x.index⟩)

/-- The catalogue as it is made: the scalars are declared one after another. -/
def scalars : Indexed := Scalar.all.foldl (fun x s => (x.declare (.scalar s)).2) empty

/-- Gives a composite its fields, in the list only. -/
def define (x : Indexed) (i : TypeId) (fields : List Field) : Bool × Indexed :=
  match x.descriptors[i.index]? with
  | some (.composite e) =>
    (true, { x with descriptors := x.descriptors.set i.index (.composite { e with fields }) })
  | _ => (false, x)

/-- The pointer to `element`, if the index has it. -/
def findPointer? (x : Indexed) (element : TypeId) : Option TypeId :=
  x.index.lookup (.pointer element)

/-- The answer to a call, and the catalogue after it. -/
def run (x : Indexed) (call : Call) : Answer × Indexed :=
  match call with
  | .define i fields => (.defined (x.define i fields).1, (x.define i fields).2)
  | .pointer element => declared (.pointer element)
  | .array element length => declared (.array element length)
  | .composite name family fields => declared (.composite ⟨name, family, fields⟩)
  | .forward name => declared (.composite ⟨name, none, []⟩)
  | .external name => declared (.external name)
where
  /-- A descriptor declared. -/
  declared (d : Descriptor) : Answer × Indexed := (.declared (x.declare d).1, (x.declare d).2)

/-- The catalogue after some calls. -/
def runAll (x : Indexed) (calls : List Call) : Indexed :=
  calls.foldl (fun x call => (x.run call).2) x

variable {x : Indexed} {c : Catalog} {d : Descriptor} {call : Call}

theorem run_of_descriptor? (h : call.descriptor? = some d) :
    x.run call = (.declared (x.declare d).1, (x.declare d).2) := by
  cases call <;> cases h <;> rfl

/-- The list is that of the catalogue, and the index has its structural descriptors
under the identifiers they are listed under, and nothing else. -/
structure Represents (x : Indexed) (c : Catalog) : Prop where
  descriptors_eq : x.descriptors = c.descriptors
  index : ∀ d i, x.index.lookup d = some i ↔ d.isStructural = true ∧ c.get? i = some d

namespace Represents

/-- **The index finds what a search of the list does.** -/
theorem find?_eq (hx : x.Represents c) (hc : c.Proper) (hsize : c.size < UInt32.size)
    (d : Descriptor) : x.find? d = c.find? d := by
  refine Option.ext fun i => ?_
  rw [find?, hc.find?_eq_some_iff hsize, Option.ite_none_right_eq_some, hx.index]
  exact ⟨fun h => h.2, fun h => ⟨h.1, h⟩⟩

theorem findPointer?_eq (hx : x.Represents c) (hc : c.Proper) (hsize : c.size < UInt32.size)
    (e : TypeId) : x.findPointer? e = c.findPointer? e :=
  hx.find?_eq hc hsize (.pointer e)

/-- **Declaring keeps list and index in step.** -/
theorem declare (hx : x.Represents c) (hc : c.Proper) (hsize : c.size < UInt32.size)
    (d : Descriptor) :
    (x.declare d).1 = (c.declare d).1 ∧ (x.declare d).2.Represents (c.declare d).2 := by
  have hlength : x.descriptors.length = c.size := congrArg List.length hx.descriptors_eq
  rw [Indexed.declare, Catalog.declare_eq, hx.find?_eq hc hsize, hlength]
  rcases hd : c.find? d with - | i
  case some => exact ⟨rfl, hx⟩
  refine ⟨rfl, congrArg (· ++ [d]) hx.descriptors_eq, fun e i => ?_⟩
  simp only [Catalog.get?_append hsize]
  by_cases he : e = d
  · subst he
    -- the new descriptor was not listed before, so it has no other identifier
    have hunlisted : e.isStructural = true → c.get? i ≠ some e := fun hs hi => by
      rw [(hc.find?_eq_some_iff hsize).2 ⟨hs, hi⟩] at hd
      cases hd
    cases hs : e.isStructural with
    | false => simp [hx.index, hs]
    | true =>
      rw [if_pos rfl, List.lookup_cons_self, Option.some.injEq]
      split
      · rename_i hi
        simp [hi]
      · rename_i hi
        simp [Ne.symm hi, hunlisted hs]
  · have hlookup : List.lookup e (if d.isStructural = true then (d, .ofIndex c.size) :: x.index
        else x.index) = x.index.lookup e := by
      split
      · rw [List.lookup_cons, beq_false_of_ne he]
      · rfl
    rw [hlookup, hx.index]
    refine and_congr_right fun _ => ?_
    split
    · rename_i hi
      simp [hi, Catalog.get?_ofIndex_size hsize, Ne.symm he]
    · rfl

theorem define_eq (hx : x.Represents c) (i : TypeId) (fields : List Field) :
    x.define i fields =
      match c.composite? i with
      | some e =>
        (true, { x with descriptors := c.descriptors.set i.index (.composite { e with fields }) })
      | none => (false, x) := by
  rw [define, Catalog.composite?, Catalog.get?, hx.descriptors_eq]
  rcases c.descriptors[i.index]? with - | - | - | - | e | - <;> rfl

/-- **So does defining**, for the index has no composites. -/
theorem define (hx : x.Represents c) (i : TypeId) (fields : List Field) :
    (x.run (.define i fields)).1 = (c.run (.define i fields)).1 ∧
      (x.run (.define i fields)).2.Represents (c.run (.define i fields)).2 := by
  rw [Indexed.run, hx.define_eq, Catalog.run_define]
  rcases hi : c.composite? i with - | e
  · exact ⟨rfl, hx⟩
  refine ⟨rfl, rfl, fun d j => ?_⟩
  rw [hx.index, Catalog.get?_set hi]
  refine and_congr_right fun hd => ?_
  split
  · rename_i hj
    rw [hj, Catalog.get?_of_composite? hi]
    cases d <;> simp_all [Descriptor.isStructural]
  · rfl

/-- **A call is answered alike and keeps list and index in step.** -/
theorem run (hx : x.Represents c) (hc : c.Proper) (hsize : c.size < UInt32.size) (call : Call) :
    (x.run call).1 = (c.run call).1 ∧ (x.run call).2.Represents (c.run call).2 := by
  rcases hcall : call.descriptor? with - | d
  · cases call with
    | define i fields => exact hx.define i fields
    | pointer _ | array _ _ | composite _ _ _ | forward _ | external _ => cases hcall
  · rw [run_of_descriptor? hcall, Catalog.run_of_descriptor? hcall]
    obtain ⟨hanswer, hnext⟩ := hx.declare hc hsize d
    exact ⟨congrArg Answer.declared hanswer, hnext⟩

/-- **So do any calls**, as long as there are identifiers for all entries. -/
theorem runAll (hx : x.Represents c) (hc : c.Proper) {calls : List Call}
    (hsize : (c.runAll calls).size < UInt32.size) :
    (x.runAll calls).Represents (c.runAll calls) := by
  induction calls generalizing x c with
  | nil => exact hx
  | cons call rest ih =>
    have hnow : c.size < UInt32.size := Nat.lt_of_le_of_lt (c.size_le_runAll (call :: rest)) hsize
    exact ih (hx.run hc hnow call).2 (hc.run call) hsize

end Represents

/-- The scalars declared one after another are the list of the scalars. -/
theorem represents_scalars : scalars.Represents .scalars where
  descriptors_eq := rfl
  index d i := by
    have honly : ∀ d, Catalog.scalars.get? i = some d → ∃ s, .scalar s = d := fun d hd =>
      (List.mem_map.1 (List.mem_of_getElem? hd)).imp fun _ hs => hs.2
    cases d with
    | scalar s =>
      have hfaithful := Catalog.proper_scalars.faithful (by decide)
      have hlookup : scalars.index.lookup (.scalar s) = some s.id := by cases s <;> rfl
      rw [hlookup, hfaithful.scalar, Option.some.injEq]
      exact ⟨fun hi => ⟨rfl, hi.symm⟩, fun hi => hi.2.symm⟩
    | pointer _ | array _ _ | composite _ | external _ =>
      constructor
      · intro hi
        cases hi
      · intro hi
        obtain ⟨s, hs⟩ := honly _ hi.2
        cases hs

end Indexed

/-- **Catalogues are faithful to what was declared**, plain or indexed. After any
calls, with any identifiers in them, and as long as there is an identifier for
each entry: scalars have their own identifiers, structural descriptors one
each; a pointer is found where it is listed; what is listed is not listed
again, and anything else comes last under a new identifier; fields are taken
for composites only, and change nothing else. Whatever calls follow, an
identifier keeps its kind, name and family, and all but the fields if these
are never defined for it. A catalogue with an index has the same list, has in
its index exactly the structural descriptors of the list, and answers every
further call alike. -/
theorem declarations_faithful (calls : List Call)
    (hsize : (Catalog.scalars.runAll calls).size < UInt32.size) :
    let c := Catalog.scalars.runAll calls
    let x := Indexed.scalars.runAll calls
    c.Faithful ∧
      (∀ i d more, c.get? i = some d →
        ∃ d', (c.runAll more).get? i = some d' ∧ d'.heading = d.heading ∧
          ((∀ fields, .define i fields ∉ more) → d' = d)) ∧
      x.Represents c ∧ (∀ e, x.findPointer? e = c.findPointer? e) ∧
      ∀ call, (x.run call).1 = (c.run call).1 := by
  intro c x
  have hc : c.Proper := Catalog.proper_scalars.runAll calls
  have hx : x.Represents c := Indexed.represents_scalars.runAll Catalog.proper_scalars hsize
  exact ⟨hc.faithful hsize, fun i d more hd => Catalog.get?_runAll hd more, hx,
    hx.findPointer?_eq hc hsize, fun call => (hx.run hc hsize call).1⟩

/-- A composite that points to itself, an array of nothing that is listed, the same
pointer twice and two composites of one name: the pointer is found and not
listed again, a third composite of that name is a new type, and only a
composite takes fields. -/
theorem declarations_faithful_node :
    let calls : List Call := [.forward "Node", .pointer ⟨11⟩, .array ⟨40⟩ 3, .pointer ⟨11⟩,
      .define ⟨11⟩ [⟨"next", ⟨12⟩⟩], .composite "Pair" (some "pair") [], .composite "Pair" none []]
    let c := Catalog.scalars.runAll calls
    let x := Indexed.scalars.runAll calls
    c.size = 16 ∧ c.findPointer? ⟨11⟩ = some ⟨12⟩ ∧ c.run (.pointer ⟨11⟩) = (.declared ⟨12⟩, c) ∧
      (∃ i c', c.run (.composite "Pair" none []) = (.declared i, c') ∧ i.index = 16) ∧
      c.run (.define ⟨12⟩ []) = (.defined false, c) ∧ x.findPointer? ⟨11⟩ = some ⟨12⟩ ∧
      (x.run (.array ⟨40⟩ 3)).1 = (c.run (.array ⟨40⟩ 3)).1 := by
  intro calls c x
  have hsize : c.size = 16 := by decide +kernel
  have hpointer : c.get? ⟨12⟩ = some (.pointer ⟨11⟩) := by decide +kernel
  have hother : c.composite? ⟨12⟩ = none := by decide +kernel
  obtain ⟨hfaithful, -, -, hfind, hrun⟩ := declarations_faithful calls (by decide +kernel)
  have hfound : c.findPointer? ⟨11⟩ = some ⟨12⟩ := (hfaithful.findPointer? _ _).2 hpointer
  obtain ⟨i, c', hnew, hi, -⟩ :=
    hfaithful.fresh (.composite "Pair" none []) _ rfl fun hs => by cases hs
  exact ⟨hsize, hfound, hfaithful.again (.pointer ⟨11⟩) _ _ rfl rfl hpointer,
    ⟨i, c', hnew, hi.trans hsize⟩, hfaithful.refused _ _ hother, (hfind _).trans hfound, hrun _⟩

end DeviceTypes.Source
