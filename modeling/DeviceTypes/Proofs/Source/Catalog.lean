import Mathlib.Data.List.Nodup
import Mathlib.Data.List.Perm.Subperm
import Mathlib.Logic.Relation
import DeviceTypes.Source.Catalog
/-!
# Identifiers and names of source types

There are finitely many identifiers (`TypeId.mem_all`), and what goes
through different ones ends.

The name of a pointer or an array has the name of its element in it, so a
name is found by going down from element to element. Where elements do not
come round in a circle, each step is at another entry of the catalogue,
and the descent ends before its levels do (`Grounded.nameBelow_eq_nameOf`).
-/

namespace DeviceTypes.Source

namespace TypeId

/-- Every identifier there is. -/
def all : List TypeId := (List.range UInt32.size).map ofIndex

theorem index_injective : Function.Injective index := by
  intro i j hij
  rw [← ofIndex_index i, hij, ofIndex_index]

theorem mem_all (i : TypeId) : i ∈ all :=
  List.mem_map.2 ⟨i.index, List.mem_range.2 i.number.toNat_lt, ofIndex_index i⟩

theorem nodup_all : all.Nodup := by
  refine List.Nodup.of_map index ?_
  have hindex : all.map index = List.range UInt32.size := by
    rw [all, List.map_map]
    refine (List.map_congr_left fun n hn => ?_).trans (List.map_id _)
    exact index_ofIndex (List.mem_range.1 hn)
  rw [hindex]
  exact List.nodup_range

end TypeId

/-- What a pointer points to, or what an array repeats. -/
def Descriptor.element? : Descriptor → Option TypeId
  | pointer element | array element _ => some element
  | scalar _ | composite _ | external _ => none

namespace Catalog

variable {c : Catalog} {i e : TypeId} {around : List TypeId}

theorem get?_of_composite? {d : Composite} (h : c.composite? i = some d) :
    c.get? i = some (.composite d) := by
  obtain ⟨x, hx, hd⟩ := Option.bind_eq_some_iff.1 h
  cases x with
  | composite d' =>
    obtain rfl := Option.some.inj hd
    exact hx
  | scalar _ | pointer _ | array _ _ | external _ => cases hd

/-- `i` is a pointer to `e`, or an array of it. -/
def HasElement (c : Catalog) (i e : TypeId) : Prop :=
  (c.get? i).bind Descriptor.element? = some e

/-- No pointer or array comes round to itself through pointers and arrays alone. -/
def Grounded (c : Catalog) : Prop := ∀ i, ¬ Relation.TransGen c.HasElement i i

theorem HasElement.listed (h : c.HasElement i e) : (c.get? i).isSome := by
  obtain ⟨d, hd, -⟩ := Option.bind_eq_some_iff.1 h
  exact Option.isSome_of_eq_some hd

theorem listed_of_transGen (h : Relation.TransGen c.HasElement i e) : (c.get? i).isSome := by
  obtain ⟨x, hx, -⟩ := Relation.TransGen.head'_iff.1 h
  exact hx.listed

/-- No more different types are listed than there are entries. -/
theorem length_le_of_listed (hnodup : around.Nodup) (h : ∀ i ∈ around, (c.get? i).isSome) :
    around.length ≤ c.size := by
  have hsub : around.map TypeId.index ⊆ List.range c.size := by
    intro n hn
    obtain ⟨i, hi, rfl⟩ := List.mem_map.1 hn
    obtain ⟨d, hd⟩ := Option.isSome_iff_exists.1 (h i hi)
    exact List.mem_range.2 (List.getElem?_eq_some_iff.1 hd).1
  have hle := (List.subperm_of_subset (List.Nodup.map TypeId.index_injective hnodup) hsub).length_le
  rwa [List.length_map, List.length_range] at hle

/-- Inside the types `around`, which all lead to `i` by their elements, levels
beyond the number of entries are not felt. -/
theorem Grounded.nameBelow_eq (hc : c.Grounded) {depth depth' : Nat} (hnodup : around.Nodup)
    (haround : ∀ j ∈ around, Relation.TransGen c.HasElement j i)
    (hdepth : c.size < depth + around.length) (hdepth' : c.size < depth' + around.length) :
    c.nameBelow depth i = c.nameBelow depth' i := by
  have hlength : around.length ≤ c.size :=
    length_le_of_listed hnodup fun j hj => listed_of_transGen (haround j hj)
  induction depth generalizing around i depth' with
  | zero => omega
  | succ depth ih =>
    obtain ⟨depth', rfl⟩ : ∃ n, depth' = n + 1 := ⟨depth' - 1, by omega⟩
    -- one level down, the type at hand is one of those around
    have hbelow : ∀ e, c.HasElement i e → c.nameBelow depth e = c.nameBelow depth' e := by
      intro e he
      have hi : i ∉ around := fun hi => hc i (haround i hi)
      have haround' : ∀ j ∈ i :: around, Relation.TransGen c.HasElement j e :=
        List.forall_mem_cons.2 ⟨.single he, fun j hj => (haround j hj).tail he⟩
      have hnodup' := List.nodup_cons.2 ⟨hi, hnodup⟩
      have hlength' : (i :: around).length ≤ c.size :=
        length_le_of_listed hnodup' fun j hj => listed_of_transGen (haround' j hj)
      refine ih hnodup' haround' ?_ ?_ hlength'
      all_goals
        rw [List.length_cons]
        omega
    rw [nameBelow, nameBelow]
    rcases hd : c.get? i with - | s | e | ⟨e, length⟩ | d | name
    case some.pointer =>
      have he : c.HasElement i e := by rw [HasElement, hd]; rfl
      simp only [hbelow e he]
    case some.array =>
      have he : c.HasElement i e := by rw [HasElement, hd]; rfl
      simp only [hbelow e he]
    all_goals rfl

/-- **A name needs no more levels than the catalogue has entries**, one for what
comes last apart. -/
theorem Grounded.nameBelow_eq_nameOf (hc : c.Grounded) {depth : Nat} (hdepth : c.size < depth)
    (i : TypeId) : c.nameBelow depth i = c.nameOf i :=
  hc.nameBelow_eq List.nodup_nil (List.forall_mem_nil _) hdepth (Nat.lt_succ_self _)

end Catalog

end DeviceTypes.Source
