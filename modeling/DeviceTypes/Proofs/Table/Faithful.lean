import DeviceTypes.Proofs.Table.Sharded
import DeviceTypes.Proofs.Workspace.Descent
/-!
# Type tables are faithful

A type table is a lawful interner. Whatever a program calls takes its
tables one step of the interner, or leaves them as they are
(`World.tables_run_eq_step`), so the tables of a program have come of a
history of the interner, and they go on from there
(`World.Leads.tables_eq_after`). They are faithful over every history of
calls, and would be still if each were laid out in shards with packed
handles. This is the main statement, `tables_faithful`.
-/

namespace DeviceTypes

namespace Table

/-- Type tables, seen from outside. They have room for everything. -/
abbrev interner : Interner Handle Shape where
  Store := Table
  datum := .primitive
  primitive := .primitive
  Loose h := ∃ w, h = .loose w
  empty := empty
  intern t s := (some (t.intern s).1, (t.intern s).2)
  find? := find?
  get? := get?
  contains := contains
  size := size

/-- The table numbered `n` has the compounds `ds`, in this order. -/
def Lists (n : Nat) (ds : List Shape) (t : Table) : Prop :=
  t.number = n ∧ t.entries.map .compound = ds

theorem isSome_find?_compound (t : Table) (c : Compound) :
    (t.find? (.compound c)).isSome ↔ c ∈ t.entries := by
  rw [find?]
  split <;> simp [*]

/-- A table knows no handle that carries another number. -/
theorem get?_minted_of_ne {t : Table} {n i : Nat} (h : n ≠ t.number) :
    t.get? (.minted n i) = none := if_neg h

/-- A shape that the table has not is a compound, and it comes last. -/
theorem intern_new {n : Nat} {ds : List Shape} {t : Table} {s : Shape} (ht : Lists n ds t)
    (hf : t.find? s = none) :
    ∃ h t', t.intern s = (h, t') ∧ Lists n (ds ++ [s]) t' ∧ t'.find? s = some h ∧
      (∀ s' h', t.find? s' = some h' → t'.find? s' = some h') ∧
      ∀ h' s', t.get? h' = some s' → t'.get? h' = some s' := by
  cases s with
  | primitive p => cases hf
  | compound c =>
    have hnew : c ∉ t.entries := by
      rw [← t.isSome_find?_compound c, hf]
      exact Bool.false_ne_true
    refine ⟨_, _, rfl, ⟨?_, ?_⟩, find?_intern t (.compound c), fun s' h' hs' => ?_, fun h' s' hs' => ?_⟩
    · rw [number_adding, ht.1]
    · rw [entries_adding, if_neg hnew, List.map_append, ht.2]
      rfl
    · exact find?_of_get? (get?_intern (get?_of_find? hs') (.compound c))
    · exact get?_intern hs' (.compound c)

/-- **Type tables are lawful.** -/
theorem lawful : interner.Lawful Lists where
  empty n := ⟨rfl, rfl⟩
  nodup {n ds t} ht := by
    rw [← ht.2]
    exact t.nodup.map fun _ _ => Shape.compound.inj
  compound {n ds t} ht d hd p := by
    rw [← ht.2] at hd
    obtain ⟨c, -, rfl⟩ := List.mem_map.1 hd
    exact Shape.noConfusion
  size {n ds t} ht := by
    rw [← ht.2, List.length_map]
    rfl
  contains {n ds t} _ := t.contains_eq_isSome_get?
  find?_datum _ _ := rfl
  isSome_find? {n ds t d} ht hd := by
    cases d with
    | primitive p => exact absurd rfl (hd p)
    | compound c =>
      rw [← ht.2, List.mem_map_of_injective fun _ _ => Shape.compound.inj]
      exact t.isSome_find?_compound c
  get?_of_find? _ hf := Table.get?_of_find? hf
  get?_loose _ hh := by
    obtain ⟨w, rfl⟩ := hh
    rfl
  get?_apart {n ds t m ds' t' d h} ht ht' hnm hd hf := by
    cases d with
    | primitive p => exact absurd rfl (hd p)
    | compound c =>
      change (if c ∈ t'.entries then some (t'.handleOf c) else none) = some h at hf
      rw [Option.ite_none_right_eq_some, Option.some.injEq] at hf
      obtain ⟨-, rfl⟩ := hf
      refine get?_minted_of_ne ?_
      rw [ht.1, ht'.1]
      exact hnm.symm
  intern_of_find? {n ds t d h} _ hf := by
    have hi : t.intern d = (h, t) := Table.intern_of_find? hf
    change (some (t.intern d).1, (t.intern d).2) = _
    rw [hi]
  intern_new {n ds t d} ht hf := by
    obtain ⟨h, t', hi, hrest⟩ := Table.intern_new ht hf
    refine Or.inr ⟨h, t', ?_, hrest⟩
    change (some (t.intern d).1, (t.intern d).2) = _
    rw [hi]

end Table

/-! ## The tables of a program -/

/-- A table that has gained one compound at most has come of interning it, or is
what it was. -/
theorem Table.Gains.set_eq {ts : List Table} {n : Nat} {t t' : Table} (hg : t.Gains t')
    (ht : ts[n]? = some t) :
    ts.set n t' = ts ∨ ∃ c, ts.set n t' = (interner.step ts c).2 := by
  cases hg with
  | none =>
    obtain ⟨hn, rfl⟩ := List.getElem?_eq_some_iff.1 ht
    exact Or.inl (List.set_getElem_self hn)
  | @one c _ =>
    have hstep := Interner.step_intern (I := interner) ht (.compound c)
    exact Or.inr ⟨.intern n (.compound c), hstep.symm⟩

namespace World

variable {w w' : World}

/-- **A call of a program takes its tables one step**, or leaves them as they are. -/
theorem tables_run_eq_step (hw : w.workspace.Sound) {call : Call}
    (hc : ∀ h ∈ call.handles, w.workspace.Issued h) :
    (w.run call).workspace.tables = w.workspace.tables ∨
      ∃ c, (w.run call).workspace.tables = (Table.interner.step w.workspace.tables c).2 := by
  rcases tables_run hw hc with heq | heq | ⟨n, t, t', ht, hg, heq⟩
  · exact Or.inl heq
  · exact Or.inr ⟨.newTable, heq⟩
  · rw [heq]
    exact hg.set_eq ht

/-- **Where tables have come of a history, any later ones have come of its
continuation.** -/
theorem Leads.tables_eq_after (hl : w.Leads w') (hw : w.workspace.Sound)
    {calls : List (Interner.Call Handle Shape)}
    (hcalls : w.workspace.tables = Table.interner.after calls) :
    ∃ more, w'.workspace.tables = Table.interner.after (calls ++ more) := by
  induction hl with
  | refl => exact ⟨[], by rw [List.append_nil, hcalls]⟩
  | call call hl hc ih =>
    obtain ⟨more, hmore⟩ := ih
    rcases tables_run_eq_step (hl.sound hw) hc with hsame | ⟨c, hstep⟩
    · exact ⟨more, hsame.trans hmore⟩
    · refine ⟨more ++ [c], ?_⟩
      rw [hstep, hmore, ← List.append_assoc, Interner.after_concat]

end World

/-- **Tables are faithful over whole histories.** Whatever is called on however
many tables: an interned shape is read back, two shapes interned in one table
have one handle only if they are equal, a known handle is interned again as it
is, nothing read ever changes, exactly the primitives and what was interned
are found, without growth, each new compound counts once, and two tables share
no handle but those of the primitives. The tables that lie in shards keep to the
same, for all compounds and every hash. And such histories are all that a
program's tables go through: wherever it has come to, and wherever it goes from
there. -/
theorem tables_faithful :
    Table.interner.Faithful ∧
      (∀ (C : Type) [DecidableEq C] (hash : C → UInt64), (Sharded.interner hash).Faithful) ∧
      ∀ w : World, w.Reachable → ∃ calls, w.workspace.tables = Table.interner.after calls ∧
        ∀ w', w.Leads w' → ∃ more, w'.workspace.tables = Table.interner.after (calls ++ more) := by
  refine ⟨Table.lawful.faithful, fun _ _ hash => (Sharded.lawful hash).faithful, fun w hw => ?_⟩
  have hempty : World.empty.workspace.tables = Table.interner.after [] := rfl
  obtain ⟨calls, hcalls⟩ := hw.tables_eq_after Workspace.sound_empty hempty
  exact ⟨calls, hcalls, fun w' hl => hl.tables_eq_after hw.sound hcalls⟩

end DeviceTypes
