import DeviceTypes.Proofs.Table.Interner
import DeviceTypes.Proofs.Table.Shard
import Mathlib.Algebra.BigOperators.Fin
import Mathlib.Algebra.Order.BigOperators.Group.Finset
/-!
# Tables in shards

How a table is laid out in memory. Its data lie in sixteen shards, and a
hash says which shard a compound belongs to, so that sessions rarely wait
for each other. The primitives take the first slots of the first shard,
and compounds may follow them there.

The data are primitives and whatever compounds `C` there are, and the hash
is any function. Nothing below depends on how it spreads them: a table in
shards is a lawful interner (`Sharded.lawful`).
-/

namespace DeviceTypes

variable {C : Type}

/-- A table in sixteen shards. -/
structure Sharded (C : Type) where
  /-- The number stamped into the handles that this table mints; never zero. -/
  id : Nat
  shards : Fin 16 → Shard C

namespace Sharded

/-- The table numbered `n` as it is made: the first shard has the primitives, the
others are empty. -/
def empty (n : Nat) : Sharded C := ⟨n + 1, fun k => if k = 0 then .primitives else .empty⟩

variable (hash : C → UInt64)

/-- The shard that a compound belongs to. -/
def shardFor (c : C) : Fin 16 := Fin.ofNat 16 (hash c).toNat

/-- Whether a handle is a primitive or carries the number of the table. -/
def owns (t : Sharded C) (h : Packed) : Bool := h.isPrimitive || h.table == t.id

/-- What a handle stands for. -/
def get? (t : Sharded C) (h : Packed) : Option (Primitive ⊕ C) :=
  if t.owns h then (t.shards h.shard).data[h.slot]? else none

/-- Whether a handle was minted by the table, or is a primitive. -/
def contains (t : Sharded C) (h : Packed) : Bool :=
  t.owns h && h.slot < (t.shards h.shard).data.length

/-- How many data the table has, primitives included. -/
def size (t : Sharded C) : Nat := ∑ k, (t.shards k).data.length

/-- The table with one more compound in its shard. -/
def adding (t : Sharded C) (c : C) : Sharded C :=
  { t with
    shards := Function.update t.shards (shardFor hash c)
      ((t.shards (shardFor hash c)).push (.inr c)) }

theorem contains_eq (t : Sharded C) (h : Packed) : t.contains h = (t.get? h).isSome := by
  rw [contains, get?, Bool.eq_iff_iff]
  cases t.owns h <;> simp

/-- Only primitives and its own handles mean anything to a table. -/
theorem get?_of_table_ne {t : Sharded C} {h : Packed} (hp : h.isPrimitive = false) (hne : h.table ≠ t.id) :
    t.get? h = none := by
  have howns : t.owns h = false := by simp [owns, hp, hne]
  rw [get?, howns]
  rfl

/-- A table is at least as large as each of its shards. -/
theorem length_le_size (t : Sharded C) (k : Fin 16) : (t.shards k).data.length ≤ t.size :=
  Finset.single_le_sum (f := fun k => (t.shards k).data.length) (fun _ _ => Nat.zero_le _)
    (Finset.mem_univ k)

theorem shards_adding (hash : C → UInt64) (t : Sharded C) (c : C) :
    (t.adding hash c).shards = Function.update t.shards (shardFor hash c)
      ((t.shards (shardFor hash c)).push (.inr c)) := rfl

theorem data_adding (hash : C → UInt64) (t : Sharded C) (c : C) (k : Fin 16) :
    ((t.adding hash c).shards k).data =
      (t.shards k).data ++ if k = shardFor hash c then [.inr c] else [] := by
  rw [shards_adding]
  by_cases hk : k = shardFor hash c
  · subst hk
    simp [Shard.push]
  · simp [hk]

theorem size_adding (hash : C → UInt64) (t : Sharded C) (c : C) :
    (t.adding hash c).size = t.size + 1 := by
  have hone : ∑ k, (if k = shardFor hash c then [(.inr c : Primitive ⊕ C)] else []).length = 1 := by
    simp only [apply_ite List.length, List.length_singleton, List.length_nil]
    rw [Finset.sum_ite_eq' Finset.univ, if_pos (Finset.mem_univ _)]
  simp only [size, data_adding, List.length_append, Finset.sum_add_distrib, hone]

theorem get?_adding (hash : C → UInt64) {t : Sharded C} {h : Packed}
    {d : Primitive ⊕ C} (c : C) (hd : t.get? h = some d) :
    (t.adding hash c).get? h = some d := by
  simp only [get?, Option.ite_none_right_eq_some] at hd ⊢
  obtain ⟨howns, hd⟩ := hd
  refine ⟨howns, ?_⟩
  rw [data_adding, List.getElem?_append_left (List.getElem?_eq_some_iff.1 hd).1]
  exact hd

variable [DecidableEq C]

/-- The handle of a datum that the table has. -/
def find? (t : Sharded C) : Primitive ⊕ C → Option Packed
  | .inl p => some (.primitive p)
  | .inr c =>
    let k := shardFor hash c
    ((t.shards k).slot? (.inr c)).map (.inTable t.id k)

/-- The handle of a datum, nothing where its shard is full, and the table that
has it. -/
def intern (t : Sharded C) : Primitive ⊕ C → Option Packed × Sharded C
  | .inl p => (some (.primitive p), t)
  | .inr c =>
    let k := shardFor hash c
    let s := t.shards k
    match s.slot? (.inr c) with
    | some slot => (some (.inTable t.id k slot), t)
    | none =>
      if s.data.length ≤ Packed.lastSlot then
        (some (.inTable t.id k (UInt32.ofNat s.data.length)), t.adding hash c)
      else (none, t)

/-- Tables in shards, seen from outside. -/
def interner : Interner Packed (Primitive ⊕ C) where
  Store := Sharded C
  datum := .inl
  primitive := .primitive
  Loose h := h.table = 0 ∧ h.isPrimitive = false
  empty := empty
  intern := intern hash
  find? := find? hash
  get? := get?
  contains := contains
  size := size

/-- The table numbered `n` is sound and has the compounds `ds`. -/
structure Holds (n : Nat) (ds : List (Primitive ⊕ C)) (t : Sharded C) : Prop where
  id_eq : t.id = n + 1
  sound : ∀ k, (t.shards k).Sound
  primitive : ∀ p : Primitive, (t.shards 0).data[p.index.val]? = some (.inl p)
  mem_iff : ∀ c, .inr c ∈ (t.shards (shardFor hash c)).data ↔ .inr c ∈ ds
  compound : ∀ d ∈ ds, ∃ c, d = .inr c
  nodup : ds.Nodup
  size_eq : t.size = Primitive.count + ds.length

variable {hash} {n : Nat} {ds : List (Primitive ⊕ C)} {t : Sharded C}

theorem holds_empty (hash : C → UInt64) (n : Nat) : Holds hash n [] (empty n) where
  id_eq := rfl
  sound k := by
    simp only [empty]
    split
    · exact Shard.sound_primitives.1
    · exact Shard.sound_empty
  primitive p := by
    change (Shard.primitives : Shard C).data[p.index.val]? = some (.inl p)
    rw [Shard.sound_primitives.2]
    cases p <;> rfl
  mem_iff c := by
    simp only [empty]
    split
    · simp [Shard.sound_primitives.2]
    · simp [Shard.empty]
  compound := List.forall_mem_nil _
  nodup := List.nodup_nil
  size_eq := by
    have hrest : ∀ k : Fin 15, ((empty n : Sharded C).shards k.succ).data.length = 0 := by
      intro k
      rw [empty]
      simp [Fin.succ_ne_zero, Shard.empty]
    rw [size, Fin.sum_univ_succ, Finset.sum_congr rfl fun k _ => hrest k]
    change (Shard.primitives : Shard C).data.length + _ = _
    rw [Shard.sound_primitives.2]
    simp

variable {d : Primitive ⊕ C} {h : Packed}

theorem Holds.find?_inr_iff (ht : Holds hash n ds t) {c : C} :
    find? hash t (.inr c) = some h ↔
      ∃ i : UInt32, h = .inTable (n + 1) (shardFor hash c) i ∧ i.toNat < 2 ^ 28 ∧
        (t.shards (shardFor hash c)).data[i.toNat]? = some (.inr c) := by
  have hs := ht.sound (shardFor hash c)
  simp only [find?, Option.map_eq_some_iff, ht.id_eq]
  constructor
  · rintro ⟨i, hi, rfl⟩
    exact ⟨i, rfl, hs.slot_lt hi, (hs.slot?_iff _ i).1 hi⟩
  · rintro ⟨i, rfl, -, hi⟩
    exact ⟨i, (hs.slot?_iff _ i).2 hi, rfl⟩

/-- **What is found is read back.** -/
theorem Holds.get?_of_find? (ht : Holds hash n ds t) (hf : find? hash t d = some h) :
    t.get? h = some d := by
  rcases d with p | c
  · obtain rfl := Option.some.inj hf
    rw [get?, owns, Packed.isPrimitive_primitive, Packed.shard_primitive, Packed.slot_primitive]
    exact ht.primitive p
  · obtain ⟨i, rfl, hlt, hi⟩ := ht.find?_inr_iff.1 hf
    have howns : t.owns (.inTable (n + 1) (shardFor hash c) i) = true := by
      simp [owns, Packed.inTable, ht.id_eq]
    rw [get?, if_pos howns, Packed.shard_inTable _ _ hlt, Packed.slot_inTable _ _ hlt]
    exact hi

/-- **Another table's handle of a compound is unknown.** -/
theorem Holds.get?_apart (ht : Holds hash n ds t) {m : Nat} {ds' : List (Primitive ⊕ C)}
    {t' : Sharded C} (ht' : Holds hash m ds' t') (hnm : n ≠ m)
    (hd : (interner hash).Compound d) (hf : find? hash t' d = some h) : t.get? h = none := by
  rcases d with p | c
  · exact absurd rfl (hd p)
  · obtain ⟨i, rfl, -, -⟩ := ht'.find?_inr_iff.1 hf
    refine get?_of_table_ne (Packed.isPrimitive_of_table_ne_zero ?_) ?_
    · exact Nat.succ_ne_zero m
    · rw [ht.id_eq]
      intro hid
      exact hnm (Nat.succ.inj hid).symm

/-- **One more compound** goes to the end of its shard. -/
theorem Holds.adding (ht : Holds hash n ds t) {c : C} (hf : find? hash t (.inr c) = none)
    (hlt : (t.shards (shardFor hash c)).data.length < 2 ^ 28) :
    Holds hash n (ds ++ [.inr c]) (t.adding hash c) := by
  have hs := ht.sound (shardFor hash c)
  have hnone : (t.shards (shardFor hash c)).slot? (.inr c) = none := by
    simpa [find?] using hf
  have hnew : (.inr c : Primitive ⊕ C) ∉ ds := by
    rw [← ht.mem_iff, ← hs.isSome_slot?, hnone]
    exact Bool.false_ne_true
  exact {
    id_eq := ht.id_eq
    sound := fun k => by
      rw [shards_adding]
      by_cases hk : k = shardFor hash c
      · subst hk
        rw [Function.update_self]
        exact hs.push hnone hlt
      · rw [Function.update_of_ne hk]
        exact ht.sound k
    primitive := fun p => by
      rw [data_adding]
      rw [List.getElem?_append_left (List.getElem?_eq_some_iff.1 (ht.primitive p)).1]
      exact ht.primitive p
    mem_iff := fun c' => by
      rw [data_adding, List.mem_append, List.mem_append, ht.mem_iff]
      refine or_congr_right ?_
      by_cases hc : c' = c
      · simp [hc]
      · split <;> simp [hc]
    compound := fun d hd => by
      rcases List.mem_append.1 hd with hd | hd
      · exact ht.compound d hd
      · exact ⟨c, List.mem_singleton.1 hd⟩
    nodup := List.nodup_append.2 ⟨ht.nodup, List.nodup_singleton _, by
      rintro a ha b hb rfl
      exact hnew (List.mem_singleton.1 hb ▸ ha)⟩
    size_eq := by
      rw [size_adding, ht.size_eq, List.length_append]
      rfl }

/-- A datum that is found is interned without any change. -/
theorem intern_of_find? (hf : find? hash t d = some h) : intern hash t d = (some h, t) := by
  rcases d with p | c
  · cases hf
    rfl
  · obtain ⟨i, hi, rfl⟩ := Option.map_eq_some_iff.1 hf
    simp only [intern, hi]

/-- **Interning a new compound**: its shard is full, or it goes there. -/
theorem Holds.intern_new (ht : Holds hash n ds t) {c : C} (hf : find? hash t (.inr c) = none) :
    (intern hash t (.inr c) = (none, t) ∧ 2 ^ 28 ≤ t.size) ∨
      ∃ h, intern hash t (.inr c) = (some h, t.adding hash c) ∧
        find? hash (t.adding hash c) (.inr c) = some h ∧
        Holds hash n (ds ++ [.inr c]) (t.adding hash c) := by
  have hnone : (t.shards (shardFor hash c)).slot? (.inr c) = none := by
    simpa [find?] using hf
  simp only [intern, hnone]
  split
  · rename_i hroom
    have hlt : (t.shards (shardFor hash c)).data.length < 2 ^ 28 := Nat.lt_succ_of_le hroom
    refine Or.inr ⟨_, rfl, ?_, ht.adding hf hlt⟩
    simp only [find?, shards_adding, Function.update_self, Shard.slot?_push, if_true]
    rfl
  · rename_i hfull
    refine Or.inl ⟨rfl, Nat.le_trans ?_ (length_le_size t (shardFor hash c))⟩
    exact Nat.lt_of_not_le hfull

theorem find?_adding {c : C} (hf : find? hash t (.inr c) = none)
    (hd : find? hash t d = some h) : find? hash (t.adding hash c) d = some h := by
  rcases d with p | c'
  · exact hd
  · have hne : c' ≠ c := by
      rintro rfl
      rw [hf] at hd
      cases hd
    obtain ⟨i, hi, rfl⟩ := Option.map_eq_some_iff.1 hd
    have hi' : ((t.adding hash c).shards (shardFor hash c')).slot? (.inr c') = some i := by
      rw [shards_adding]
      by_cases hk : shardFor hash c' = shardFor hash c
      · rw [hk, Function.update_self, Shard.slot?_push, if_neg (by simpa using hne), ← hk, hi]
      · rw [Function.update_of_ne hk, hi]
    simp only [find?, hi']
    rfl

/-- **Tables in shards are lawful**, whatever the hash. -/
theorem lawful (hash : C → UInt64) : (interner hash).Lawful (Holds hash) where
  empty := holds_empty hash
  nodup ht := ht.nodup
  compound ht d hd p := by
    obtain ⟨c, rfl⟩ := ht.compound d hd
    exact Sum.inr_ne_inl
  size ht := ht.size_eq
  contains _ := contains_eq _
  find?_datum _ _ := rfl
  isSome_find? {n ds t d} ht hd := by
    rcases d with p | c
    · exact absurd rfl (hd p)
    · have hs := ht.sound (shardFor hash c)
      change ((((t.shards (shardFor hash c)).slot? (.inr c)).map _).isSome = true) ↔ _
      rw [Option.isSome_map, hs.isSome_slot?, ht.mem_iff]
  get?_of_find? ht hf := ht.get?_of_find? hf
  get?_loose ht hh := by
    refine get?_of_table_ne hh.2 ?_
    rw [hh.1, ht.id_eq]
    exact (Nat.succ_ne_zero _).symm
  get?_apart ht ht' hnm hd hf := ht.get?_apart ht' hnm hd hf
  intern_of_find? _ hf := intern_of_find? hf
  intern_new {n ds t d} ht hf := by
    rcases d with p | c
    · cases hf
    · rcases ht.intern_new hf with hfull | ⟨h, hi, hfind, hadded⟩
      · exact Or.inl hfull
      · exact Or.inr ⟨h, _, hi, hadded, hfind, fun _ _ hd => find?_adding hf hd,
          fun _ _ hd => get?_adding hash c hd⟩

end Sharded

end DeviceTypes
