import DeviceTypes.Proofs.Layout.Levels
import Mathlib.Logic.Relation
/-!
# Closed layout caches

The layout of an array rests on that of its element, the layout of an
aggregate on those of its members, and the layout of a pointer on nothing.
A cache is closed when it has whatever its entries rest on, primitives
aside. A layout is stored once those below it are, so every computation of
layouts keeps a cache closed and takes nothing out of it, also where it
fails half-way (`Table.layoutBelow_fills`).

An aggregate whose members are all known to the cache is laid out in one
level. The layouts of its members are read off the cache and the
primitives, and no call is made inside theirs (`Aggregate.layoutIn_readOff`).
-/

namespace DeviceTypes

/-- The layout of `h` rests on that of `x`. -/
def Table.LaysOver (t : Table) (h x : Handle) : Prop :=
  ∃ k, t.get? h = some (.compound k) ∧ x ∈ k.layoutParts

namespace LayoutCache

/-- One cache is at most another when the other has a layout for whatever the
first has one for. -/
instance : Preorder LayoutCache where
  le c c' := ∀ h, (c.find? h).isSome → (c'.find? h).isSome
  le_refl _ _ hh := hh
  le_trans _ _ _ hle hle' h hh := hle' h (hle h hh)

/-- The layout of `h` is at hand: it is that of a primitive, or in the cache. -/
def Knows (c : LayoutCache) (h : Handle) : Prop :=
  h.isPrimitive = true ∨ (c.find? h).isSome = true

/-- The layout of a handle as far as it is at hand. -/
def readOff (c : LayoutCache) (h : Handle) : Except Rejection Layout :=
  match h.primitive? with
  | some p => .ok (.scalar p.bytes)
  | none =>
    match c.find? h with
    | some l => .ok l
    | none => .error (.unknownHandle h)

/-- The cache has one layout for a handle, and with it those it rests on. -/
structure Closed (c : LayoutCache) (t : Table) : Prop where
  nodup : (c.entries.map Prod.fst).Nodup
  parts : ∀ h, (c.find? h).isSome → ∃ k, t.get? h = some (.compound k) ∧
    ∀ x ∈ k.layoutParts, c.Knows x

variable {c c' : LayoutCache} {t t' : Table} {h x : Handle} {l : Layout}

theorem Knows.of_le (hh : c.Knows h) (hle : c ≤ c') : c'.Knows h :=
  hh.imp_right (hle h)

theorem insert_of_isPrimitive (hp : h.isPrimitive = true) (l : Layout) : c.insert h l = c := by
  rw [insert, if_pos hp]

/-- Storing a layout takes nothing out. -/
theorem le_insert (c : LayoutCache) (h : Handle) (l : Layout) : c ≤ c.insert h l := by
  intro k hk
  rcases hp : h.isPrimitive with _ | _
  · rw [find?_insert c hp]
    split
    · rfl
    · exact hk
  · rwa [insert_of_isPrimitive hp]

theorem knows_insert (c : LayoutCache) (h : Handle) (l : Layout) : (c.insert h l).Knows h := by
  rcases hp : h.isPrimitive with _ | _
  · refine Or.inr ?_
    rw [find?_insert c hp, if_pos rfl]
    rfl
  · exact Or.inl hp

/-! ## Closed caches -/

theorem closed_empty (t : Table) : empty.Closed t where
  nodup := List.nodup_nil
  parts h hh := by
    rw [find?_empty] at hh
    cases hh

/-- **No primitive is stored.** -/
theorem Closed.isPrimitive_eq_false (hc : c.Closed t) (hh : (c.find? h).isSome) :
    h.isPrimitive = false := by
  obtain ⟨k, hk, -⟩ := hc.parts h hh
  cases h with
  | primitive p => cases hk
  | minted table index => rfl
  | loose w => rfl

theorem Closed.settled (hc : c.Closed t) (hh : (c.find? h).isSome) : t.Settled h := by
  obtain ⟨k, hk, -⟩ := hc.parts h hh
  exact Table.settled_of_get? hk

/-- A closed cache stays closed while its table grows. -/
theorem Closed.of_le (hc : c.Closed t) (hle : t ≤ t') : c.Closed t' where
  nodup := hc.nodup
  parts h hh := by
    obtain ⟨k, hk, hparts⟩ := hc.parts h hh
    exact ⟨k, (Table.get?_of_le hle (Table.settled_of_get? hk)).trans hk, hparts⟩

/-- **What is stored last comes on top of what it rests on.** -/
theorem Closed.insert (hc : c.Closed t) {k : Compound} (hg : t.get? h = some (.compound k))
    (hparts : ∀ x ∈ k.layoutParts, c.Knows x) (l : Layout) : (c.insert h l).Closed t := by
  have hp : h.isPrimitive = false := by
    cases h with
    | primitive p => cases hg
    | minted table index => rfl
    | loose w => rfl
  refine ⟨?_, fun y hy => ?_⟩
  · rw [LayoutCache.insert, hp]
    refine List.nodup_cons.2 ⟨?_, hc.nodup.sublist (List.filter_sublist.map _)⟩
    intro hmem
    obtain ⟨e, he, heq⟩ := List.mem_map.1 hmem
    exact of_decide_eq_true (List.mem_filter.1 he).2 heq
  · -- either `y` is the handle stored just now, or it was there before
    rw [find?_insert c hp] at hy
    split at hy
    · rename_i heq
      exact ⟨k, heq ▸ hg, fun x hx => (hparts x hx).of_le (le_insert c h l)⟩
    · obtain ⟨d, hd, hknows⟩ := hc.parts y hy
      exact ⟨d, hd, fun x hx => (hknows x hx).of_le (le_insert c h l)⟩

/-- **A closed cache has all that a layout at hand rests on**, at any depth. -/
theorem Closed.knows_of_reflTransGen (hc : c.Closed t) (hh : c.Knows h)
    (hx : Relation.ReflTransGen t.LaysOver h x) : c.Knows x := by
  induction hx with
  | refl => exact hh
  | tail _ hstep ih =>
    obtain ⟨k, hk, hz⟩ := hstep
    rcases ih with hp | hcached
    · obtain ⟨p, rfl⟩ := Handle.isPrimitive_iff.1 hp
      cases hk
    · obtain ⟨d, hd, hparts⟩ := hc.parts _ hcached
      rw [hk] at hd
      cases hd
      exact hparts _ hz

end LayoutCache

/-! ## Filling a closed cache -/

namespace LayoutM

variable {α β : Type} {t : Table} {hs ks : List Handle}

/-- From a closed cache, `x` leaves a closed cache with nothing taken out, and
knows `hs` there unless it is rejected. -/
def Fills (t : Table) (x : LayoutM α) (hs : List Handle) : Prop :=
  ∀ c : LayoutCache, c.Closed t → ∃ (a : Except Rejection α) (c' : LayoutCache),
    x.run c = (a, c') ∧ c'.Closed t ∧ c ≤ c' ∧ ∀ v, a = .ok v → ∀ h ∈ hs, c'.Knows h

theorem fills_pure (a : α) : Fills t (pure a) [] :=
  fun c hc => ⟨_, c, rfl, hc, le_refl c, fun _ _ _ hh => absurd hh List.not_mem_nil⟩

theorem fills_throw (e : Rejection) (hs : List Handle) : Fills t (throw e : LayoutM α) hs :=
  fun c hc => ⟨_, c, rfl, hc, le_refl c, fun _ hv => nomatch hv⟩

theorem fills_ofExcept (a : Except Rejection α) : Fills t (MonadExcept.ofExcept a) [] := by
  cases a with
  | error e => exact fills_throw e []
  | ok a => exact fills_pure a

/-- One computation, then the one its answer chooses. -/
theorem Fills.bind {x : LayoutM α} {f : α → LayoutM β} (hx : Fills t x hs)
    (hf : ∀ v, Fills t (f v) ks) : Fills t (x >>= f) (hs ++ ks) := by
  intro c hc
  obtain ⟨a, c₁, hr, hc₁, hle, hknows⟩ := hx c hc
  rw [run_bind, hr]
  cases a with
  | error e => exact ⟨_, c₁, rfl, hc₁, hle, fun _ hv => nomatch hv⟩
  | ok v =>
    obtain ⟨b, c₂, hr', hc₂, hle', hknows'⟩ := hf v c₁ hc₁
    refine ⟨b, c₂, hr', hc₂, le_trans hle hle', fun w hw h hh => ?_⟩
    rcases List.mem_append.1 hh with hh | hh
    · exact (hknows v rfl h hh).of_le hle'
    · exact hknows' w hw h hh

end LayoutM

open LayoutM

section Rule

variable {t : Table} {f : Handle → LayoutM Layout}

theorem Placement.foldlM_place_fills (kind : AggregateKind) (packed : Bool)
    (members : List Member) (h : ∀ m ∈ members, Fills t (f m.type) [m.type]) (p : Placement) :
    Fills t
      (members.foldlM (fun p m => do
        let l ← f m.type
        MonadExcept.ofExcept (p.place kind packed l)) p)
      (members.map Member.type) := by
  induction members generalizing p with
  | nil => exact fills_pure p
  | cons m rest ih =>
    rw [List.forall_mem_cons] at h
    rw [List.foldlM_cons, bind_assoc]
    refine h.1.bind fun l => ?_
    exact (fills_ofExcept _).bind fun p' => ih h.2 p'

/-- **The layout rule fills a closed cache** with the parts, if it does so with
each of them. -/
theorem Compound.layoutIn_fills (target : Target) {k : Compound}
    (h : ∀ x ∈ k.layoutParts, Fills t (f x) [x]) :
    Fills t (k.layoutIn target f) k.layoutParts := by
  cases k with
  | pointer pointee space => exact fills_pure _
  | array element length =>
    exact (h element (List.mem_singleton.2 rfl)).bind fun l => fills_ofExcept _
  | aggregate a =>
    have hm : ∀ m ∈ a.members, Fills t (f m.type) [m.type] :=
      fun m hm => h m.type (List.mem_map_of_mem hm)
    have hplace := Placement.foldlM_place_fills a.kind a.isPacked a.members hm {}
    exact List.append_nil (Compound.aggregate a).layoutParts ▸
      hplace.bind fun placed => fills_ofExcept (placed.close a.alignment)

end Rule

namespace Table

variable {t : Table} {target : Target}

/-- **The cached descent fills a closed cache** with the handle it is asked for. -/
theorem layoutBelow_fills (t : Table) (target : Target) (depth : Nat) (h : Handle) :
    Fills t (t.layoutBelow target depth h) [h] := by
  induction depth generalizing h with
  | zero => exact fills_throw _ _
  | succ depth ih =>
    intro c hc
    rw [run_layoutBelow_succ]
    rcases hf : c.find? h with - | l
    · rcases hg : t.get? h with - | p | k
      · exact ⟨_, c, rfl, hc, le_refl c, fun _ hv => nomatch hv⟩
      · -- a primitive has its layout at hand and is not stored
        obtain rfl : h = .primitive p := (Option.some.inj (find?_of_get? hg)).symm
        refine ⟨_, c, rfl, hc, le_refl c, fun _ _ x hx => ?_⟩
        obtain rfl := List.mem_singleton.1 hx
        exact Or.inl rfl
      · obtain ⟨a, c', hr, hc', hle, hknows⟩ :=
          Compound.layoutIn_fills (k := k) target (fun x _ => ih x) c hc
        simp only [Shape.layoutIn, hr]
        cases a with
        | error e => exact ⟨_, c', rfl, hc', hle, fun _ hv => nomatch hv⟩
        | ok l =>
          refine ⟨_, c'.insert h l, rfl, hc'.insert hg (hknows l rfl) l,
            le_trans hle (c'.le_insert h l), fun _ _ x hx => ?_⟩
          obtain rfl := List.mem_singleton.1 hx
          exact c'.knows_insert x l
    · refine ⟨_, c, rfl, hc, le_refl c, fun _ _ x hx => ?_⟩
      obtain rfl := List.mem_singleton.1 hx
      refine Or.inr ?_
      rw [hf]
      rfl

theorem layoutOf_fills (t : Table) (target : Target) (h : Handle) :
    Fills t (t.layoutOf target h) [h] :=
  t.layoutBelow_fills target t.depth h

/-! ## One level -/

variable {c : LayoutCache} {x : Handle}

/-- **What is at hand is read off**, whatever a call inside the call would do. -/
theorem layoutCall_readOff (hc : c.Closed t) (inner : Handle → LayoutM Layout)
    (hx : c.Knows x) : Follows (· = c) (t.layoutCall target inner x) (c.readOff x) := by
  intro c' hc'
  subst hc'
  refine ⟨c', rfl, ?_⟩
  have hget : (get : LayoutM LayoutCache).run c' = (.ok c', c') := rfl
  rw [layoutCall, run_bind, hget, LayoutCache.readOff]
  rcases hf : c'.find? x with - | l
  · have hp : x.isPrimitive = true := hx.resolve_right (by rw [hf]; exact Bool.false_ne_true)
    obtain ⟨p, rfl⟩ := Handle.isPrimitive_iff.1 hp
    simp only [hf]
    rfl
  · have hp := hc.isPrimitive_eq_false (h := x) (by rw [hf]; rfl)
    have hnone : x.primitive? = none := by simpa [Handle.isPrimitive] using hp
    simp only [hf, hnone]
    rfl

end Table

/-- **An aggregate of members at hand is laid out in one level**: the layouts of its
members are read off, and the cache stays as it is. -/
theorem Aggregate.layoutIn_readOff {t : Table} {c : LayoutCache} (hc : c.Closed t)
    (target : Target) (inner : Handle → LayoutM Layout) {a : Aggregate}
    (ha : ∀ m ∈ a.members, c.Knows m.type) :
    (a.layoutIn (t.layoutCall target inner)).run.run c = (a.layoutIn c.readOff, c) := by
  have hparts : ∀ x ∈ (Compound.aggregate a).layoutParts,
      Follows (· = c) (t.layoutCall target inner x) (c.readOff x) := by
    intro x hx
    obtain ⟨m, hm, rfl⟩ := List.mem_map.1 hx
    exact Table.layoutCall_readOff hc inner (ha m hm)
  obtain ⟨_, rfl, hr⟩ := Compound.layoutIn_follows target hparts c rfl
  exact hr

end DeviceTypes
