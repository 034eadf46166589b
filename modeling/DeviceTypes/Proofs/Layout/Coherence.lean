import DeviceTypes.Proofs.Layout.Anew
/-!
# Coherent layout caches

A cache is coherent for a table and a target when each layout it holds is
the one that is worked out anew. The cached descent then follows the
uncached one: from a coherent cache it gives the same layout or the same
rejection, whatever the cache holds, and leaves a coherent cache behind,
also where it fails (`layoutOf_follows`).
-/

namespace DeviceTypes

/-- Every layout in the cache is the one worked out anew. -/
def LayoutCache.Coherent (c : LayoutCache) (t : Table) (target : Target) : Prop :=
  ∀ h l, c.find? h = some l → t.layoutAnew target h = .ok l

namespace LayoutCache

variable {c : LayoutCache} {t : Table} {target : Target}

theorem coherent_empty (t : Table) (target : Target) : empty.Coherent t target := by
  intro h l hl
  simp at hl

/-- Storing a true layout keeps a cache coherent. -/
theorem Coherent.insert (hc : c.Coherent t target) {h : Handle} {l : Layout}
    (hl : t.layoutAnew target h = .ok l) : (c.insert h l).Coherent t target := by
  intro k m hm
  cases hp : h.isPrimitive with
  | true => exact hc k m (by simpa [LayoutCache.insert, hp] using hm)
  | false =>
    rw [find?_insert c hp] at hm
    split at hm
    · rename_i hk
      rw [hk, hl, Option.some.inj hm]
    · exact hc k m hm

/-- A coherent cache stays coherent while its table grows. -/
theorem Coherent.of_le {t' : Table} (hc : c.Coherent t target) (ho : t.Ordered)
    (ho' : t'.Ordered) (hle : t ≤ t') : c.Coherent t' target := by
  intro h l hl
  have hold := hc h l hl
  obtain ⟨s, hs, -⟩ := ho.get?_of_layoutAnew hold
  rw [ho.layoutAnew_of_le ho' hle (Table.settled_of_get? hs), hold]

end LayoutCache

namespace LayoutM

variable {α β : Type}

/-- Two computations of layouts, one after the other. -/
theorem run_bind (x : LayoutM α) (f : α → LayoutM β) (c : LayoutCache) :
    (x >>= f).run c =
      match x.run c with
      | (.ok a, c') => (f a).run c'
      | (.error e, c') => (.error e, c') := by
  simp only [Bind.bind, ExceptT.run, ExceptT.bind, ExceptT.mk, StateT.bind]
  rcases x c with ⟨e | a, c'⟩ <;> rfl

/-- From any cache with the property, `x` answers `a` and leaves a cache with
the property. -/
def Follows (I : LayoutCache → Prop) (x : LayoutM α) (a : Except Rejection α) : Prop :=
  ∀ c, I c → ∃ c', I c' ∧ x.run c = (a, c')

variable {I : LayoutCache → Prop}

theorem follows_pure (a : α) : Follows I (pure a) (.ok a) :=
  fun c hc => ⟨c, hc, rfl⟩

theorem follows_throw (e : Rejection) : Follows I (throw e : LayoutM α) (.error e) :=
  fun c hc => ⟨c, hc, rfl⟩

theorem follows_ofExcept (a : Except Rejection α) : Follows I (MonadExcept.ofExcept a) a := by
  cases a with
  | error e => exact follows_throw e
  | ok a => exact follows_pure a

/-- One computation, then the one its answer chooses. -/
theorem Follows.bind {x : LayoutM α} {a : Except Rejection α} {f : α → LayoutM β}
    {b : α → Except Rejection β} (hx : Follows I x a)
    (hf : ∀ v, a = .ok v → Follows I (f v) (b v)) : Follows I (x >>= f) (a.bind b) := by
  intro c hc
  obtain ⟨c₁, hc₁, hr⟩ := hx c hc
  rw [run_bind, hr]
  cases a with
  | error e => exact ⟨c₁, hc₁, rfl⟩
  | ok v => exact hf v rfl c₁ hc₁

end LayoutM

open LayoutM

section Rule

variable {I : LayoutCache → Prop} {f : Handle → LayoutM Layout}
  {g : Handle → Except Rejection Layout}

/-- Members are placed alike with a cache and without one. -/
theorem Placement.foldlM_place_follows (kind : AggregateKind) (packed : Bool)
    (members : List Member) (h : ∀ x ∈ members, Follows I (f x.type) (g x.type)) (p : Placement) :
    Follows I
      (members.foldlM (fun p x => do
        let l ← f x.type
        MonadExcept.ofExcept (p.place kind packed l)) p)
      (p.placeEach kind packed (members.map fun x => g x.type)) := by
  induction members generalizing p with
  | nil => exact follows_pure p
  | cons x rest ih =>
    rw [List.foldlM_cons, bind_assoc]
    refine (h x (List.mem_cons_self ..)).bind fun l _ => ?_
    refine (follows_ofExcept _).bind fun p' _ => ?_
    exact ih (fun y hy => h y (List.mem_cons_of_mem _ hy)) p'

/-- **The layout rule carries a cache along**: where the parts are laid out
alike with a cache and without one, so is the whole. -/
theorem Compound.layoutIn_follows (target : Target) {c : Compound}
    (h : ∀ x ∈ c.layoutParts, Follows I (f x) (g x)) :
    Follows I (c.layoutIn target f) (c.layoutIn target g) := by
  cases c with
  | pointer pointee space => exact follows_pure _
  | array element length =>
    rw [Compound.layoutIn_array]
    exact (h element (List.mem_singleton.2 rfl)).bind fun l _ => follows_ofExcept _
  | aggregate a =>
    simp only [Compound.layoutIn, Aggregate.layoutIn_eq]
    refine (Placement.foldlM_place_follows a.kind a.isPacked a.members ?_ {}).bind
      fun placed _ => follows_ofExcept _
    exact fun x hx => h x.type (List.mem_map_of_mem hx)

theorem Shape.layoutIn_follows (target : Target) {s : Shape}
    (h : ∀ x ∈ s.parts, Follows I (f x) (g x)) :
    Follows I (s.layoutIn target f) (s.layoutIn target g) := by
  cases s with
  | primitive p => exact follows_pure _
  | compound c =>
    exact Compound.layoutIn_follows target fun x hx => h x (c.layoutParts_subset_parts hx)

end Rule

namespace Table

variable {t : Table} {target : Target}

/-- **One level of the cached descent.** -/
theorem run_layoutBelow_succ (depth : Nat) (h : Handle) (c : LayoutCache) :
    (t.layoutBelow target (depth + 1) h).run c =
      match c.find? h with
      | some l => (.ok l, c)
      | none =>
        match t.get? h with
        | none => (.error (.unknownHandle h), c)
        | some s =>
          match (s.layoutIn target (t.layoutBelow target depth)).run c with
          | (.ok l, c') => (.ok l, c'.insert h l)
          | (.error e, c') => (.error e, c') := by
  have hget : (t.layoutBelow target (depth + 1) h).run c =
      ((match c.find? h with
        | some l => pure l
        | none =>
          match t.get? h with
          | none => throw (.unknownHandle h)
          | some s => s.layoutIn target (t.layoutBelow target depth) >>= fun l =>
            modify (·.insert h l) >>= fun _ => pure l : LayoutM Layout).run c) := rfl
  rw [hget]
  cases c.find? h with
  | some l => rfl
  | none =>
    cases t.get? h with
    | none => rfl
    | some s =>
      simp only [LayoutM.run_bind]
      rcases (s.layoutIn target (t.layoutBelow target depth)).run c with ⟨e | l, c'⟩ <;> rfl

/-- **The cached descent follows the uncached one.** -/
theorem Ordered.layoutBelow_follows (ho : t.Ordered) {depth : Nat} {h : Handle}
    (hd : t.rank h < depth) :
    Follows (·.Coherent t target) (t.layoutBelow target depth h) (t.layoutAnew target h) := by
  induction depth generalizing h with
  | zero => omega
  | succ depth ih =>
    intro c hc
    rw [run_layoutBelow_succ, ho.layoutAnew_eq]
    cases hf : c.find? h with
    | some l =>
      -- the cache is coherent, so what is found there is what the rule would give
      refine ⟨c, hc, ?_⟩
      rw [← ho.layoutAnew_eq, hc h l hf]
    | none =>
      cases hg : t.get? h with
      | none => exact ⟨c, hc, rfl⟩
      | some s =>
        have hparts : ∀ x ∈ s.parts, Follows (·.Coherent t target)
            (t.layoutBelow target depth x) (t.layoutAnew target x) := by
          intro x hx
          have := ho.rank_lt hg hx
          exact ih (by omega)
        obtain ⟨c', hc', hr⟩ := Shape.layoutIn_follows target hparts c hc
        simp only [hr]
        -- `c'` holds what was laid out on the way, also if a later part has no layout
        cases hl : s.layoutIn target (t.layoutAnew target) with
        | error e => exact ⟨c', hc', rfl⟩
        | ok l =>
          refine ⟨c'.insert h l, hc'.insert ?_, rfl⟩
          rw [ho.layoutAnew_eq, hg]
          exact hl

theorem Ordered.layoutOf_follows (ho : t.Ordered) (target : Target) (h : Handle) :
    Follows (·.Coherent t target) (t.layoutOf target h) (t.layoutAnew target h) :=
  ho.layoutBelow_follows (rank_lt_depth t h)

theorem Ordered.layoutOfShape_follows (ho : t.Ordered) (target : Target) (s : Shape) :
    Follows (·.Coherent t target) (t.layoutOfShape target s)
      (s.layoutIn target (t.layoutAnew target)) :=
  Shape.layoutIn_follows target fun x _ => ho.layoutOf_follows target x

end Table

end DeviceTypes
