import DeviceTypes.Proofs.Layout.Coherence
/-!
# Laying out within so many levels

Laying out a handle asks for the layouts of its parts, which ask for those
of theirs. `layoutCall` is one such call, given how the calls inside it
are made, and `layoutWithin` makes them with a limit on how many may be
under way at once: where one more would be needed, it answers nothing at
all. One call more than the table has compounds is never needed, whatever
the cache holds (`Ordered.layoutWithin_eq`), and more are not felt.
-/

namespace DeviceTypes

/-- A computation of layouts that may be cut short. It then leaves neither an
answer nor a cache. -/
abbrev CutM := ExceptT Rejection (StateT LayoutCache Option)

/-- `x` is never cut short, and computes what `y` does. -/
def CutM.Completes {α : Type} (x : CutM α) (y : LayoutM α) : Prop :=
  ∀ c, x.run.run c = some (y.run.run c)

open CutM (Completes)

namespace CutM

variable {α β : Type}

theorem completes_pure (a : α) : Completes (pure a) (pure a) := fun _ => rfl

theorem completes_throw (e : Rejection) : Completes (throw e : CutM α) (throw e) := fun _ => rfl

theorem completes_ofExcept (a : Except Rejection α) :
    Completes (MonadExcept.ofExcept a) (MonadExcept.ofExcept a) := by
  cases a with
  | error e => exact completes_throw e
  | ok a => exact completes_pure a

theorem completes_get : Completes (get : CutM LayoutCache) get := fun _ => rfl

theorem completes_insert (h : Handle) (l : Layout) :
    Completes (modify (·.insert h l)) (modify (·.insert h l)) := fun _ => rfl

/-- One computation, then the one its answer chooses. -/
theorem Completes.bind {x : CutM α} {y : LayoutM α} {f : α → CutM β} {g : α → LayoutM β}
    (hx : Completes x y) (hf : ∀ a, Completes (f a) (g a)) :
    Completes (x >>= f) (y >>= g) := by
  intro c
  have hrun : (x >>= f).run.run c = (x.run.run c).bind fun r =>
      match r.1 with
      | .ok a => (f a).run.run r.2
      | .error e => some (.error e, r.2) := by
    change (x.run.run c).bind _ = _
    congr 1
    funext r
    rcases r with ⟨e | a, c'⟩ <;> rfl
  rw [hrun, hx c, Option.bind_some]
  change _ = some ((y >>= g).run c)
  rw [LayoutM.run_bind]
  change (match ((y.run c).1 : Except Rejection α) with
    | .ok a => (f a).run.run (y.run c).2
    | .error e => some (.error e, (y.run c).2)) = _
  rcases y.run c with ⟨e | a, c'⟩
  · rfl
  · exact hf a c'

end CutM

section Rule

variable {f : Handle → CutM Layout} {g : Handle → LayoutM Layout}

/-- **The layout rule is not cut short** where its parts are not. -/
theorem Compound.layoutIn_completes (target : Target) {c : Compound}
    (h : ∀ x ∈ c.layoutParts, Completes (f x) (g x)) :
    Completes (c.layoutIn target f) (c.layoutIn target g) := by
  cases c with
  | pointer pointee space => exact CutM.completes_pure _
  | array element length =>
    exact (h element (List.mem_singleton.2 rfl)).bind fun l => CutM.completes_ofExcept _
  | aggregate a =>
    refine CutM.Completes.bind ?_ fun placed => CutM.completes_ofExcept _
    have hm : ∀ m ∈ a.members, Completes (f m.type) (g m.type) :=
      fun m hm => h m.type (List.mem_map_of_mem hm)
    generalize a.members = members at hm
    generalize ({} : Placement) = p
    induction members generalizing p with
    | nil => exact CutM.completes_pure p
    | cons m rest ih =>
      rw [List.forall_mem_cons] at hm
      rw [List.foldlM_cons, List.foldlM_cons]
      refine CutM.Completes.bind ?_ fun p' => ih hm.2 p'
      exact hm.1.bind fun l => CutM.completes_ofExcept _

theorem Shape.layoutIn_completes (target : Target) {s : Shape}
    (h : ∀ x ∈ s.parts, Completes (f x) (g x)) :
    Completes (s.layoutIn target f) (s.layoutIn target g) := by
  cases s with
  | primitive p => exact CutM.completes_pure _
  | compound c =>
    exact Compound.layoutIn_completes target fun x hx => h x (c.layoutParts_subset_parts hx)

end Rule

namespace Table

variable {t : Table} {target : Target} {h : Handle}

/-- One call for the layout of a handle; `inner` makes the calls inside it. -/
def layoutCall {m : Type → Type} [Monad m] [MonadExceptOf Rejection m]
    [MonadStateOf LayoutCache m] (t : Table) (target : Target) (inner : Handle → m Layout)
    (h : Handle) : m Layout := do
  match (← get).find? h with
  | some l => return l
  | none =>
    match t.get? h with
    | none => throw (.unknownHandle h)
    | some s =>
      let l ← s.layoutIn target inner
      modify (·.insert h l)
      return l

/-- A layout is worked out by such calls. -/
theorem layoutBelow_succ (depth : Nat) (h : Handle) :
    t.layoutBelow target (depth + 1) h = t.layoutCall target (t.layoutBelow target depth) h := rfl

/-- The layout of a handle, cut short where more calls than these would be
under way. -/
def layoutWithin (t : Table) (target : Target) : Nat → Handle → CutM Layout
  | 0, _ => ExceptT.mk fun _ => none
  | levels + 1, h => t.layoutCall target (layoutWithin t target levels) h

theorem layoutCall_completes {f : Handle → CutM Layout} {g : Handle → LayoutM Layout}
    (hparts : ∀ s, t.get? h = some s → ∀ x ∈ s.parts, Completes (f x) (g x)) :
    Completes (t.layoutCall target f h) (t.layoutCall target g h) := by
  refine CutM.completes_get.bind fun c => ?_
  rcases c.find? h with - | l
  · rcases hg : t.get? h with - | s
    · exact CutM.completes_throw _
    · refine (Shape.layoutIn_completes target (hparts s hg)).bind fun l => ?_
      exact (CutM.completes_insert h l).bind fun _ => CutM.completes_pure l
  · exact CutM.completes_pure l

/-- Levels past the rank of a handle are not felt. -/
theorem Ordered.layoutWithin_completes (ho : t.Ordered) {levels depth : Nat}
    (hl : t.rank h < levels) (hd : t.rank h < depth) :
    Completes (t.layoutWithin target levels h) (t.layoutBelow target depth h) := by
  induction levels generalizing h depth with
  | zero => omega
  | succ levels ih =>
    obtain ⟨depth, rfl⟩ : ∃ k, depth = k + 1 := ⟨depth - 1, by omega⟩
    rw [layoutWithin, layoutBelow_succ]
    refine layoutCall_completes fun s hs x hx => ?_
    have := ho.rank_lt hs hx
    exact ih (by omega) (by omega)

/-- **Laying out ends**: one call more than the table has compounds is never
under way, whatever the cache holds. -/
theorem Ordered.layoutWithin_eq (ho : t.Ordered) (target : Target) (h : Handle) {levels : Nat}
    (hl : t.entries.length + 1 ≤ levels) (c : LayoutCache) :
    (t.layoutWithin target levels h).run.run c = some ((t.layoutOf target h).run.run c) :=
  ho.layoutWithin_completes (Nat.lt_of_lt_of_le (rank_lt_depth t h) hl) (rank_lt_depth t h) c

end Table

end DeviceTypes
