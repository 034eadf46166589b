import DeviceTypes.Proofs.Lowering.Asking
import DeviceTypes.Proofs.Lowering.Course
import DeviceTypes.Proofs.Lowering.Meaning
import DeviceTypes.Proofs.Tree.Held
/-!
# What lowering leaves in the table

A type that fails deep inside has had other types lowered by then, and
their device types stay in the table. Nothing else does. Two accounts meet
here. By the trees, what a table holds anew is part of a tree that was
finished, and the parts of a kept type's tree are the trees of kept types
(`Progress.Inside.exists_kept_of_partOf`). By the moments, what is kept
anew was answered on the way (`Accounted`), under any rules.

So what a call adds to the table are the answers to the types that were
done before it ended, be it in success or in failure
(`contains_iff_answered`).
-/

namespace DeviceTypes.Lowering

open Source (TypeId)

/-! ## What is kept anew was answered -/

/-- What is kept in the end and was not in the beginning was answered meanwhile. -/
structure Accounted (p : Progress) (ms : List Moment) (q : Progress) : Prop where
  resolving_eq : q.resolving = p.resolving
  answered : ∀ i h, q.lowered? i = some h →
    p.lowered? i = some h ∨ ∃ p' q', Moment.answered i p' (.ok h) q' ∈ ms

namespace Accounted

variable {s : Setting} {p q r : Progress} {ms ms' : List Moment}

theorem of_eq (hr : q.resolving = p.resolving) (hl : q.lowered = p.lowered) :
    Accounted p ms q := by
  refine ⟨hr, fun i h hi => Or.inl ?_⟩
  rw [Progress.lowered?, hl] at hi
  exact hi

theorem trans (h : Accounted p ms q) (h' : Accounted q ms' r) : Accounted p (ms ++ ms') r := by
  refine ⟨h'.resolving_eq.trans h.resolving_eq, fun i a hi => ?_⟩
  rcases h'.answered i a hi with hi | ⟨p', q', hm⟩
  · rcases h.answered i a hi with hi | ⟨p', q', hm⟩
    · exact Or.inl hi
    · exact Or.inr ⟨p', q', List.mem_append_left _ hm⟩
  · exact Or.inr ⟨p', q', List.mem_append_right _ hm⟩

theorem cumulative : Cumulative Accounted where
  resolving_eq h := h.resolving_eq
  still := of_eq
  ran _ _ _ := of_eq rfl rfl
  mapped _ _ := of_eq rfl rfl
  trans := trans

/-- **Lowering a type keeps nothing that it does not answer**, in any session and
under any rules. -/
theorem lowerUpTo (s : Setting) (depth : Nat) (i : TypeId) (p : Progress) :
    Accounted p (s.momentsUpTo depth i p) ((s.lowerUpTo depth i).run p).2 := by
  induction depth generalizing i p with
  | zero => exact of_eq rfl rfl
  | succ depth ih =>
    have hanew := cumulative.lowerAnew (s.asks_of_forall (fun _ => trivial) i)
      (fun j _ p' _ => ih j p') (p := (p.record (.requested i)).enter i) rfl
    rw [Setting.momentsUpTo, Setting.lowerUpTo_succ, Setting.run_visit]
    rcases hs : (p.record (.requested i)).status i with h | - | - <;> simp only [hs]
    · exact of_eq rfl rfl
    · exact of_eq rfl rfl
    generalize (s.lowerAnew (s.lowerUpTo depth) i).run ((p.record (.requested i)).enter i) = r
      at hanew ⊢
    obtain ⟨a, q⟩ := r
    refine ⟨Progress.resolving_leave hanew.resolving_eq a, fun j h hj => ?_⟩
    have hinside : q.lowered? j = some h → p.lowered? j = some h ∨
        ∃ p' q', Moment.answered j p' (.ok h) q' ∈ s.momentsAnew (s.lowerUpTo depth)
          (s.momentsUpTo depth) i ((p.record (.requested i)).enter i) := hanew.answered j h
    by_cases hkeep : q.lowered? j = some h
    · rcases hinside hkeep with hold | ⟨p', q', hm⟩
      · exact Or.inl hold
      · exact Or.inr ⟨p', q', List.mem_cons_of_mem _ (List.mem_append_left _ hm)⟩
    · -- only the type itself is kept besides, and it is answered last
      cases a with
      | error e => exact absurd hj hkeep
      | ok b =>
        rw [lowered?_keepAnswer_ok] at hj
        split at hj
        · rename_i hji
          obtain rfl := hji
          obtain rfl := Option.some.inj hj
          exact Or.inr ⟨_, _, List.mem_cons_of_mem _
            (List.mem_append_right _ List.mem_cons_self)⟩
        · exact absurd hj hkeep

end Accounted

/-! ## What is held anew is kept -/

variable {L : Library} {target : Target} {around : List TypeId} {p q : Progress} {i : TypeId}
variable {S T : Tree} {h : Handle}

/-- **The parts of a kept type's tree** are the trees of kept types. -/
theorem Progress.Inside.exists_kept_of_partOf (hp : p.Inside L target around)
    (hT : L.Intends i T) (hi : (p.lowered? i).isSome) (hS : S.PartOf T) :
    ∃ j, L.Intends j S ∧ (p.lowered? j).isSome := by
  induction hT with
  | @primitive i prim hplan =>
    obtain rfl := Tree.partOf_primitive.1 hS
    exact ⟨i, .primitive hplan, hi⟩
  | @pointer i e T hplan hT ih =>
    rcases Tree.partOf_pointer.1 hS with hS | rfl
    · have he : e ∈ L.deps i := by
        rw [Library.deps, hplan]
        exact List.mem_singleton.2 rfl
      exact ih (hp.closed i hi e he) hS
    · exact ⟨i, .pointer hplan hT, hi⟩
  | @array i e length T hplan hT ih =>
    rcases Tree.partOf_array.1 hS with hS | rfl
    · have he : e ∈ L.deps i := by
        rw [Library.deps, hplan]
        exact List.mem_singleton.2 rfl
      exact ih (hp.closed i hi e he) hS
    · exact ⟨i, .array hplan hT, hi⟩
  | @aggregate i fields policy members hplan hnames hall ih =>
    rcases Tree.partOf_aggregate.1 hS with ⟨m, hm, hS⟩ | rfl
    · obtain ⟨f, hx⟩ := Library.exists_zip_of_mem_right hnames hm
      have hf : f.type ∈ L.deps i := by
        rw [Library.deps, hplan]
        exact List.mem_map_of_mem (List.of_mem_zip hx).1
      exact ih _ hx (hp.closed i hi f.type hf) hS
    · exact ⟨i, .aggregate hplan hnames hall, hi⟩

/-- A kept type's tree is read off the handle that is kept for it. -/
theorem Progress.Inside.kept_of_reads (hp : p.Inside L target around) (hS : L.Intends i S)
    (hi : (p.lowered? i).isSome) (hr : p.minter.table.Reads h S) : p.lowered? i = some h := by
  obtain ⟨x, hx⟩ := Option.isSome_iff_exists.1 hi
  obtain ⟨T, hT, hr'⟩ := hp.lowered i x hx
  rw [hT.1.functional hS] at hr'
  rw [hx, hr'.inj hr hp.sound.ordered]

theorem Progress.Inside.contains_of_kept (hp : p.Inside L target around)
    (hi : p.lowered? i = some h) : p.minter.table.contains h = true := by
  obtain ⟨T, -, hr⟩ := hp.lowered i h hi
  exact hr.contains

/-- **Every handle that came to the table on the way is kept** for some type. -/
theorem Steps.exists_kept {done : List (TypeId × Tree)} (hp : p.Inside L target around)
    (hs : Steps L target around done p q) (hmeets : ∀ e ∈ done, L.Meets target e.1 e.2)
    (hh : q.minter.table.contains h = true) (hnew : p.minter.table.contains h = false) :
    ∃ j, q.lowered? j = some h := by
  have hknown : ∀ T ∈ done.map Prod.snd, T.Known := by
    intro T hT
    obtain ⟨e, he, rfl⟩ := List.mem_map.1 hT
    exact (hmeets e he).2.known
  have hplants := hp.sound.ordered.plants_plantAll hknown
  rw [← hs.planted] at hplants
  have hr : q.minter.table.Reads h (q.minter.table.unfold h) := ⟨hh, rfl⟩
  rcases (hplants.holds _).1 ⟨h, hr⟩ with ⟨x, hx⟩ | ⟨T, hT, hpart⟩
  · -- a tree that was held before has its handle from before
    have hx' := hx.of_le hp.sound.ordered hplants.ordered hplants.le
    rw [hr.inj hx' hplants.ordered, hx.contains] at hnew
    cases hnew
  · obtain ⟨e, he, rfl⟩ := List.mem_map.1 hT
    obtain ⟨j, hj, hkept⟩ :=
      hs.inside.exists_kept_of_partOf (hmeets e he).1 (hs.kept e he) hpart
    exact ⟨j, hs.inside.kept_of_reads hj hkept hr⟩

namespace Library

/-- **Types lowered one after another** are steps, whichever of them fail. -/
theorem steps_session (L : Library) {u : Universe} (hu : u.Sound) (builds : List TypeId) :
    ∃ done, Steps L u.target [] done (opened u) (L.session u (builds.map .lower)) ∧
      ∀ e ∈ done, L.Meets u.target e.1 e.2 := by
  have hfold : ∀ p : Progress, p.Inside L u.target [] → ∃ done,
      Steps L u.target [] done p ((builds.map Call.lower).foldl L.after p) ∧
        ∀ e ∈ done, L.Meets u.target e.1 e.2 := by
    induction builds with
    | nil => exact fun p hp => ⟨[], hp.refl, List.forall_mem_nil _⟩
    | cons i rest ih =>
      intro p hp
      have hfirst := (lower_follows hp i).steps
      obtain ⟨done, hrest, hmeets⟩ := ih _ hfirst.inside
      refine ⟨_, hfirst.trans hrest, fun e he => ?_⟩
      rcases List.mem_append.1 he with he | he
      · exact (expandUpTo_correct _ _ i).meets e he
      · exact hmeets e he
  exact hfold _ (inside_opened L hu)

/-- The answer of a call comes at its end. -/
theorem answered_mem_moments (s : Setting) (i : TypeId) (p : Progress) :
    Moment.answered i p ((s.lower i).run p).1 ((s.lower i).run p).2 ∈ s.moments i p := by
  rw [Setting.moments, Setting.depthLimit, Setting.momentsUpTo]
  exact List.mem_cons_of_mem _ (List.mem_append_right _ List.mem_cons_self)

/-- **Nothing is written by halves.** After any types were lowered in a session,
whether they succeeded or failed, every handle that the session has added
to the table is kept for some type, and all that is kept is in the table.
The next type, when it fails, is not kept. What it adds to the table are the
handles, not there before, that types were answered with on the way: those
done before the failure, and no others. -/
theorem contains_iff_answered (L : Library) {w : World} (hw : w.Reachable) {context : Nat}
    {u : Universe} (hu : w.universe? context = some u) (builds : List TypeId) (i : TypeId) :
    let p := L.session u (builds.map .lower)
    let r := (L.setting.lower i).run p
    (∀ h, p.minter.table.contains h = true → u.table.contains h = false →
      ∃ j, p.lowered? j = some h) ∧
    (∀ j h, p.lowered? j = some h → p.minter.table.contains h = true) ∧
    (∀ e, r.1 = .error e → r.2.lowered? i = none) ∧
    p.minter.table ≤ r.2.minter.table ∧
    ∀ h, p.minter.table.contains h = false → (r.2.minter.table.contains h = true ↔
      ∃ j q q', Moment.answered j q (.ok h) q' ∈ L.setting.moments i p) := by
  intro p r
  have hsound := hw.universe hu
  obtain ⟨done, hsession, hmeets⟩ := steps_session L hsound builds
  have hp : p.Inside L u.target [] := hsession.inside
  have hcall : Steps L u.target [] _ p r.2 := (lower_follows hp i).steps
  have hapart : p.Apart := ⟨hp.resolving_eq ▸ List.nodup_nil,
    hp.resolving_eq ▸ List.forall_mem_nil _⟩
  have hcourse : Course L.setting p (L.setting.moments i p) r.2 :=
    Course.nests_lower L.setting i p hapart hp.resolving_eq
  refine ⟨fun h => hsession.exists_kept (inside_opened L hsound) hmeets,
    fun j h => hp.contains_of_kept, fun e he => ?_, Universe.table_of_le hcall.le,
    fun h hnew => ⟨fun hh => ?_, ?_⟩⟩
  · obtain ⟨-, -, -, hfailed, -⟩ := hcourse.inOrder _ (answered_mem_moments L.setting i p)
    exact hfailed e he
  · -- the handle is kept for a type, which was not kept before and so was answered
    obtain ⟨j, hj⟩ := hcall.exists_kept hp (expandUpTo_correct _ _ i).meets hh hnew
    rcases (Accounted.lowerUpTo L.setting Setting.depthLimit i p).answered j h hj with hold | hm
    · rw [hp.contains_of_kept hold] at hnew
      cases hnew
    · exact ⟨j, hm⟩
  · rintro ⟨j, q, q', hm⟩
    obtain ⟨-, -, hkept, -, -⟩ := hcourse.inOrder _ hm
    have hj : r.2.lowered? j = some h := hcourse.upTo _ hm j h (hkept h rfl)
    exact hcall.inside.contains_of_kept hj

/-- A composite that is refused is not kept, and leaves the type of its first
field in the table, which was done by then. -/
theorem contains_iff_answered_linked :
    ∃ (w : World) (u : Universe), w.Reachable ∧ w.universe? 0 = some u ∧
      let p := linked.session u ([⟨11⟩].map .lower)
      let r := (linked.setting.lower ⟨15⟩).run p
      r.2.lowered? ⟨15⟩ = none ∧ p.minter.table.contains (.minted 0 1) = false ∧
        r.2.minter.table.contains (.minted 0 1) = true ∧
        ∃ j q q', Moment.answered j q (.ok (.minted 0 1)) q' ∈ linked.setting.moments ⟨15⟩ p := by
  have hrun : ((World.empty.replay [.newTable, .newContext 0 .device64]).bind fun w =>
      w.universe? 0).map (fun u =>
        let p := linked.session u ([⟨11⟩].map .lower)
        let r := (linked.setting.lower ⟨15⟩).run p
        (Outcome.error? r, p.minter.table.contains (.minted 0 1),
          r.2.minter.table.contains (.minted 0 1))) =
      some (some (.field "Loop" "again" (.recursive "Loop")), false, true) := by decide +kernel
  obtain ⟨u, huw, hvalues⟩ := Option.map_eq_some_iff.1 hrun
  obtain ⟨w, hreplay, hu⟩ := Option.bind_eq_some_iff.1 huw
  have hw : w.Reachable := World.leads_of_replay hreplay
  simp only [Prod.mk.injEq] at hvalues
  obtain ⟨herror, hold, hnew⟩ := hvalues
  obtain ⟨-, -, hunkept, -, hanswered⟩ := contains_iff_answered linked hw hu [⟨11⟩] ⟨15⟩
  have hfailed := hunkept _ (Outcome.error?_eq_some_iff.1 herror)
  exact ⟨w, u, hw, hu, hfailed, hold, hnew, (hanswered _ hold).1 hnew⟩

end Library

end DeviceTypes.Lowering
