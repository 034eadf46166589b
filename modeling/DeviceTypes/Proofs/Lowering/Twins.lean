import DeviceTypes.Proofs.Lowering.Course
import DeviceTypes.Proofs.Lowering.Steadfast
/-!
# Sessions in step

Two sessions are twins when they keep the same, are in the middle of the
same and work on equal tables under one target. Their caches, their logs and
the numbers of their universes may differ, and none of these ever reaches a
script. A modest script played in both gives one answer and leaves twins
(`InStep.script`), so a step of a session does when lowering a type anew does
(`InStep.visit`).
-/

namespace DeviceTypes

namespace Lowering

open Source (TypeId)

variable {α : Type} {known : Handle → Prop} {names : α → List Handle}
  {p q : Progress} {nested nested' : Nested} {i : TypeId}

/-- Two sessions that differ in caches, logs and the numbers of their universes at
most. -/
structure Progress.Twin (p q : Progress) : Prop where
  sound : p.minter.Sound
  sound' : q.minter.Sound
  table_eq : q.minter.table = p.minter.table
  target_eq : q.minter.target = p.minter.target
  lowered_eq : q.lowered = p.lowered
  resolving_eq : q.resolving = p.resolving
  settled : ∀ i h, p.lowered? i = some h → p.minter.table.Settled h

namespace Progress.Twin

theorem status_eq (hpq : p.Twin q) (i : TypeId) : q.status i = p.status i := by
  rw [status, status, lowered?, lowered?, hpq.lowered_eq, hpq.resolving_eq]

theorem record (hpq : p.Twin q) (e : Event) : (p.record e).Twin q := { hpq with }

theorem record_right (hpq : p.Twin q) (e : Event) : p.Twin (q.record e) := { hpq with }

theorem enter (hpq : p.Twin q) (i : TypeId) : (p.enter i).Twin (q.enter i) :=
  { hpq with resolving_eq := congrArg (i :: ·) hpq.resolving_eq }

theorem leave (hpq : p.Twin q) (i : TypeId) : (p.leave i).Twin (q.leave i) :=
  { hpq with resolving_eq := congrArg (List.erase · i) hpq.resolving_eq }

theorem keepAnswer (hpq : p.Twin q) (i : TypeId) {a : Except Error Handle}
    (ha : ∀ h ∈ okNames (fun h => [h]) a, p.minter.table.Settled h) :
    (p.keepAnswer i a).Twin (q.keepAnswer i a) := by
  cases a with
  | error e => exact hpq
  | ok h =>
    refine { hpq with lowered_eq := congrArg ((i, h) :: ·) hpq.lowered_eq, settled := ?_ }
    intro j k hk
    rw [lowered?_keepAnswer_ok] at hk
    split at hk
    · obtain rfl := Option.some.inj hk
      exact ha h (List.mem_singleton.2 rfl)
    · exact hpq.settled j k hk

/-- Sessions opened in universes with equal tables and targets. -/
theorem opened {u v : Universe} (hu : u.Sound) (hv : v.Sound) (ht : v.table = u.table)
    (hg : v.target = u.target) : Progress.Twin { minter := u } { minter := v } where
  sound := hu
  sound' := hv
  table_eq := ht
  target_eq := hg
  lowered_eq := rfl
  resolving_eq := rfl
  settled i h hi := by cases hi

/-- **A request to both** is answered alike and leaves twins. -/
theorem ask (hpq : p.Twin q) {r : Request} (hr : ∀ h ∈ r.handles, p.minter.table.Settled h) :
    (q.ask r).1 = (p.ask r).1 ∧ (p.ask r).2.Twin (q.ask r).2 := by
  have hr' : ∀ h ∈ r.handles, q.minter.table.Settled h := by
    rw [hpq.table_eq]
    exact hr
  obtain ⟨hanswer, htable⟩ := hpq.sound.perform_eq hpq.sound' hpq.table_eq hpq.target_eq hr
  obtain ⟨hsound, hle⟩ := hpq.sound.perform hr
  obtain ⟨hsound', hle'⟩ := hpq.sound'.perform hr'
  refine ⟨hanswer, hsound, hsound', htable, ?_, hpq.lowered_eq, hpq.resolving_eq, fun i h hi => ?_⟩
  · exact (Universe.target_of_le hle').trans
      (hpq.target_eq.trans (Universe.target_of_le hle).symm)
  · exact (hpq.settled i h hi).of_le (Universe.table_of_le hle)

end Progress.Twin

/-- Two sessions came out with one answer and as twins, the first after it was in
`p`; the handles the answer names are settled. -/
structure InStep (names : α → List Handle) (p : Progress) (r r' : α × Progress) : Prop where
  answer : r'.1 = r.1
  twin : r.2.Twin r'.2
  le : p.minter.table ≤ r.2.minter.table
  named : ∀ h ∈ names r.1, r.2.minter.table.Settled h

/-- Two ways to lower types keep twins in step. -/
def NestedInStep (nested nested' : Nested) : Prop :=
  ∀ (i : TypeId) (p q : Progress), p.Twin q →
    InStep (okNames fun h => [h]) p ((nested i).run p) ((nested' i).run q)

namespace InStep

variable {r r' : α × Progress}

theorem of_le (h : InStep names q r r') (hle : p.minter.table ≤ q.minter.table) :
    InStep names p r r' :=
  { h with le := le_trans hle h.le }

/-- **A modest script keeps twins in step** where what it asks to lower does. -/
theorem script (hn : NestedInStep nested nested') {x : Script α} (hx : x.Modest names known)
    (hpq : p.Twin q) (hk : ∀ h, known h → p.minter.table.Settled h) :
    InStep names p ((x.run (sessionHost nested)).run p) ((x.run (sessionHost nested')).run q) := by
  induction x generalizing p q known with
  | done a => exact ⟨rfl, hpq, le_refl _, fun h hh => hk h (hx h hh)⟩
  | lower i next ih =>
    have hfirst := hn i p q hpq
    have hstep : ∀ (n : Nested) (s : Progress), ((Script.lower i next).run (sessionHost n)).run s =
        ((next ((n i).run s).1).run (sessionHost n)).run ((n i).run s).2 := fun _ _ => rfl
    rw [hstep, hstep, hfirst.answer]
    refine (ih _ (hx _) hfirst.twin fun h hh => ?_).of_le hfirst.le
    exact hh.elim (fun hh => (hk h hh).of_le hfirst.le) (hfirst.named h)
  | ask r next ih =>
    obtain ⟨-, hhandles, hnext⟩ := hx
    have hsettled : ∀ h ∈ r.handles, p.minter.table.Settled h := fun h hh => hk h (hhandles h hh)
    have hle := Universe.table_of_le (hpq.sound.perform hsettled).2
    obtain ⟨hanswer, htwin⟩ := hpq.ask hsettled
    have hstep : ∀ (n : Nested) (s : Progress), ((Script.ask r next).run (sessionHost n)).run s =
        ((next (s.ask r).1).run (sessionHost n)).run (s.ask r).2 := fun _ _ => rfl
    rw [hstep, hstep, hanswer]
    refine (ih _ (hnext _) htwin fun h hh => ?_).of_le hle
    exact hh.elim (fun hh => (hk h hh).of_le hle) fun hh => hpq.sound.settled_named hsettled hh
  | announce owner fields next ih =>
    have htwin := (hpq.record (.assembling owner fields)).record_right (.assembling owner fields)
    exact (ih hx htwin hk).of_le (le_refl _)

/-- An event that only the first session records makes no difference. -/
theorem andThen_record {o o' : Outcome α} (h : InStep (okNames names) p o o') (e : Event) :
    InStep (okNames names) p (o.andThen fun a p' => (.ok a, p'.record e)) o' := by
  obtain ⟨a, p'⟩ := o
  cases a with
  | error err => exact h
  | ok a => exact ⟨h.answer, h.twin.record e, h.le, h.named⟩

/-- **One step of both sessions**, where a type lowered anew keeps them in step. -/
theorem visit {s s' : Setting} (hs : s'.catalog = s.catalog)
    (hanew : ∀ (p q : Progress), p.Twin q →
      InStep (okNames fun h => [h]) p ((s.lowerAnew nested i).run p)
        ((s'.lowerAnew nested' i).run q)) (hpq : p.Twin q) :
    InStep (okNames fun h => [h]) p ((s.visit nested i).run p) ((s'.visit nested' i).run q) := by
  have hrequested : (p.record (.requested i)).Twin (q.record (.requested i)) :=
    (hpq.record _).record_right _
  rw [Setting.run_visit, Setting.run_visit]
  simp only [hrequested.status_eq, hs]
  rcases hstatus : (p.record (.requested i)).status i with h | - | -
  · refine ⟨rfl, (hrequested.record _).record_right _, le_refl _, fun k hk => ?_⟩
    obtain rfl := List.mem_singleton.1 hk
    exact hpq.settled i k (Progress.lowered?_of_status hstatus)
  · exact ⟨rfl, hrequested, le_refl _, List.forall_mem_nil _⟩
  · have hrun := hanew _ _ (hrequested.enter i)
    refine ⟨hrun.answer, ?_, ?_, ?_⟩
    · simp only [hrun.answer]
      exact (hrun.twin.leave i).keepAnswer i hrun.named
    · rw [Progress.minter_keepAnswer]
      exact hrun.le
    · rw [Progress.minter_keepAnswer]
      exact hrun.named

end InStep

end Lowering

end DeviceTypes
