import DeviceTypes.Proofs.Lowering.Moments
import DeviceTypes.Proofs.Lowering.Simulation
/-!
# Sessions under any rules

A session stays in order whatever its rules do. What carries this is
`Apart`: the types being lowered are different, and none of them is kept.
A script that asks for types, mints or reads, and swallows what errors it
likes, gives a `Course`: it ends with the same types in progress, it has
lost nothing that was kept, and every moment on the way is in order. One
nested lowering is a course when those inside it are
(`Course.lowerUpTo`), so a whole history is one (`course_history`).

The main statement is `history_inOrder`. Nothing is assumed of the
registry, the rules or the universes.
-/

namespace DeviceTypes.Lowering

open Source (TypeId)

variable {s : Setting} {p q r : Progress} {i : TypeId} {ms ms' : List Moment}
variable {nested : Nested} {inner : Watch}

/-! ## What is kept -/

namespace Progress

/-- What one session keeps, another keeps as well. -/
def Keeps (p q : Progress) : Prop :=
  ∀ (i : TypeId) (h : Handle), p.lowered? i = some h → q.lowered? i = some h

theorem Keeps.refl (p : Progress) : p.Keeps p := fun _ _ h => h

theorem Keeps.trans (hpq : p.Keeps q) (hqr : q.Keeps r) : p.Keeps r :=
  fun i h hi => hqr i h (hpq i h hi)

theorem Keeps.of_eq (h : q.lowered = p.lowered) : p.Keeps q := by
  intro i a ha
  rw [lowered?, h]
  exact ha

theorem Keeps.keepAnswer (hp : p.lowered? i = none) (a : Except Error Handle) :
    p.Keeps (p.keepAnswer i a) := by
  intro j h hj
  cases a with
  | error e => exact hj
  | ok b =>
    have hji : j ≠ i := by
      rintro rfl
      rw [hp] at hj
      cases hj
    rw [lowered?_keepAnswer_ok, if_neg hji]
    exact hj

@[simp] theorem resolving_keepAnswer (i : TypeId) (a : Except Error Handle) (p : Progress) :
    (p.keepAnswer i a).resolving = p.resolving := by
  cases a <;> rfl

@[simp] theorem minter_keepAnswer (i : TypeId) (a : Except Error Handle) (p : Progress) :
    (p.keepAnswer i a).minter = p.minter := by
  cases a <;> rfl

/-- Leaving a type and keeping its answer puts back the types in progress. -/
theorem resolving_leave (h : q.resolving = i :: p.resolving) (a : Except Error Handle) :
    ((q.leave i).keepAnswer i a).resolving = p.resolving := by
  rw [resolving_keepAnswer, leave, h, List.erase_cons_head]

@[simp] theorem openings_keepAnswer (i : TypeId) (a : Except Error Handle) (p : Progress) :
    (p.keepAnswer i a).openings = p.openings := by
  cases a <;> rfl

theorem openings_record (e : Event) (p : Progress) :
    (p.record e).openings = p.openings ++ [e].filter Event.opens := by
  simp [openings, record, List.filter_append]

theorem lowered?_of_status {h : Handle} (hs : p.status i = .lowered h) :
    p.lowered? i = some h := by
  rw [status] at hs
  split at hs
  · cases hs
    assumption
  · split at hs <;> cases hs

theorem of_status_resolving (hs : p.status i = .resolving) :
    p.lowered? i = none ∧ i ∈ p.resolving := by
  rw [status] at hs
  split at hs
  · cases hs
  · split at hs
    · exact ⟨‹_›, ‹_›⟩
    · cases hs

theorem of_status_fresh (hs : p.status i = .fresh) :
    p.lowered? i = none ∧ i ∉ p.resolving := by
  rw [status] at hs
  split at hs
  · cases hs
  · split at hs
    · cases hs
    · exact ⟨‹_›, ‹_›⟩

/-- What a universe is asked for opens nothing. -/
theorem openings_ask (r : Request) (p : Progress) : (p.ask r).2.openings = p.openings := by
  have hmints : ∀ events : List MintEvent, (events.map Event.mint).filter Event.opens = [] := by
    intro events
    simp [List.filter_eq_nil_iff, Event.opens]
  simp [openings, ask, List.filter_append, hmints]

/-- The types in progress are different, and none of them is kept. -/
structure Apart (p : Progress) : Prop where
  nodup : p.resolving.Nodup
  unkept : ∀ i ∈ p.resolving, p.lowered? i = none

theorem Apart.of_eq (hp : p.Apart) (hr : q.resolving = p.resolving) (hl : q.lowered = p.lowered) :
    q.Apart where
  nodup := hr ▸ hp.nodup
  unkept i hi := by
    rw [lowered?, hl]
    exact hp.unkept i (hr ▸ hi)

theorem Apart.enter (hp : p.Apart) (hi : i ∉ p.resolving) (hnone : p.lowered? i = none) :
    (p.enter i).Apart where
  nodup := List.nodup_cons.2 ⟨hi, hp.nodup⟩
  unkept j hj := by
    rcases List.mem_cons.1 hj with rfl | hj
    · exact hnone
    · exact hp.unkept j hj

end Progress

/-! ## Courses -/

/-- What a moment must satisfy. A rule, like the built-in mapping, gets only a
type that is not kept. An answer leaves the types in progress as they were; it
is the kept one where there is one, and nothing is run for it; a failure leaves
the type unkept; and a type asked for inside itself is recursive, again with
nothing run. -/
def Moment.InOrder (s : Setting) : Moment → Prop
  | asked .. | invoked .. => True
  | ran _ i p | mapped i p => p.lowered? i = none
  | answered i p a q =>
    q.resolving = p.resolving ∧
    (∀ h, p.lowered? i = some h →
      a = .ok h ∧ q = (p.record (.requested i)).record (.found h)) ∧
    (∀ h, a = .ok h → q.lowered? i = some h) ∧
    (∀ e, a = .error e → q.lowered? i = none) ∧
    (i ∈ p.resolving →
      a = .error (.recursive (s.catalog.nameOf i)) ∧ q = p.record (.requested i))

/-- From one state of a session to another, with what happens meanwhile. -/
structure Course (s : Setting) (p : Progress) (ms : List Moment) (q : Progress) : Prop where
  apart : q.Apart
  resolving_eq : q.resolving = p.resolving
  keeps : p.Keeps q
  since : ∀ m ∈ ms, p.Keeps m.now
  upTo : ∀ m ∈ ms, m.now.Keeps q
  sorted : ms.Pairwise fun m m' => m.now.Keeps m'.now
  inOrder : ∀ m ∈ ms, m.InOrder s
  openings_eq : q.openings = p.openings ++ ms.filterMap Moment.event?

namespace Course

/-- A step that opens nothing and neither keeps nor enters anything. -/
theorem still (hp : p.Apart) (hr : q.resolving = p.resolving) (hl : q.lowered = p.lowered)
    (ho : q.openings = p.openings) : Course s p [] q where
  apart := hp.of_eq hr hl
  resolving_eq := hr
  keeps := .of_eq hl
  since := List.forall_mem_nil _
  upTo := List.forall_mem_nil _
  sorted := .nil
  inOrder := List.forall_mem_nil _
  openings_eq := by rw [ho, List.filterMap_nil, List.append_nil]

theorem record (hp : p.Apart) {e : Event} (he : e.opens = false) : Course s p [] (p.record e) := by
  refine still hp rfl rfl ?_
  rw [Progress.openings_record, List.filter_singleton, he]
  exact List.append_nil _

/-- One moment, and what it leaves in the log. -/
theorem single {m : Moment} (hp : p.Apart) (hm : m.now = p) (ho : m.InOrder s)
    (hr : q.resolving = p.resolving) (hl : q.lowered = p.lowered)
    (hopen : q.openings = p.openings ++ [m].filterMap Moment.event?) : Course s p [m] q where
  apart := hp.of_eq hr hl
  resolving_eq := hr
  keeps := .of_eq hl
  since := by
    rw [List.forall_mem_singleton, hm]
    exact .refl p
  upTo := by
    rw [List.forall_mem_singleton, hm]
    exact .of_eq hl
  sorted := List.pairwise_singleton _ m
  inOrder := List.forall_mem_singleton.2 ho
  openings_eq := hopen

/-- **One course after another.** -/
theorem trans (h : Course s p ms q) (h' : Course s q ms' r) : Course s p (ms ++ ms') r where
  apart := h'.apart
  resolving_eq := h'.resolving_eq.trans h.resolving_eq
  keeps := h.keeps.trans h'.keeps
  since m hm := by
    rcases List.mem_append.1 hm with hm | hm
    · exact h.since m hm
    · exact h.keeps.trans (h'.since m hm)
  upTo m hm := by
    rcases List.mem_append.1 hm with hm | hm
    · exact (h.upTo m hm).trans h'.keeps
    · exact h'.upTo m hm
  sorted := by
    refine List.pairwise_append.2 ⟨h.sorted, h'.sorted, fun m hm m' hm' => ?_⟩
    exact (h.upTo m hm).trans (h'.since m' hm')
  inOrder m hm := by
    rcases List.mem_append.1 hm with hm | hm
    · exact h.inOrder m hm
    · exact h'.inOrder m hm
  openings_eq := by
    rw [h'.openings_eq, h.openings_eq, List.filterMap_append, List.append_assoc]

theorem cons {m : Moment} (h : Course s p [m] q) (h' : Course s q ms r) :
    Course s p (m :: ms) r := h.trans h'

/-- **A type lowered from its entry to its answer.** What happens while it
counts as being lowered is a course around it. -/
theorem enclose (hp : p.Apart) (hi : i ∉ p.resolving)
    (h : Course s (p.enter i) ms q) (a : Except Error Handle) :
    Course s p ms ((q.leave i).keepAnswer i a) := by
  have hresolving : q.resolving = i :: p.resolving := h.resolving_eq
  have hleave : (q.leave i).resolving = p.resolving := by
    rw [Progress.leave, hresolving, List.erase_cons_head]
  -- while it was being lowered nobody could keep an answer for it
  have hunkept : q.lowered? i = none := h.apart.unkept i (hresolving ▸ List.mem_cons_self)
  have hkeep : q.Keeps ((q.leave i).keepAnswer i a) :=
    Progress.Keeps.keepAnswer (p := q.leave i) hunkept a
  exact {
    apart := by
      refine ⟨?_, fun j hj => ?_⟩
      · rw [Progress.resolving_keepAnswer, hleave]
        exact hp.nodup
      · rw [Progress.resolving_keepAnswer, hleave] at hj
        have hji : j ≠ i := fun e => hi (e ▸ hj)
        have hj' : q.lowered? j = none :=
          h.apart.unkept j (hresolving ▸ List.mem_cons_of_mem i hj)
        cases a with
        | error e => exact hj'
        | ok b =>
          rw [lowered?_keepAnswer_ok, if_neg hji]
          exact hj'
    resolving_eq := by rw [Progress.resolving_keepAnswer, hleave]
    keeps := h.keeps.trans hkeep
    since := h.since
    upTo := fun m hm => (h.upTo m hm).trans hkeep
    sorted := h.sorted
    inOrder := h.inOrder
    openings_eq := by
      rw [Progress.openings_keepAnswer]
      exact h.openings_eq }

/-! ## Scripts -/

/-- What is asked of a way to lower the types that come up inside `around`. -/
def Nests (s : Setting) (around : List TypeId) (nested : Nested) (inner : Watch) : Prop :=
  ∀ (i : TypeId) (p : Progress), p.Apart → p.resolving = around →
    Course s p (inner i p) ((nested i).run p).2

variable {around : List TypeId}

/-- **A script is a course**, whatever it does with the answers it gets. -/
theorem script {α : Type} (hn : Nests s around nested inner) (x : Script α) (hp : p.Apart)
    (hr : p.resolving = around) :
    Course s p (x.moments nested inner p) ((x.run (sessionHost nested)).run p).2 := by
  induction x generalizing p with
  | done a => exact still hp rfl rfl rfl
  | lower i next ih =>
    have hfirst := hn i p hp hr
    exact hfirst.trans (ih _ hfirst.apart (hfirst.resolving_eq.trans hr))
  | ask r next ih =>
    have hfirst : Course s p [] (p.ask r).2 := still hp rfl rfl (Progress.openings_ask r p)
    exact hfirst.trans (ih _ hfirst.apart (hfirst.resolving_eq.trans hr))
  | announce owner fields next ih =>
    have hfirst : Course s p [] (p.record (.assembling owner fields)) := record hp rfl
    exact hfirst.trans (ih hfirst.apart (hfirst.resolving_eq.trans hr))

/-- A rule that is run, after the moment `m` at which it was asked. -/
theorem runRule (hn : Nests s around nested inner) (rule : Rule) (hp : p.Apart)
    (hr : p.resolving = around) {m : Moment} (hm : m.now = p) (ho : m.InOrder s)
    (he : m.event? = some (.ran rule.serial i)) :
    Course s p (m :: (rule.body s.catalog i).run.moments nested inner
      (p.record (.ran rule.serial i))) ((s.runRule nested rule i).run p).2 := by
  have hfirst : Course s p [m] (p.record (.ran rule.serial i)) := by
    refine single hp hm ho rfl rfl ?_
    rw [Progress.openings_record, List.filterMap_cons_some he]
    rfl
  exact hfirst.trans (script hn _ hfirst.apart hr)

theorem mapped (hn : Nests s around nested inner) (hp : p.Apart) (hr : p.resolving = around)
    (hi : p.lowered? i = none) :
    Course s p (s.momentsMapped nested inner i p)
      ((playNested nested (builtIn s.catalog i)).run p).2 := by
  have hfirst : Course s p [.mapped i p] p := single hp rfl hi rfl rfl (List.append_nil _).symm
  exact hfirst.trans (script hn _ hp hr)

/-- **A type lowered anew is a course**: the rule in charge has it, then the
built-in mapping if the rule leaves it. -/
theorem lowerAnew (hn : Nests s around nested inner) (hp : p.Apart) (hr : p.resolving = around)
    (hi : i ∈ around) :
    Course s p (s.momentsAnew nested inner i p) ((s.lowerAnew nested i).run p).2 := by
  have hnone : p.lowered? i = none := hp.unkept i (hr ▸ hi)
  rw [Setting.momentsAnew, Setting.lowerAnew]
  rcases s.registry.ruleFor? s.catalog i with - | rule
  · exact mapped hn hp hr hnone
  have hrule := runRule (i := i) hn rule hp hr (m := .ran rule i p) rfl hnone rfl
  simp only [StateT.run_bind]
  rcases hrun : (s.runRule nested rule i).run p with ⟨a, p'⟩
  rw [hrun] at hrule
  have hr' : p'.resolving = around := hrule.resolving_eq.trans hr
  rcases a with e | - | h
  · exact hrule.trans (still hrule.apart rfl rfl rfl)
  · have hdeclined : Course s p' [] (p'.record (.declined i rule.name)) := record hrule.apart rfl
    have hi' : p'.lowered? i = none := hrule.apart.unkept i (hr' ▸ hi)
    exact hrule.trans (hdeclined.trans (mapped hn hdeclined.apart hr' hi'))
  · exact hrule.trans (record hrule.apart rfl)

/-! ## Types -/

/-- The moment at which a type is asked for. -/
theorem asked (hp : p.Apart) (i : TypeId) :
    Course s p [.asked i p] (p.record (.requested i)) := by
  refine single hp rfl trivial rfl rfl ?_
  rw [Progress.openings_record]
  rfl

/-- The moment at which a type is answered. -/
theorem answered (hq : q.Apart) {a : Except Error Handle}
    (ho : (Moment.answered i p a q).InOrder s) : Course s q [.answered i p a q] q :=
  single hq rfl ho rfl rfl (List.append_nil _).symm

/-- **One step of a session is a course** when those inside it are. -/
theorem visit (hp : p.Apart) {depth : Nat}
    (hn : i ∉ p.resolving → Nests s (i :: p.resolving) (s.lowerUpTo depth) (s.momentsUpTo depth)) :
    Course s p (s.momentsUpTo (depth + 1) i p) ((s.lowerUpTo (depth + 1) i).run p).2 := by
  have hasked : Course s p [.asked i p] (p.record (.requested i)) := asked hp i
  rw [Setting.momentsUpTo, Setting.lowerUpTo_succ, Setting.run_visit]
  refine hasked.cons ?_
  rcases hs : (p.record (.requested i)).status i with h | - | - <;> simp only [hs]
  · -- kept: nothing is run, and the session is as it was but for its log
    have hkept : p.lowered? i = some h := Progress.lowered?_of_status hs
    have hfound : Course s (p.record (.requested i)) []
        ((p.record (.requested i)).record (.found h)) := record hasked.apart rfl
    refine hfound.trans (answered hfound.apart ⟨rfl, ?_, ?_, ?_, ?_⟩)
    · intro h' hh'
      obtain rfl : h = h' := Option.some.inj (hkept.symm.trans hh')
      exact ⟨rfl, rfl⟩
    · rintro _ ⟨⟩
      exact hkept
    · rintro _ ⟨⟩
    · intro hi
      rw [hp.unkept i hi] at hkept
      cases hkept
  · -- being lowered: recursive, and again nothing is run
    obtain ⟨hnone, hmem⟩ := Progress.of_status_resolving hs
    refine answered hasked.apart ⟨rfl, ?_, ?_, ?_, ?_⟩
    · intro h hkept
      rw [show p.lowered? i = none from hnone] at hkept
      cases hkept
    · rintro _ ⟨⟩
    · exact fun _ _ => hnone
    · exact fun _ => ⟨rfl, rfl⟩
  · obtain ⟨hnone, hmem⟩ := Progress.of_status_fresh hs
    have hanew := lowerAnew (hn hmem) (hasked.apart.enter hmem hnone) rfl List.mem_cons_self
    generalize (s.lowerAnew (s.lowerUpTo depth) i).run ((p.record (.requested i)).enter i) = r
      at hanew ⊢
    obtain ⟨a, q⟩ := r
    have hinside := enclose hasked.apart hmem hanew a
    refine hinside.trans (answered hinside.apart ⟨hinside.resolving_eq, ?_, ?_, ?_, ?_⟩)
    · intro h hkept
      rw [show p.lowered? i = none from hnone] at hkept
      cases hkept
    · rintro h rfl
      rw [lowered?_keepAnswer_ok, if_pos rfl]
    · rintro e rfl
      exact hanew.apart.unkept i (hanew.resolving_eq ▸ List.mem_cons_self)
    · exact fun hi => absurd hi hmem

/-- **Lowering a type is a course**, from any session whose types in progress
are apart. -/
theorem lowerUpTo (hp : p.Apart) {depth : Nat}
    (hdepth : UInt32.size < depth + p.resolving.length) (i : TypeId) :
    Course s p (s.momentsUpTo depth i p) ((s.lowerUpTo depth i).run p).2 := by
  induction depth generalizing i p with
  | zero =>
    -- no more types can be in progress than there are identifiers
    have := Library.length_le_of_nodup hp.nodup
    omega
  | succ depth ih =>
    refine visit hp fun hi j q hq hr => ih hq ?_ j
    rw [hr, List.length_cons]
    omega

/-- Between calls no type is in progress, and what is lowered then is a course. -/
theorem nests_lower (s : Setting) : Nests s [] s.lower s.moments := by
  intro i p hp hr
  refine lowerUpTo hp ?_ i
  rw [hr]
  exact Nat.lt_succ_self _

end Course

/-! ## Calls -/

namespace Setting

/-- **A call is a course.** -/
theorem course_call (hp : p.Apart) (hr : p.resolving = []) (c : Call) :
    Course s p (s.call p c).1 (s.call p c).2 := by
  cases c with
  | lower i => exact Course.nests_lower s i p hp hr
  | invoke rule i => exact Course.runRule (Course.nests_lower s) rule hp hr rfl trivial rfl

/-- **A history is a course**, whatever others do to the universe meanwhile. -/
theorem course_history (hp : p.Apart) (hr : p.resolving = []) (calls : List (Universe × Call)) :
    Course s p (s.history p calls).1 (s.history p calls).2 := by
  induction calls generalizing p with
  | nil => exact .still hp rfl rfl rfl
  | cons x rest ih =>
    obtain ⟨u, c⟩ := x
    have hentered : Course s p [] { p with minter := u } := .still hp rfl rfl rfl
    have hcall := course_call (s := s) hentered.apart hr c
    exact hentered.trans (hcall.trans (ih hcall.apart (hcall.resolving_eq.trans hr)))

/-- **Sessions stay in order under any rules.** Take any registry, any rules,
any calls, and any universes to find at each call. Of everything that happens,
at every depth:

* an answer, good or bad, leaves the types in progress as they were when the
  type was asked for, so between calls there are none;
* what is kept once is kept from then on, it is answered whenever the type is
  asked for, and neither a rule nor the built-in mapping gets the type again;
* a failure leaves the type unkept;
* a type asked for while it is in progress is recursive, and nothing is run.

The log bears the listing out: it has the same requests and the same rules run,
in the same order. -/
theorem history_inOrder (s : Setting) (u : Universe) (calls : List (Universe × Call)) :
    let r := s.history { minter := u } calls
    r.2.resolving = [] ∧
    (∀ i p a q, Moment.answered i p a q ∈ r.1 →
      q.resolving = p.resolving ∧
      (∀ h, p.lowered? i = some h →
        a = .ok h ∧ q = (p.record (.requested i)).record (.found h)) ∧
      (∀ h, a = .ok h → q.lowered? i = some h) ∧
      (∀ e, a = .error e → q.lowered? i = none) ∧
      (i ∈ p.resolving →
        a = .error (.recursive (s.catalog.nameOf i)) ∧ q = p.record (.requested i))) ∧
    (∀ rule i p, Moment.ran rule i p ∈ r.1 → p.lowered? i = none) ∧
    (∀ i p, Moment.mapped i p ∈ r.1 → p.lowered? i = none) ∧
    (r.1.Pairwise fun m m' => m.now.Keeps m'.now) ∧ (∀ m ∈ r.1, m.now.Keeps r.2) ∧
    r.2.openings = r.1.filterMap Moment.event? := by
  intro r
  have hfresh : Progress.Apart { minter := u } := ⟨List.nodup_nil, List.forall_mem_nil _⟩
  have hcourse : Course s { minter := u } r.1 r.2 := course_history hfresh rfl calls
  exact ⟨hcourse.resolving_eq, fun i p a q hm => hcourse.inOrder _ hm,
    fun rule i p hm => hcourse.inOrder _ hm, fun i p hm => hcourse.inOrder _ hm,
    hcourse.sorted, hcourse.upTo, hcourse.openings_eq⟩

/-- A rule that asks for its own type, goes on after the failure and answers
with a scalar, runs once only. -/
example :
    let stubborn : Rule := .closure 0 fun _ i =>
      ExceptT.mk (.lower i fun _ => .lower Source.Scalar.u8.id fun a => .done (a.map some))
    let u : Universe := ⟨0, .empty 0, .device64, .empty⟩
    let p := (history ⟨.scalars, ⟨[(.exact ⟨11⟩, stubborn)]⟩⟩ { minter := u }
      [(u, .lower ⟨11⟩), (u, .lower ⟨11⟩)]).2
    p.lowered = [(⟨11⟩, .primitive .u8), (⟨5⟩, .primitive .u8)] ∧
      p.openings = [.requested ⟨11⟩, .ran 0 ⟨11⟩, .requested ⟨11⟩, .requested ⟨5⟩,
        .requested ⟨11⟩] := by
  decide +kernel

end Setting

end DeviceTypes.Lowering
