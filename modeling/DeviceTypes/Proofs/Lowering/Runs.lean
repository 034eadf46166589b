import DeviceTypes.Proofs.Lowering.Course
import DeviceTypes.Proofs.Lowering.Meaning
import DeviceTypes.Proofs.Lowering.Tour
/-!
# Which rules run, and when

While a type is lowered, the rule in charge of each type on the way runs at
most once for it, and these runs come in a fixed order: that of a tour from
the type, depth first, along what the plans ask for, where the types that
the session keeps are passed over (`Tours`). A plan stops asking at the
first type that cannot be lowered, so the same holds of a call that fails.

A script `Takes` a list of types when it asks for these and no others, in
order, unless one of them fails, which ends it. The scripts of a library
do, and that is all that the tour needs to know of them.
-/

namespace DeviceTypes.Lowering

open Source (Catalog Field TypeId)

variable {α β : Type} {ds : List TypeId}

/-! ## Scripts that ask for a list -/

/-- The script has just these types lowered, in order, and then makes its requests.
A type that fails ends it with a failure. -/
def Script.Takes : List TypeId → Script (Except Error α) → Prop
  | ds, .done _ => ds = []
  | ds, .lower i next => ∃ rest, ds = i :: rest ∧
      (∀ e, ∃ e', next (.error e) = .done (.error e')) ∧ ∀ h, (next (.ok h)).Takes rest
  | ds, .ask _ next => ds = [] ∧ ∀ a, (next a).Takes []
  | ds, .announce _ _ next => next.Takes ds

theorem Script.Takes.bind {x : Script (Except Error α)}
    {f : Except Error α → Script (Except Error β)} (hx : x.Takes ds)
    (herror : ∀ e, f (.error e) = .done (.error e)) (hok : ∀ a, (f (.ok a)).Takes []) :
    (x.bind f).Takes ds := by
  induction x generalizing ds with
  | done r =>
    rw [Script.bind]
    rcases r with e | a
    · rw [herror]
      exact hx
    · obtain rfl : ds = [] := hx
      exact hok a
  | lower i next ih =>
    obtain ⟨rest, rfl, hfails, hgoes⟩ := hx
    refine ⟨rest, rfl, fun e => ?_, fun h => ih _ (hgoes h)⟩
    obtain ⟨e', he'⟩ := hfails e
    exact ⟨e', (congrArg (Script.bind · f) he').trans (herror e')⟩
  | ask r next ih => exact ⟨hx.1, fun a => ih a (hx.2 a)⟩
  | announce owner fields next ih => exact ih hx

/-- What comes after the types may only make requests. -/
theorem LowerM.takes_bind {x : LowerM α} {f : α → LowerM β} (hx : x.run.Takes ds)
    (hf : ∀ a, (f a).run.Takes []) : (x >>= f).run.Takes ds :=
  Script.Takes.bind hx (fun _ => rfl) hf

theorem LowerM.takes_map {x : LowerM α} (f : α → β) (hx : x.run.Takes ds) :
    (f <$> x).run.Takes ds := by
  rw [← bind_pure_comp]
  exact takes_bind hx fun _ => rfl

theorem takes_members (catalog : Catalog) (owner : TypeId) (fields : List Field) :
    (members catalog owner fields).run.Takes (fields.map Field.type) := by
  induction fields with
  | nil => rfl
  | cons f rest ih =>
    exact ⟨rest.map Field.type, rfl, fun e => ⟨_, rfl⟩,
      fun h => LowerM.takes_bind ih fun _ => rfl⟩

theorem takes_orRejected (catalog : Catalog) (i : TypeId) (a : Except Rejection Handle) :
    (orRejected catalog i a).run.Takes [] := by
  cases a <;> rfl

/-- **An aggregate takes the types of its fields.** -/
theorem takes_assemble (catalog : Catalog) (owner : TypeId) (fields : List Field)
    (policy : Policy) : (assemble catalog owner fields policy).run.Takes (fields.map Field.type) := by
  change (members catalog owner fields >>= fun ms =>
    LowerM.ask (.aggregate policy ms) >>= orRejected catalog owner).run.Takes _
  exact LowerM.takes_bind (takes_members catalog owner fields) fun ms =>
    ⟨rfl, takes_orRejected catalog owner⟩

/-- **The built-in mapping takes the types of its plan.** -/
theorem takes_builtIn (catalog : Catalog) (i : TypeId) :
    (builtIn catalog i).run.Takes (Plan.builtIn catalog i).deps := by
  rw [Plan.builtIn, builtIn]
  rcases catalog.get? i with - | s | e | ⟨e, length⟩ | c | name
  · rfl
  · rfl
  · exact ⟨[], rfl, fun _ => ⟨_, rfl⟩, fun _ => ⟨rfl, takes_orRejected catalog i⟩⟩
  · exact ⟨[], rfl, fun _ => ⟨_, rfl⟩, fun _ => ⟨rfl, takes_orRejected catalog i⟩⟩
  · exact takes_assemble catalog i c.fields {}
  · rfl

/-! ## Rules that run -/

/-- The rule that runs, and the type it runs for. A rule that is asked from outside
is not one that the session runs. -/
def Moment.run? : Moment → Option (Rule × TypeId)
  | ran rule i _ => some (rule, i)
  | asked .. | mapped .. | invoked .. | answered .. => none

/-- The runs among some moments, in order. -/
def runs (ms : List Moment) : List (Rule × TypeId) := ms.filterMap Moment.run?

theorem runs_append (ms ms' : List Moment) : runs (ms ++ ms') = runs ms ++ runs ms' :=
  List.filterMap_append

/-- The rule in charge of a type, and the type. -/
def Setting.running (s : Setting) (i : TypeId) : Option (Rule × TypeId) :=
  (s.registry.ruleFor? s.catalog i).map fun rule => (rule, i)

/-- Different types make different runs. -/
theorem Setting.nodup_running (s : Setting) {order : List TypeId} (h : order.Nodup) :
    ((order.filterMap s.running).map Prod.snd).Nodup := by
  have hself : ∀ i j, j ∈ (s.running i).map Prod.snd → i = j := by
    intro i j hj
    rw [running, Option.map_map] at hj
    obtain ⟨rule, -, rfl⟩ := Option.map_eq_some_iff.1 hj
    rfl
  rw [List.map_filterMap]
  exact h.filterMap fun i i' j hi hi' => (hself i j hi).trans (hself i' j hi').symm

/-- The types a session keeps, and those it is in the middle of. -/
def Progress.reached (p : Progress) : Set TypeId := {i | (p.lowered? i).isSome ∨ i ∈ p.resolving}

namespace Library

/-- The type is meant to become a tree that the target accepts. -/
def Lowerable (L : Library) (target : Target) (i : TypeId) : Prop := ∃ T, L.Meets target i T

theorem lowerable_iff {L : Library} {target : Target} {i : TypeId} :
    L.Lowerable target i ↔
      (L.expandUpTo target Setting.depthLimit [] i).answer.toOption.isSome = true := by
  constructor
  · rintro ⟨T, hT, hacc⟩
    have hanswer : (L.expandUpTo target Setting.depthLimit [] i).answer = .ok T :=
      hT.expandUpTo hacc (above_nil L i) List.nodup_nil (Nat.lt_succ_self _)
    rw [hanswer]
    rfl
  · intro h
    rcases hanswer : (L.expandUpTo target Setting.depthLimit [] i).answer with e | T
    · rw [hanswer] at h
      cases h
    · exact ⟨T, expandUpTo_sound hanswer⟩

instance (L : Library) (target : Target) : DecidablePred (L.Lowerable target) :=
  fun _ => decidable_of_iff _ lowerable_iff.symm

/-- The types that a plan comes to ask for: up to the first that cannot be lowered. -/
def tried (L : Library) (target : Target) (i : TypeId) : List TypeId :=
  upToFailure (L.Lowerable target) (L.deps i)

end Library

variable {L : Library} {target : Target} {around : List TypeId} {p q : Progress} {i : TypeId}
variable {nested : Nested} {inner : Watch} {ms ms' : List Moment}

/-- On the way from `p` the session toured from the types `ds`, and ran the rules of
the types it met. If it went well, these are what it has reached besides. -/
structure Tours (L : Library) (target : Target) (ds : List TypeId) (p : Progress)
    (ms : List Moment) (r : Outcome α) (order : List TypeId) : Prop where
  tour : DepthFirst (L.tried target) p.reached ds order
  runs_eq : runs ms = order.filterMap L.setting.running
  reached : ∀ a, r.1 = .ok a → r.2.reached = p.reached ∪ {i | i ∈ order}

theorem Tours.nil {r : Outcome α} (hms : runs ms = [])
    (hr : r.2.reached = p.reached) : Tours L target [] p ms r [] where
  tour := .done
  runs_eq := hms
  reached _ _ := by simp [hr]

/-- What was reached when a tour began is all that it asks of the beginning. -/
theorem Tours.of_still {r : Outcome α} {order : List TypeId}
    (h : Tours L target ds q ms r order) (hq : q.reached = p.reached) :
    Tours L target ds p ms r order where
  tour := hq ▸ h.tour
  runs_eq := h.runs_eq
  reached a ha := hq ▸ h.reached a ha

/-- **One type, and then the others.** -/
theorem Tours.cons {d : TypeId} {r : Outcome Handle} {r' : Outcome α} {order order' : List TypeId}
    {h : Handle} (hd : Tours L target [d] p ms r order) (hr : r.1 = .ok h)
    (hds : Tours L target ds r.2 ms' r' order') :
    Tours L target (d :: ds) p (ms ++ ms') r' (order ++ order') where
  tour := by
    have hrest := hds.tour
    rw [hd.reached h hr] at hrest
    exact hd.tour.append hrest
  runs_eq := by rw [runs_append, hd.runs_eq, hds.runs_eq, List.filterMap_append]
  reached a ha := by
    rw [hds.reached a ha, hd.reached h hr, Set.union_assoc]
    congr 1
    ext j
    simp

/-- What is asked of a way to lower a type that comes up inside `around`. -/
structure NestedTours (L : Library) (target : Target) (around : List TypeId) (nested : Nested)
    (inner : Watch) (d : TypeId) : Prop where
  tours : ∀ q : Progress, q.Inside L target around →
    ∃ order, Tours L target [d] q (inner d q) ((nested d).run q) order
  inside : ∀ q : Progress, q.Inside L target around →
    ((nested d).run q).2.Inside L target around
  ok_iff : ∀ q : Progress, q.Inside L target around →
    ((∃ h, ((nested d).run q).1 = .ok h) ↔ L.Lowerable target d)

/-- **A script tours from the types it takes**, up to the first that cannot be lowered. -/
theorem Script.Takes.tours {x : Script (Except Error α)} (hx : x.Takes ds)
    (hn : ∀ d ∈ ds, NestedTours L target around nested inner d)
    (hp : ds ≠ [] → p.Inside L target around) :
    ∃ order, Tours L target (upToFailure (L.Lowerable target) ds) p (x.moments nested inner p)
      ((x.run (sessionHost nested)).run p) order := by
  induction x generalizing ds p with
  | done r =>
    obtain rfl : ds = [] := hx
    exact ⟨[], .nil rfl rfl⟩
  | lower d next ih =>
    obtain ⟨rest, rfl, hfails, hgoes⟩ := hx
    rw [List.forall_mem_cons] at hn
    have hinside := hp (List.cons_ne_nil d rest)
    obtain ⟨order, hd⟩ := hn.1.tours p hinside
    have hok := hn.1.ok_iff p hinside
    have hinside' := hn.1.inside p hinside
    rw [upToFailure]
    change ∃ order, Tours L target _ p (inner d p ++ (next ((nested d).run p).1).moments nested inner
      ((nested d).run p).2) (((next ((nested d).run p).1).run (sessionHost nested)).run
        ((nested d).run p).2) order
    rcases hr : ((nested d).run p).1 with e | h
    · -- the type cannot be lowered, and the script ends
      have hnot : ¬ L.Lowerable target d := by
        rw [← hok, hr]
        rintro ⟨h, hh⟩
        cases hh
      obtain ⟨e', he'⟩ := hfails e
      rw [if_neg hnot, he', Script.moments, List.append_nil]
      refine ⟨order, hd.tour, hd.runs_eq, fun a ha => ?_⟩
      cases ha
    · have hcan : L.Lowerable target d := hok.1 ⟨h, hr⟩
      obtain ⟨order', hrest⟩ := ih _ (hgoes h) hn.2 fun _ => hinside'
      rw [if_pos hcan]
      exact ⟨_, hd.cons hr hrest⟩
  | ask r next ih =>
    obtain ⟨rfl, hgoes⟩ := hx
    obtain ⟨order, hrest⟩ := ih (p.ask r).1 (hgoes _) hn fun hne => absurd rfl hne
    exact ⟨order, hrest.of_still (q := (p.ask r).2) rfl⟩
  | announce owner fields next ih =>
    obtain ⟨order, hrest⟩ := ih hx hn fun hne => (hp hne).record (.assembling owner fields)
    exact ⟨order, hrest.of_still rfl⟩

/-! ## Types -/

/-- What happens while a type is lowered anew: the rule in charge of it claims it, or
the built-in mapping has it. -/
theorem momentsAnew_eq (L : Library) (nested : Nested) (inner : Watch) (i : TypeId)
    (p : Progress) :
    L.setting.momentsAnew nested inner i p =
      match L.formFor? i with
      | none => L.setting.momentsMapped nested inner i p
      | some form =>
        .ran form.rule i p :: match form.claim? L.catalog i with
          | none => L.setting.momentsMapped nested inner i
              ((p.record (.ran form.rule.serial i)).record (.declined i form.rule.name))
          | some (fields, policy) =>
            (some <$> assemble L.catalog i fields policy).run.moments nested inner
              (p.record (.ran form.rule.serial i)) := by
  rw [Setting.momentsAnew, L.ruleFor?_setting]
  rcases L.formFor? i with - | form
  · rfl
  simp only [Option.map_some, run_runRule]
  have hbody : form.rule.body L.setting.catalog i = _ := form.body_rule L.catalog i
  rw [hbody]
  rcases form.claim? L.catalog i with - | ⟨fields, policy⟩
  · rfl
  · -- a rule that claims the type leaves nothing to the built-in mapping
    simp only
    rcases ((playNested nested (assemble L.catalog i fields policy)).run
      (p.record (.ran form.rule.serial i))).1 with e | h
    · exact congrArg _ (List.append_nil _)
    · exact congrArg _ (List.append_nil _)

namespace Progress

theorem reached_enter (p : Progress) (i : TypeId) : (p.enter i).reached = insert i p.reached := by
  ext j
  simp only [reached, Set.mem_ofPred_eq, Set.mem_insert_iff, enter, List.mem_cons]
  exact or_left_comm

/-- A type is met for the first time only if it was not reached. -/
theorem not_mem_reached_of_fresh (h : p.status i = .fresh) : i ∉ p.reached := by
  obtain ⟨hnone, hmem⟩ := of_status_fresh h
  rintro (hkept | hin)
  · rw [hnone] at hkept
    cases hkept
  · exact hmem hin

/-- A type that is left is reached still if it is kept. -/
theorem reached_leave (hq : q.resolving = i :: around) (h : Handle) :
    ((q.leave i).keepAnswer i (.ok h)).reached = q.reached := by
  ext j
  have hleave : (q.leave i).resolving = around := by
    rw [leave, hq, List.erase_cons_head]
  simp only [reached, Set.mem_ofPred_eq, lowered?_keepAnswer_ok, resolving_keepAnswer, hleave, hq,
    List.mem_cons]
  have hlowered : (q.leave i).lowered? j = q.lowered? j := rfl
  rw [hlowered]
  by_cases hj : j = i
  · simp [hj]
  · simp [hj]

end Progress

/-- **A type lowered anew** is met, and the tour goes on with what its plan comes to
ask for. -/
theorem exists_tour_lowerAnew (hn : ∀ d ∈ L.deps i, NestedTours L target around nested inner d)
    (hp : p.Inside L target around) :
    ∃ order, DepthFirst (L.tried target) p.reached (L.tried target i) order ∧
      runs (L.setting.momentsAnew nested inner i p) =
        (L.setting.running i).toList ++ order.filterMap L.setting.running ∧
      ∀ h, ((L.setting.lowerAnew nested i).run p).1 = .ok h →
        ((L.setting.lowerAnew nested i).run p).2.reached = p.reached ∪ {j | j ∈ order} := by
  have hrunning : L.setting.running i = (L.formFor? i).map fun form => (form.rule, i) := by
    rw [Setting.running, L.ruleFor?_setting, Option.map_map]
    rfl
  rw [run_lowerAnew, momentsAnew_eq, hrunning]
  rw [Library.tried, Library.deps, Library.plan]
  rw [Library.deps, Library.plan] at hn
  generalize L.formFor? i = form? at hn ⊢
  rcases form? with - | form
  · obtain ⟨order, htours⟩ := (takes_builtIn L.catalog i).tours hn fun _ => hp
    exact ⟨order, htours.tour, htours.runs_eq, htours.reached⟩
  simp only [Option.bind_some] at hn ⊢
  generalize form.claim? L.catalog i = claim? at hn ⊢
  rcases claim? with - | ⟨fields, policy⟩
  · obtain ⟨order, htours⟩ := (takes_builtIn L.catalog i).tours hn fun _ =>
      (hp.record (.ran form.rule.serial i)).record (.declined i form.rule.name)
    exact ⟨order, htours.tour, congrArg (_ :: ·) htours.runs_eq, htours.reached⟩
  · have htakes := LowerM.takes_map some (takes_assemble L.catalog i fields policy)
    obtain ⟨order, htours⟩ := htakes.tours hn fun _ => hp.record (.ran form.rule.serial i)
    refine ⟨order, htours.tour, congrArg (_ :: ·) htours.runs_eq, ?_⟩
    have hreached : ∀ a, ((playNested nested (some <$> assemble L.catalog i fields policy)).run
        (p.record (.ran form.rule.serial i))).1 = .ok a →
        ((playNested nested (some <$> assemble L.catalog i fields policy)).run
          (p.record (.ran form.rule.serial i))).2.reached = p.reached ∪ {j | j ∈ order} :=
      htours.reached
    rw [run_playNested_map] at hreached
    simp only
    generalize (playNested nested (assemble L.catalog i fields policy)).run
      (p.record (.ran form.rule.serial i)) = r at hreached ⊢
    obtain ⟨e | h, q⟩ := r
    · rintro h ⟨⟩
    · exact fun _ _ => hreached _ rfl

/-- **A type that is met** begins a tour, with the rule in charge of it as the first to
run. In the end it is left, and kept if it was lowered. -/
theorem Tours.enter {r : Outcome Handle} {order : List TypeId} (hnew : i ∉ p.reached)
    (htour : DepthFirst (L.tried target) (insert i p.reached) (L.tried target i) order)
    (hruns : runs ms = (L.setting.running i).toList ++ order.filterMap L.setting.running)
    (hreached : ∀ h, r.1 = .ok h → r.2.reached = insert i p.reached ∪ {j | j ∈ order})
    (hresolving : r.2.resolving = i :: around) :
    Tours L target [i] p ms (r.1, (r.2.leave i).keepAnswer i r.1) (i :: order) where
  tour := .enter hnew (by rwa [List.append_nil])
  runs_eq := by
    rw [hruns, List.filterMap_cons]
    cases L.setting.running i <;> rfl
  reached h hh := by
    have hok : r.1 = .ok h := hh
    rw [hok, Progress.reached_leave hresolving, hreached h hok]
    ext j
    simp only [Set.mem_union, Set.mem_insert_iff, Set.mem_ofPred_eq, List.mem_cons]
    tauto

/-- A session lowers what can be lowered, and nothing else. -/
theorem lowerUpTo_ok_iff {depth : Nat} (hp : p.Inside L target around) (habove : L.Above around i)
    (hnodup : around.Nodup) (hdepth : UInt32.size < depth + around.length) :
    (∃ h, ((L.setting.lowerUpTo depth i).run p).1 = .ok h) ↔ L.Lowerable target i := by
  have hagrees := (lowerUpTo_follows hp habove hnodup hdepth).agrees
  constructor
  · rintro ⟨h, hh⟩
    rw [hh] at hagrees
    obtain ⟨T, hT, -⟩ := hagrees.of_right
    exact ⟨T, Library.expandUpTo_sound hT⟩
  · rintro ⟨T, hT, hacc⟩
    rw [hT.expandUpTo hacc habove hnodup hdepth] at hagrees
    obtain ⟨h, hh, -⟩ := hagrees.of_left
    exact ⟨h, hh⟩

/-- **Lowering a type is a tour from it.** -/
theorem exists_tours_lowerUpTo {depth : Nat} (hp : p.Inside L target around)
    (habove : L.Above around i) (hnodup : around.Nodup)
    (hdepth : UInt32.size < depth + around.length) :
    ∃ order, Tours L target [i] p (L.setting.momentsUpTo depth i p)
      ((L.setting.lowerUpTo depth i).run p) order := by
  induction depth generalizing around i p with
  | zero =>
    have := Library.length_le_of_nodup hnodup
    omega
  | succ depth ih =>
    rw [Setting.momentsUpTo, Setting.lowerUpTo_succ, Setting.run_visit]
    rcases hs : (p.record (.requested i)).status i with h | - | - <;> simp only [hs]
    · -- kept: passed over
      have hseen : i ∈ p.reached := Or.inl (by
        rw [show p.lowered? i = some h from Progress.lowered?_of_status hs]
        rfl)
      exact ⟨[], .skip hseen .done, rfl, fun _ _ => by simp; rfl⟩
    · -- in progress: passed over, and the call fails
      have hseen : i ∈ p.reached := Or.inr (Progress.of_status_resolving hs).2
      exact ⟨[], .skip hseen .done, rfl, fun _ hok => by cases hok⟩
    · -- new: met, with all that its plan comes to ask for
      have hmem : i ∉ around := hp.resolving_eq ▸ (Progress.of_status_fresh hs).2
      have hnodup' : (i :: around).Nodup := List.nodup_cons.2 ⟨hmem, hnodup⟩
      have hdepth' : UInt32.size < depth + (i :: around).length := by
        rw [List.length_cons]
        omega
      have hfollows := fun d (hd : d ∈ L.deps i) (q : Progress)
          (hq : q.Inside L target (i :: around)) =>
        lowerUpTo_follows hq (habove.dep hd) hnodup' hdepth'
      have hn : ∀ d ∈ L.deps i, NestedTours L target (i :: around) (L.setting.lowerUpTo depth)
          (L.setting.momentsUpTo depth) d := fun d hd => {
        tours := fun q hq => ih hq (habove.dep hd) hnodup' hdepth'
        inside := fun q hq => (hfollows d hd q hq).steps.inside
        ok_iff := fun q hq => lowerUpTo_ok_iff hq (habove.dep hd) hnodup' hdepth' }
      have hentered := (hp.record (.requested i)).enter i
      obtain ⟨order, htour, hruns, hreached⟩ := exists_tour_lowerAnew hn hentered
      rw [Progress.reached_enter] at htour hreached
      refine ⟨_, .enter (Progress.not_mem_reached_of_fresh hs) htour ?_ hreached
        (lowerAnew_builds i hfollows hentered).inside.resolving_eq⟩
      rw [← hruns]
      exact (runs_append _ _).trans (List.append_nil _)

/-! ## Calls -/

/-- **No rule gets a type again that was answered with success.** -/
theorem Course.pairwise_answered {s : Setting} (h : Course s p ms q) :
    ms.Pairwise fun m m' => ∀ i p' a q', m = .answered i p' (.ok a) q' →
      ∀ rule p'', m' ≠ .ran rule i p'' := by
  have hsorted : ms.Pairwise fun m m' => m ∈ ms ∧ m' ∈ ms ∧ m.now.Keeps m'.now :=
    List.Pairwise.and_mem.1 h.sorted
  refine hsorted.imp ?_
  rintro m m' ⟨hm, hm', hkeeps⟩ i p' a q' rfl rule p'' rfl
  obtain ⟨-, -, hkept, -, -⟩ := h.inOrder _ hm
  -- the type is kept from its answer on, and a rule gets only what is not kept
  have hlater : p''.lowered? i = some a := hkeeps i a (hkept a rfl)
  have hnone : p''.lowered? i = none := h.inOrder _ hm'
  rw [hnone] at hlater
  cases hlater

namespace Library

/-- What happens during a call to a session. -/
def moments (L : Library) (p : Progress) : Call → List Moment
  | .lower i => L.setting.moments i p
  | .invoke form i => (L.setting.call p (.invoke form.rule i)).1
  | .assemble owner fields policy =>
    (assemble L.catalog owner fields policy).run.moments L.setting.lower L.setting.moments p

/-- What happens during some calls, one after another. -/
def listing (L : Library) (p : Progress) : List Call → List Moment
  | [] => []
  | c :: rest => L.moments p c ++ L.listing (L.after p c) rest

theorem course_after (L : Library) (hp : p.Apart) (hr : p.resolving = []) (c : Call) :
    Course L.setting p (L.moments p c) (L.after p c) := by
  cases c with
  | lower i => exact Setting.course_call hp hr (.lower i)
  | invoke form i => exact Setting.course_call hp hr (.invoke form.rule i)
  | assemble owner fields policy =>
    obtain ⟨asked, hrun⟩ := run_recording (sessionHost L.setting.lower)
      (assemble L.catalog owner fields policy).run [] p
    have hafter : L.after p (.assemble owner fields policy) =
        (((assemble L.catalog owner fields policy).run.run (sessionHost L.setting.lower)).run p).2 :=
      congrArg Prod.snd hrun
    rw [hafter]
    exact Course.script (Course.nests_lower L.setting) _ hp hr

theorem course_listing (L : Library) (hp : p.Apart) (hr : p.resolving = []) (calls : List Call) :
    Course L.setting p (L.listing p calls) (calls.foldl L.after p) := by
  induction calls generalizing p with
  | nil => exact .still hp rfl rfl rfl
  | cons c rest ih =>
    have hfirst := L.course_after hp hr c
    exact hfirst.trans (ih hfirst.apart (hfirst.resolving_eq.trans hr))

/-- Between calls every type is lowered by a tour. -/
theorem nestedTours_lower (L : Library) (target : Target) (d : TypeId) :
    NestedTours L target [] L.setting.lower L.setting.moments d where
  tours _ hq := exists_tours_lowerUpTo hq (above_nil L d) List.nodup_nil (Nat.lt_succ_self _)
  inside _ hq := (lower_follows hq d).steps.inside
  ok_iff _ hq := lowerUpTo_ok_iff hq (above_nil L d) List.nodup_nil (Nat.lt_succ_self _)

/-- **Every call is a tour**, from some types. -/
theorem exists_runs_eq (hp : p.Inside L target []) (c : Call) :
    ∃ order : List TypeId, runs (L.moments p c) = order.filterMap L.setting.running := by
  have hn := fun (ds : List TypeId) d (_ : d ∈ ds) => nestedTours_lower L target d
  cases c with
  | lower i =>
    obtain ⟨order, htours⟩ := (nestedTours_lower L target i).tours p hp
    exact ⟨order, htours.runs_eq⟩
  | invoke form i =>
    have hbody : form.rule.body L.setting.catalog i = _ := form.body_rule L.catalog i
    rw [moments, Setting.call, hbody]
    rcases form.claim? L.catalog i with - | ⟨fields, policy⟩
    · exact ⟨[], rfl⟩
    · obtain ⟨order, htours⟩ := (LowerM.takes_map some
        (takes_assemble L.catalog i fields policy)).tours (hn _) fun _ =>
          hp.record (.ran form.rule.serial i)
      exact ⟨order, htours.runs_eq⟩
  | assemble owner fields policy =>
    obtain ⟨order, htours⟩ := (takes_assemble L.catalog owner fields policy).tours (hn _)
      fun _ => hp
    exact ⟨order, htours.runs_eq⟩

/-- **The rule that runs is the one in charge.** -/
theorem ruleFor?_of_mem_runs (hp : p.Inside L target []) (calls : List Call) {rule : Rule}
    (h : (rule, i) ∈ runs (L.listing p calls)) :
    L.setting.registry.ruleFor? L.catalog i = some rule := by
  induction calls generalizing p with
  | nil => cases h
  | cons c rest ih =>
    rw [listing, runs_append, List.mem_append] at h
    rcases h with h | h
    · obtain ⟨order, hruns⟩ := exists_runs_eq hp c
      rw [hruns] at h
      obtain ⟨j, -, hj⟩ := List.mem_filterMap.1 h
      obtain ⟨rule', hrule, heq⟩ := Option.map_eq_some_iff.1 hj
      cases heq
      exact hrule
    · exact ih (inside_after hp c) h

/-- What is met on the way to an answer is kept in the end, and could be lowered. -/
theorem tried_eq_deps (hp : p.Inside L target []) (hi : (p.lowered? i).isSome) :
    L.tried target i = L.deps i := by
  refine upToFailure_of_forall fun d hd => ?_
  obtain ⟨h, hh⟩ := Option.isSome_iff_exists.1 (hp.closed i hi d hd)
  obtain ⟨T, hT, -⟩ := hp.lowered d h hh
  exact ⟨T, hT⟩

/-- **Each type is lowered once.** In a session after any calls:

* lowering a type runs the rules in charge of the types it meets on a tour from
  that type, depth first, in the order in which plans ask for types, where the
  types kept before are passed over. There is one such tour, so it says which
  rules run and when; and no rule runs twice for one type. A plan asks up to the
  first type that cannot be lowered, and if the call succeeds there is none on
  the tour;
* during all the calls, a rule runs for a type only if it is in charge of it;
* once a type was answered with success, no rule runs for it any more.

The log bears the listing out: it has the same requests and the same rules run,
in the same order. -/
theorem rules_run_once (L : Library) {w : World} (hw : w.Reachable) {context : Nat} {u : Universe}
    (hu : w.universe? context = some u) (calls : List Call) :
    let p := L.session u calls
    let all := L.listing (opened u) calls
    (∀ i, ∃ order,
      DepthFirst (L.tried u.target) {j | (p.lowered? j).isSome} [i] order ∧
      (∀ order', DepthFirst (L.tried u.target) {j | (p.lowered? j).isSome} [i] order' →
        order' = order) ∧
      runs (L.setting.moments i p) = order.filterMap L.setting.running ∧
      ((runs (L.setting.moments i p)).map Prod.snd).Nodup ∧
      ∀ h, ((L.setting.lower i).run p).1 = .ok h →
        DepthFirst L.deps {j | (p.lowered? j).isSome} [i] order) ∧
    (∀ rule j, (rule, j) ∈ runs all →
      L.setting.registry.ruleFor? L.setting.catalog j = some rule) ∧
    (all.Pairwise fun m m' => ∀ j q h q', m = .answered j q (.ok h) q' →
      ∀ rule q'', m' ≠ .ran rule j q'') ∧
    p.openings = all.filterMap Moment.event? := by
  intro p all
  have hsound := hw.universe hu
  have hp : p.Inside L u.target [] := inside_session L hsound calls
  have hopened := inside_opened L hsound
  have hapart : (opened u).Apart := ⟨List.nodup_nil, List.forall_mem_nil _⟩
  have hcourse : Course L.setting (opened u) all p := L.course_listing hapart rfl calls
  have hreached : ∀ q : Progress, q.resolving = [] →
      q.reached = {j | (q.lowered? j).isSome} := by
    intro q hq
    simp [Progress.reached, hq]
  refine ⟨fun i => ?_, fun rule j => ruleFor?_of_mem_runs hopened calls,
    hcourse.pairwise_answered, hcourse.openings_eq⟩
  obtain ⟨order, htours⟩ := (nestedTours_lower L u.target i).tours p hp
  have htour := htours.tour
  have hafter := (lower_follows hp i).steps.inside
  rw [hreached p hp.resolving_eq] at htour
  refine ⟨order, htour, fun order' h' => h'.functional htour, htours.runs_eq, ?_,
    fun h hh => htour.congr fun j hj => ?_⟩
  · rw [htours.runs_eq]
    exact L.setting.nodup_running htour.nodup.1
  · have hkept : j ∈ ((L.setting.lower i).run p).2.reached := by
      rw [htours.reached h hh]
      exact Or.inr hj
    rw [hreached _ hafter.resolving_eq] at hkept
    exact tried_eq_deps hafter hkept

/-- When its array is kept, both a composite that is lowered and one that is refused
run the rule of the family once, for the composite that they lead to by two
ways or by one. -/
theorem rules_run_once_linked :
    ∃ (w : World) (u : Universe), w.Reachable ∧ w.universe? 0 = some u ∧
      let p := linked.session u [.lower ⟨11⟩]
      (runs (linked.setting.moments ⟨14⟩ p)).map Prod.snd = [⟨12⟩] ∧
      (runs (linked.setting.moments ⟨15⟩ p)).map Prod.snd = [⟨12⟩] ∧
      (∃ order, DepthFirst linked.deps {j | (p.lowered? j).isSome} [⟨14⟩] order ∧
        runs (linked.setting.moments ⟨14⟩ p) = order.filterMap linked.setting.running) ∧
      ∃ order, DepthFirst (linked.tried u.target) {j | (p.lowered? j).isSome} [⟨15⟩] order ∧
        runs (linked.setting.moments ⟨15⟩ p) = order.filterMap linked.setting.running := by
  have hrun : ((World.empty.replay [.newTable, .newContext 0 .device64]).bind fun w =>
      w.universe? 0).map (fun u =>
        let p := linked.session u [.lower ⟨11⟩]
        ((runs (linked.setting.moments ⟨14⟩ p)).map Prod.snd,
          (runs (linked.setting.moments ⟨15⟩ p)).map Prod.snd,
          Outcome.answer? ((linked.setting.lower ⟨14⟩).run p))) =
      some ([⟨12⟩], [⟨12⟩], some (.minted 0 3)) := by decide +kernel
  obtain ⟨u, huw, hvalues⟩ := Option.map_eq_some_iff.1 hrun
  obtain ⟨w, hreplay, hu⟩ := Option.bind_eq_some_iff.1 huw
  have hw : w.Reachable := World.leads_of_replay hreplay
  simp only [Prod.mk.injEq] at hvalues
  obtain ⟨hnode, hloop, hok⟩ := hvalues
  obtain ⟨htours, -⟩ := rules_run_once linked hw hu [.lower ⟨11⟩]
  obtain ⟨order, -, -, hruns, -, htour⟩ := htours ⟨14⟩
  obtain ⟨order', htour', -, hruns', -⟩ := htours ⟨15⟩
  exact ⟨w, u, hw, hu, hnode, hloop,
    ⟨order, htour _ (Outcome.answer?_eq_some_iff.1 hok), hruns⟩, order', htour', hruns'⟩

end Library

end DeviceTypes.Lowering
