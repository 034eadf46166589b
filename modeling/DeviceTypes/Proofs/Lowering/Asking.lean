import DeviceTypes.Proofs.Lowering.Moments
import DeviceTypes.Proofs.Lowering.Simulation
/-!
# What is asked for on the way

A script asks for types, and which ones may depend on what it is answered.
`Script.Asks` bounds them: whatever the answers, the types asked for have
some property. What a library lowers asks for the types of its plan and
for no other (`Library.asks_deps`).

Such a bound is what facts about whole runs need. A property of stretches
of a session is `Cumulative` when it holds of the steps that open nothing
and carries over from two stretches to both together; it then holds of
every script, and of every type lowered anew, whose nested types have it.
-/

namespace DeviceTypes.Lowering

open Source (Catalog Field TypeId)

variable {α β : Type} {C : TypeId → Prop}

namespace Script

/-- Whatever it is answered, the script asks for types with the property only. -/
def Asks (C : TypeId → Prop) : Script α → Prop
  | done _ => True
  | lower i next => C i ∧ ∀ r, (next r).Asks C
  | ask _ next => ∀ a, (next a).Asks C
  | announce _ _ next => next.Asks C

theorem Asks.bind {x : Script α} {f : α → Script β} (hx : x.Asks C) (hf : ∀ a, (f a).Asks C) :
    (x.bind f).Asks C := by
  induction x with
  | done a => exact hf a
  | lower i next ih => exact ⟨hx.1, fun r => ih r (hx.2 r)⟩
  | ask r next ih => exact fun a => ih a (hx a)
  | announce owner fields next ih => exact ih hx

/-- Nothing is asked of a script that may ask for anything. -/
theorem asks_of_forall (hC : ∀ i, C i) (x : Script α) : x.Asks C := by
  induction x with
  | done a => trivial
  | lower i next ih => exact ⟨hC i, ih⟩
  | ask r next ih => exact ih
  | announce owner fields next ih => exact ih

end Script

theorem LowerM.asks_bind {x : LowerM α} {f : α → LowerM β} (hx : x.run.Asks C)
    (hf : ∀ a, (f a).run.Asks C) : (x >>= f).run.Asks C := by
  change (x.run.bind (ExceptT.bindCont f)).Asks C
  refine hx.bind fun r => ?_
  cases r with
  | error e => trivial
  | ok a => exact hf a

theorem LowerM.asks_map {x : LowerM α} (f : α → β) (hx : x.run.Asks C) :
    (f <$> x).run.Asks C := by
  rw [← bind_pure_comp]
  exact LowerM.asks_bind hx fun _ => trivial

theorem asks_members (catalog : Catalog) (owner : TypeId) {fields : List Field}
    (h : ∀ j ∈ fields.map Field.type, C j) : (members catalog owner fields).run.Asks C := by
  induction fields with
  | nil => trivial
  | cons f rest ih =>
    rw [List.map_cons, List.forall_mem_cons] at h
    have hfirst : ((LowerM.lower f.type).reword
        fun e => .field (catalog.nameOf owner) f.name e).run.Asks C := ⟨h.1, fun _ => trivial⟩
    exact LowerM.asks_bind hfirst fun a => LowerM.asks_bind (ih h.2) fun _ => trivial

theorem asks_orRejected (catalog : Catalog) (i : TypeId) (a : Except Rejection Handle) :
    (orRejected catalog i a).run.Asks C := by
  cases a <;> trivial

/-- **An aggregate asks for the types of its fields.** -/
theorem asks_assemble (catalog : Catalog) (owner : TypeId) {fields : List Field}
    (policy : Policy) (h : ∀ j ∈ fields.map Field.type, C j) :
    (assemble catalog owner fields policy).run.Asks C :=
  LowerM.asks_bind (x := LowerM.announce owner fields.length) trivial fun _ =>
    LowerM.asks_bind (asks_members catalog owner h) fun ms =>
      LowerM.asks_bind (x := LowerM.ask (.aggregate policy ms)) (fun _ => trivial)
        (asks_orRejected catalog owner)

/-- **The built-in mapping asks for the types of its plan.** -/
theorem asks_builtIn (catalog : Catalog) (i : TypeId)
    (h : ∀ j ∈ (Plan.builtIn catalog i).deps, C j) : (builtIn catalog i).run.Asks C := by
  rw [Plan.builtIn] at h
  rw [builtIn]
  generalize catalog.get? i = descriptor at h ⊢
  rcases descriptor with - | s | e | ⟨e, length⟩ | c | name
  · trivial
  · trivial
  · have he : (LowerM.lower e).run.Asks C := ⟨h e (List.mem_singleton.2 rfl), fun _ => trivial⟩
    exact LowerM.asks_bind he fun a =>
      LowerM.asks_bind (x := LowerM.ask (.pointer a .global)) (fun _ => trivial)
        (asks_orRejected catalog i)
  · have he : (LowerM.lower e).run.Asks C := ⟨h e (List.mem_singleton.2 rfl), fun _ => trivial⟩
    exact LowerM.asks_bind he fun a =>
      LowerM.asks_bind (x := LowerM.ask (.array a length)) (fun _ => trivial)
        (asks_orRejected catalog i)
  · exact asks_assemble catalog i {} h
  · trivial

/-- What lowering a type anew asks for has the property: what the rule in charge
asks for, and, unless the rule always claims the type, what the built-in
mapping does. -/
structure Setting.Asks (s : Setting) (C : TypeId → Prop) (i : TypeId) : Prop where
  rule : ∀ rule, s.registry.ruleFor? s.catalog i = some rule → (rule.body s.catalog i).run.Asks C
  mapped : (∀ rule, s.registry.ruleFor? s.catalog i = some rule →
    ∃ nested p, ((s.runRule nested rule i).run p).1 = .ok none) → (builtIn s.catalog i).run.Asks C

theorem Setting.asks_of_forall (s : Setting) (hC : ∀ i, C i) (i : TypeId) : s.Asks C i :=
  ⟨fun _ _ => Script.asks_of_forall hC _, fun _ => Script.asks_of_forall hC _⟩

namespace Library

variable {L : Library} {i : TypeId}

theorem plan_of_claim {fields : List Field} {policy : Policy}
    (h : (L.formFor? i).bind (Form.claim? L.catalog i) = some (fields, policy)) :
    L.plan i = .aggregate fields policy := by
  rw [plan, h]

theorem plan_of_unclaimed (h : (L.formFor? i).bind (Form.claim? L.catalog i) = none) :
    L.plan i = .builtIn L.catalog i := by
  rw [plan, h]

/-- **A library asks for the types of its plans**, and for no other. -/
theorem asks_deps (L : Library) (i : TypeId) : L.setting.Asks (· ∈ L.deps i) i := by
  refine ⟨fun rule hrule => ?_, fun hdeclines => asks_builtIn L.catalog i fun j hj => ?_⟩
  · rw [L.ruleFor?_setting, Option.map_eq_some_iff] at hrule
    obtain ⟨form, hform, rfl⟩ := hrule
    change (form.rule.body L.catalog i).run.Asks _
    rw [form.body_rule]
    rcases hclaim : form.claim? L.catalog i with - | ⟨fields, policy⟩
    · trivial
    · refine LowerM.asks_map some (asks_assemble L.catalog i policy fun j hj => ?_)
      rw [deps, plan_of_claim (by rw [hform, Option.bind_some, hclaim])]
      exact hj
  · have hunclaimed : (L.formFor? i).bind (Form.claim? L.catalog i) = none := by
      rcases hform : L.formFor? i with - | form
      · rfl
      rcases hclaim : form.claim? L.catalog i with - | ⟨fields, policy⟩
      · exact hclaim
      · -- a rule that claims the type never leaves it to the built-in mapping
        have hrule : L.setting.registry.ruleFor? L.setting.catalog i = some form.rule := by
          rw [L.ruleFor?_setting, hform]
          rfl
        obtain ⟨nested, p, hnone⟩ := hdeclines form.rule hrule
        rw [run_runRule, hclaim] at hnone
        simp only at hnone
        generalize ((playNested nested (assemble L.catalog i fields policy)).run
          (p.record (.ran form.rule.serial i))).1 = answer at hnone
        cases answer <;> cases hnone
    rw [deps, plan_of_unclaimed hunclaimed]
    exact hj

end Library

/-! ## Whole runs -/

/-- A property of stretches of a session that holds of steps that open nothing,
and of any two stretches in a row that have it. -/
structure Cumulative (Q : Progress → List Moment → Progress → Prop) : Prop where
  resolving_eq : ∀ {p ms q}, Q p ms q → q.resolving = p.resolving
  still : ∀ {p q : Progress}, q.resolving = p.resolving → q.lowered = p.lowered → Q p [] q
  ran : ∀ rule i p, Q p [.ran rule i p] p
  mapped : ∀ i p, Q p [.mapped i p] p
  trans : ∀ {p ms q ms' r}, Q p ms q → Q q ms' r → Q p (ms ++ ms') r

variable {Q : Progress → List Moment → Progress → Prop} {s : Setting} {i : TypeId}
variable {around : List TypeId} {nested nested' : Nested} {inner : Watch} {p : Progress}

/-- **A script has what the types it asks for have.** -/
theorem Cumulative.script (hQ : Cumulative Q)
    (hn : ∀ j, C j → ∀ p, p.resolving = around → Q p (inner j p) ((nested j).run p).2)
    {x : Script α} (hx : x.Asks C) (hr : p.resolving = around) :
    Q p (x.moments nested inner p) ((x.run (sessionHost nested)).run p).2 := by
  induction x generalizing p with
  | done a => exact hQ.still rfl rfl
  | lower j next ih =>
    have hfirst := hn j hx.1 p hr
    exact hQ.trans hfirst (ih _ (hx.2 _) ((hQ.resolving_eq hfirst).trans hr))
  | ask r next ih =>
    have hfirst : Q p [] (p.ask r).2 := hQ.still rfl rfl
    exact hQ.trans hfirst (ih _ (hx _) hr)
  | announce owner fields next ih =>
    have hfirst : Q p [] (p.record (.assembling owner fields)) := hQ.still rfl rfl
    exact hQ.trans hfirst (ih hx hr)

/-- **A type lowered anew has what the types it asks for have.** -/
theorem Cumulative.lowerAnew (hQ : Cumulative Q) (hs : s.Asks C i)
    (hn : ∀ j, C j → ∀ p, p.resolving = around → Q p (inner j p) ((nested j).run p).2)
    (hr : p.resolving = around) :
    Q p (s.momentsAnew nested inner i p) ((s.lowerAnew nested i).run p).2 := by
  have hmapped : (builtIn s.catalog i).run.Asks C → ∀ p, p.resolving = around →
      Q p (s.momentsMapped nested inner i p)
        ((playNested nested (builtIn s.catalog i)).run p).2 := by
    intro hasks p hr
    exact hQ.trans (hQ.mapped i p) (hQ.script hn hasks hr)
  rw [Setting.momentsAnew, Setting.lowerAnew]
  rcases hrule : s.registry.ruleFor? s.catalog i with - | rule
  · refine hmapped (hs.mapped fun rule h => ?_) p hr
    rw [hrule] at h
    cases h
  have hran : Q p [.ran rule i p] (p.record (.ran rule.serial i)) :=
    hQ.trans (hQ.ran rule i p) (hQ.still rfl rfl)
  have hbody := hQ.trans hran (hQ.script hn (hs.rule rule hrule) hr)
  change Q p _ ((s.runRule nested rule i).run p).2 at hbody
  simp only [StateT.run_bind]
  rcases hrun : (s.runRule nested rule i).run p with ⟨a, p'⟩
  rw [hrun] at hbody
  have hr' : p'.resolving = around := (hQ.resolving_eq hbody).trans hr
  rcases a with e | - | h
  · exact hQ.trans hbody (hQ.still rfl rfl)
  · have hdeclined : Q p' [] (p'.record (.declined i rule.name)) := hQ.still rfl rfl
    have hasks : (builtIn s.catalog i).run.Asks C := by
      refine hs.mapped fun rule' h => ?_
      obtain rfl := Option.some.inj (hrule.symm.trans h)
      exact ⟨nested, p, by rw [hrun]⟩
    exact hQ.trans hbody (hQ.trans hdeclined (hmapped hasks _ hr'))
  · exact hQ.trans hbody (hQ.still rfl rfl)

/-! ## Ways to lower that agree -/

/-- Two ways to lower types do the same with a type inside the types `around`, and
leave these in progress. -/
def AgreeAt (around : List TypeId) (nested nested' : Nested) (i : TypeId) : Prop :=
  ∀ p : Progress, p.resolving = around →
    (nested i).run p = (nested' i).run p ∧ ((nested i).run p).2.resolving = p.resolving

/-- A script leaves the types in progress as the types it asks for do. -/
theorem Script.resolving_run (hn : ∀ j, C j → AgreeAt around nested nested' j) {x : Script α}
    (hx : x.Asks C) (hr : p.resolving = around) :
    ((x.run (sessionHost nested)).run p).2.resolving = around := by
  induction x generalizing p with
  | done a => exact hr
  | lower j next ih => exact ih _ (hx.2 _) (((hn j hx.1 p hr).2).trans hr)
  | ask r next ih => exact ih _ (hx _) (p := (p.ask r).2) hr
  | announce owner fields next ih => exact ih hx (p := p.record (.assembling owner fields)) hr

/-- **A script cannot tell two ways to lower apart** that agree on the types it
asks for. -/
theorem Script.run_congr (hn : ∀ j, C j → AgreeAt around nested nested' j) {x : Script α}
    (hx : x.Asks C) (hr : p.resolving = around) :
    (x.run (sessionHost nested)).run p = (x.run (sessionHost nested')).run p := by
  induction x generalizing p with
  | done a => rfl
  | lower j next ih =>
    obtain ⟨hsame, hresolving⟩ := hn j hx.1 p hr
    have hstep : ∀ n : Nested, ((lower j next).run (sessionHost n)).run p =
        ((next ((n j).run p).1).run (sessionHost n)).run ((n j).run p).2 := fun _ => rfl
    rw [hstep, hstep, ← hsame]
    exact ih _ (hx.2 _) (hresolving.trans hr)
  | ask r next ih => exact ih _ (hx _) (p := (p.ask r).2) hr
  | announce owner fields next ih => exact ih hx (p := p.record (.assembling owner fields)) hr

/-- **Nor can what lowers a type anew.** -/
theorem Setting.lowerAnew_congr (hs : s.Asks C i)
    (hn : ∀ j, C j → AgreeAt around nested nested' j) (hr : p.resolving = around) :
    (s.lowerAnew nested i).run p = (s.lowerAnew nested' i).run p := by
  have hmapped : (builtIn s.catalog i).run.Asks C → ∀ p : Progress, p.resolving = around →
      (playNested nested (builtIn s.catalog i)).run p =
        (playNested nested' (builtIn s.catalog i)).run p :=
    fun hasks p hr => Script.run_congr hn hasks hr
  rw [lowerAnew, lowerAnew]
  rcases hrule : s.registry.ruleFor? s.catalog i with - | rule
  · refine hmapped (hs.mapped fun rule h => ?_) p hr
    rw [hrule] at h
    cases h
  have hran : (p.record (.ran rule.serial i)).resolving = around := hr
  have hbody : (s.runRule nested rule i).run p = (s.runRule nested' rule i).run p :=
    Script.run_congr hn (hs.rule rule hrule) hran
  have hkeep : ((s.runRule nested rule i).run p).2.resolving = around :=
    Script.resolving_run hn (hs.rule rule hrule) hran
  simp only [StateT.run_bind, ← hbody]
  rcases hrun : (s.runRule nested rule i).run p with ⟨a, p'⟩
  rw [hrun] at hkeep
  rcases a with e | - | h
  · rfl
  · refine hmapped (hs.mapped fun rule' h => ?_) (p'.record (.declined i rule.name)) hkeep
    obtain rfl := Option.some.inj (hrule.symm.trans h)
    exact ⟨nested, p, by rw [hrun]⟩
  · rfl

end DeviceTypes.Lowering
