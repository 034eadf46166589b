import DeviceTypes.Proofs.Lowering.Meaning
import DeviceTypes.Proofs.Lowering.Twins
import DeviceTypes.Proofs.Source.Catalog
/-!
# Rules that change nothing

A rule is plain when it assembles a composite from its own declared fields
under the default policy, be it by its key or from a list that repeats them.
Whatever a plain rule claims, it does as the built-in mapping would
(`Form.Plain.builtIn_eq`), and what it declines is left to the built-in
mapping anyway. So a library of plain rules and the bare catalogue keep
sessions in step, whichever rule is found under which key
(`lower_eq_lower_bare`).
-/

namespace DeviceTypes.Lowering

open Source (Catalog Composite TypeId)

namespace Form

/-- The rule has the default policy, and a list of its own only if that is the
declared fields of the composite it is meant for. -/
def Plain (catalog : Catalog) : Form → Prop
  | declared _ _ policy => policy = {}
  | listed _ target fields policy =>
    policy = {} ∧ (catalog.composite? target).map Composite.fields = some fields

instance (catalog : Catalog) (form : Form) : Decidable (form.Plain catalog) :=
  match form with
  | declared _ _ policy => inferInstanceAs (Decidable (policy = {}))
  | listed _ target fields policy =>
    inferInstanceAs (Decidable (policy = {} ∧
      (catalog.composite? target).map Composite.fields = some fields))

variable {catalog : Catalog} {i : TypeId} {form : Form}

/-- A plain rule claims composites, with their own fields and the default policy. -/
theorem Plain.claim?_eq (h : form.Plain catalog) {fields : List Source.Field} {policy : Policy}
    (hclaim : form.claim? catalog i = some (fields, policy)) :
    policy = {} ∧ (catalog.composite? i).map Composite.fields = some fields := by
  cases form with
  | declared serial key policy' =>
    rw [claim?, Option.ite_none_right_eq_some, Option.map_eq_some_iff] at hclaim
    obtain ⟨-, c, hc, heq⟩ := hclaim
    obtain ⟨rfl, rfl⟩ := Prod.ext_iff.1 heq
    exact ⟨h, by rw [hc]; rfl⟩
  | listed serial target fields' policy' =>
    rw [claim?, Option.ite_none_right_eq_some, Option.some.injEq] at hclaim
    obtain ⟨rfl, heq⟩ := hclaim
    obtain ⟨rfl, rfl⟩ := Prod.ext_iff.1 heq
    exact h

/-- **What a plain rule claims, the built-in mapping does alike.** -/
theorem Plain.builtIn_eq (h : form.Plain catalog) {fields : List Source.Field} {policy : Policy}
    (hclaim : form.claim? catalog i = some (fields, policy)) :
    builtIn catalog i = assemble catalog i fields policy := by
  obtain ⟨rfl, hfields⟩ := h.claim?_eq hclaim
  obtain ⟨c, hc, rfl⟩ := Option.map_eq_some_iff.1 hfields
  rw [builtIn, Catalog.get?_of_composite? hc]

end Form

namespace Library

/-- The library that lowers by the catalogue alone. -/
def bare (L : Library) : Library := ⟨L.catalog, []⟩

variable {L : Library} {nested nested' : Nested} {p q : Progress}

theorem formFor?_bare (L : Library) (i : TypeId) : L.bare.formFor? i = none := by
  change (none <|> (L.catalog.family? i).bind fun _ => none) = (none : Option Form)
  cases L.catalog.family? i <;> rfl

/-- **A type lowered anew**, by plain rules and by none. -/
theorem inStep_lowerAnew (hL : ∀ e ∈ L.entries, e.2.Plain L.catalog)
    (hn : NestedInStep nested nested') (i : TypeId) (hpq : p.Twin q) :
    InStep (okNames fun h => [h]) p ((L.setting.lowerAnew nested i).run p)
      ((L.bare.setting.lowerAnew nested' i).run q) := by
  -- the bare library has no rule, so the built-in mapping is played on its side
  have hbare : (L.bare.setting.lowerAnew nested' i).run q =
      (playNested nested' (builtIn L.catalog i)).run q := by
    rw [run_lowerAnew, formFor?_bare]
    rfl
  have hmapped : ∀ p : Progress, p.Twin q →
      InStep (okNames fun h => [h]) p ((playNested nested (builtIn L.catalog i)).run p)
        ((playNested nested' (builtIn L.catalog i)).run q) := by
    intro p hpq
    have hprimitives : ∀ prim, p.minter.table.Settled (.primitive prim) :=
      fun prim => Table.settled_of_get? rfl
    exact .script hn (steadfast_builtIn hprimitives L.catalog i).modest hpq fun h hh => hh
  rw [run_lowerAnew, hbare]
  rcases hform : L.formFor? i with - | form
  · exact hmapped p hpq
  obtain ⟨e, he, rfl⟩ := exists_mem_of_lookup hform
  simp only
  rcases hclaim : e.2.claim? L.catalog i with - | ⟨fields, policy⟩
  · have hran := hpq.record (.ran e.2.rule.serial i)
    exact (hmapped _ (hran.record (.declined i e.2.rule.name))).of_le (le_refl _)
  · have hran := hmapped _ (hpq.record (.ran e.2.rule.serial i))
    rw [(hL e he).builtIn_eq hclaim] at hran ⊢
    exact (hran.andThen_record _).of_le (le_refl _)

/-- **A type lowered by plain rules and by none**, in twin sessions. -/
theorem inStep_lower (hL : ∀ e ∈ L.entries, e.2.Plain L.catalog) :
    NestedInStep L.setting.lower L.bare.setting.lower := by
  have hlevels : ∀ depth, NestedInStep (L.setting.lowerUpTo depth)
      (L.bare.setting.lowerUpTo depth) := by
    intro depth
    induction depth with
    | zero => exact fun i p q hpq => ⟨rfl, hpq, le_refl _, List.forall_mem_nil _⟩
    | succ depth ih =>
      intro i p q hpq
      rw [Setting.lowerUpTo_succ, Setting.lowerUpTo_succ]
      exact .visit rfl (fun p q hpq => inStep_lowerAnew hL ih i hpq) hpq
  exact hlevels _

/-- Twin sessions stay twins over any sequence of types. -/
theorem twin_session (hL : ∀ e ∈ L.entries, e.2.Plain L.catalog) {u u' : Universe} (hu : u.Sound)
    (hu' : u'.Sound) (ht : u'.table = u.table) (hg : u'.target = u.target)
    (builds : List TypeId) :
    (L.session u (builds.map .lower)).Twin (L.bare.session u' (builds.map .lower)) := by
  have hfold : ∀ p q : Progress, p.Twin q →
      ((builds.map Call.lower).foldl L.after p).Twin
        ((builds.map Call.lower).foldl L.bare.after q) := by
    induction builds with
    | nil => exact fun p q hpq => hpq
    | cons i rest ih => exact fun p q hpq => ih _ _ (inStep_lower hL i p q hpq).twin
  exact hfold _ _ (.opened hu hu' ht hg)

/-- **Plain rules are as good as none.** Let each rule of a library be plain,
under whatever key it is registered and whatever key it asks for itself. Then
in any context, after any types were lowered, a type is lowered by the library
as it is without rules in any context with an equal table and target: the
answer is the same handle or the same error, the table is the same after it,
and so are the types kept with their handles. -/
theorem lower_eq_lower_bare (L : Library) (hL : ∀ e ∈ L.entries, e.2.Plain L.catalog)
    {w w' : World} (hw : w.Reachable) (hw' : w'.Reachable) {context context' : Nat}
    {u u' : Universe} (hu : w.universe? context = some u)
    (hu' : w'.universe? context' = some u') (ht : u'.table = u.table)
    (hg : u'.target = u.target) (builds : List TypeId) (i : TypeId) :
    let r := (L.setting.lower i).run (L.session u (builds.map .lower))
    let r' := (L.bare.setting.lower i).run (L.bare.session u' (builds.map .lower))
    L.bare.setting = ⟨L.catalog, .empty⟩ ∧
      r.1 = r'.1 ∧ r.2.minter.table = r'.2.minter.table ∧
      ∀ j, r.2.lowered? j = r'.2.lowered? j := by
  intro r r'
  have htwin := twin_session hL (hw.universe hu) (hw'.universe hu') ht hg builds
  have hstep : InStep _ _ r r' := inStep_lower hL i _ _ htwin
  refine ⟨rfl, hstep.answer.symm, hstep.twin.table_eq.symm, fun j => ?_⟩
  rw [Progress.lowered?, Progress.lowered?, hstep.twin.lowered_eq]

/-- Plain rules for the types of `linked`: one of a family, one that asks for
another key than its own, one meant for another type than it is found for, and
one that goes before the rule of the family. -/
def dressed : Library where
  catalog := linked.catalog
  entries := [
    (.family "tail", .declared 0 (.family "tail") {}),
    (.exact ⟨14⟩, .declared 1 (.family "head") {}),
    (.exact ⟨15⟩, .listed 2 ⟨12⟩ [⟨"len", ⟨7⟩⟩, ⟨"bytes", ⟨11⟩⟩] {}),
    (.exact ⟨12⟩, .listed 3 ⟨12⟩ [⟨"len", ⟨7⟩⟩, ⟨"bytes", ⟨11⟩⟩] {})]

/-- After a composite was lowered, another that refers to itself is refused in the
same words by these rules and by none, in two contexts over one table, and the
type that both hold is kept under one handle. -/
theorem lower_eq_lower_bare_dressed :
    ∃ (w : World) (u u' : Universe), w.Reachable ∧ w.universe? 0 = some u ∧
      w.universe? 1 = some u' ∧ u'.table = u.table ∧ u'.target = u.target ∧
      (∀ e ∈ dressed.entries, e.2.Plain dressed.catalog) ∧
      let r := (dressed.setting.lower ⟨15⟩).run (dressed.session u ([⟨14⟩].map .lower))
      let r' := (dressed.bare.setting.lower ⟨15⟩).run (dressed.bare.session u' ([⟨14⟩].map .lower))
      r.1 = .error (.field "Loop" "again" (.recursive "Loop")) ∧ r.1 = r'.1 ∧
        r.2.minter.table = r'.2.minter.table ∧ r.2.lowered? ⟨12⟩ = some (.minted 0 1) ∧
        r.2.lowered? ⟨12⟩ = r'.2.lowered? ⟨12⟩ := by
  let history : List World.Call := [.newTable, .newContext 0 .device64, .newContext 0 .device64]
  obtain ⟨w, hreplay⟩ : ∃ w, World.empty.replay history = some w := ⟨_, rfl⟩
  have hw : w.Reachable := World.leads_of_replay hreplay
  obtain ⟨u, u', hu, hu'⟩ : ∃ u u', w.universe? 0 = some u ∧ w.universe? 1 = some u' := by
    cases hreplay
    exact ⟨_, _, rfl, rfl⟩
  have hsame : u'.table = u.table ∧ u'.target = u.target := by
    cases hreplay
    cases hu
    cases hu'
    exact ⟨rfl, rfl⟩
  have hplain : ∀ e ∈ dressed.entries, e.2.Plain dressed.catalog := by decide
  obtain ⟨-, hanswer, htable, hkept⟩ :=
    lower_eq_lower_bare dressed hplain hw hw hu hu' hsame.1 hsame.2 [⟨14⟩] ⟨15⟩
  have herror : Outcome.error? ((dressed.setting.lower ⟨15⟩).run
      (dressed.session u ([⟨14⟩].map .lower))) =
      some (.field "Loop" "again" (.recursive "Loop")) := by
    cases hreplay
    cases hu
    decide +kernel
  have htail : ((dressed.setting.lower ⟨15⟩).run
      (dressed.session u ([⟨14⟩].map .lower))).2.lowered? ⟨12⟩ = some (.minted 0 1) := by
    cases hreplay
    cases hu
    decide +kernel
  exact ⟨w, u, u', hw, hu, hu', hsame.1, hsame.2, hplain,
    Outcome.error?_eq_some_iff.1 herror, hanswer, htable, htail, hkept ⟨12⟩⟩

end Library

end DeviceTypes.Lowering
