import DeviceTypes.Proofs.Lowering.Meaning
/-!
# What a failed lowering is put down to

An error says where a lowering failed by the names of the fields on the
way there. It is put together from the inside out: each aggregate adds the
field it was at, while pointers and arrays add nothing. `Descent` is the
way it speaks of, a chain of types each of which asks for the next, and
`Blames` says what an error must have to do with such a chain.

Lowering without a session blames the first type in its way that fails
(`expandUpTo_blames`). A session, which answers part of it from what it
keeps, gives the same error and so blames the same type
(`exists_descent_of_error`).
-/

namespace DeviceTypes.Lowering

open Source (Field TypeId)

/-- The names of the composites around a failure, outermost first. -/
def Error.owners : Error → List String
  | field owner _ cause => owner :: cause.owners
  | _ => []

/-- A step from a type down to one that its plan asks for. -/
inductive Hop where
  /-- From a composite to the type of its field `f`, which follows the fields `before`. -/
  | field (owner : TypeId) (before : List Field) (f : Field)
  /-- From a pointer or an array to its element. -/
  | element (holder : TypeId)

namespace Hop

/-- The type a step starts from. -/
def source : Hop → TypeId
  | field owner _ _ => owner
  | element holder => holder

/-- The fields that come before the one stepped to. -/
def before : Hop → List Field
  | field _ before _ => before
  | element _ => []

/-- The composite whose field is stepped to. -/
def owner? : Hop → Option TypeId
  | field owner _ _ => some owner
  | element _ => none

/-- The name of the field stepped to. -/
def fieldName? : Hop → Option String
  | field _ _ f => some f.name
  | element _ => none

end Hop

/-- A failure of two steps is that of the first, or of the second after it. -/
theorem Expansion.bind_eq_error {α β : Type} {x : Expansion α} {f : α → Expansion β} {e : Error}
    (h : (x.bind f).answer = .error e) :
    x.answer = .error e ∨ ∃ a, x.answer = .ok a ∧ (f a).answer = .error e := by
  rcases hx : x.answer with err | a
  · rw [bind_of_error hx] at h
    exact Or.inl (congrArg Except.error (Except.error.inj h))
  · rw [bind_of_ok hx] at h
    exact Or.inr ⟨a, rfl, h⟩

theorem Agrees.error_of_right {α β : Type} {R : α → β → Prop} {x : Except Error α} {e : Error}
    (h : Agrees R x (.error e)) : x = .error e := by
  cases h with
  | error e => rfl

/-- The tree that an expansion answers with, if it does. -/
def Expansion.tree (x : Expansion Tree) : Tree := x.answer.toOption.getD (.primitive .void)

theorem Expansion.tree_of_ok {x : Expansion Tree} {T : Tree} (h : x.answer = .ok T) :
    x.tree = T := by
  rw [tree, h]
  rfl

namespace Plan

/-- The tree that a plan puts together of the trees of the types it asks for. -/
def tree? (f : TypeId → Tree) : Plan → Option Tree
  | pointer element => some (.pointer (f element) .global)
  | array element length => some (.array (f element) length)
  | aggregate fields policy => some (.ofPolicy policy (fields.map fun x => (x.name, f x.type)))
  | primitive _ | unsupported => none

/-- What a plan asks a universe for, given handles of the types it asks for. -/
def order? (f : TypeId → Handle) : Plan → Option (UniverseM Handle)
  | pointer element => some (Universe.pointer (f element) .global)
  | array element length => some (Universe.array (f element) length)
  | aggregate fields policy =>
    some (Universe.aggregate policy (fields.map fun x => ⟨x.name, f x.type⟩))
  | primitive _ | unsupported => none

/-- **What a plan asks a universe for is its tree.** -/
theorem exists_order {u : Universe} (hu : u.Sound) {plan : Plan} {f : TypeId → Tree}
    {g : TypeId → Handle} {T : Tree} (hT : plan.tree? f = some T)
    (hreads : ∀ d ∈ plan.deps, u.table.Reads (g d) (f d)) :
    ∃ x, plan.order? g = some x ∧ u.Mints T (x.run u) := by
  cases plan with
  | primitive p | unsupported => cases hT
  | pointer element =>
    obtain rfl := Option.some.inj hT
    exact ⟨_, rfl, hu.mints_pointer (hreads element (List.mem_singleton.2 rfl)) .global⟩
  | array element length =>
    obtain rfl := Option.some.inj hT
    exact ⟨_, rfl, hu.mints_array (hreads element (List.mem_singleton.2 rfl)) length⟩
  | aggregate fields policy =>
    obtain rfl := Option.some.inj hT
    have hfields : ∀ x ∈ fields, u.table.Reads (g x.type) (f x.type) := by
      intro x hx
      exact hreads x.type (List.mem_map_of_mem hx)
    refine ⟨_, rfl, hu.mints_aggregate ⟨?_, ?_⟩ policy⟩
    · intro m hm
      obtain ⟨x, hx, rfl⟩ := List.mem_map.1 hm
      exact (hfields x hx).contains
    · rw [List.map_map]
      refine List.map_congr_left fun x hx => ?_
      rw [Function.comp_apply, (hfields x hx).unfold_eq]

end Plan

namespace Library

/-- Steps that lead from one type down to another. -/
inductive Descent (L : Library) : TypeId → List Hop → TypeId → Prop
  | here (i : TypeId) : Descent L i [] i
  | field {i j : TypeId} {before after : List Field} {f : Field} {policy : Policy}
      {hops : List Hop} :
      L.plan i = .aggregate (before ++ f :: after) policy → Descent L f.type hops j →
      Descent L i (.field i before f :: hops) j
  | pointer {i e j : TypeId} {hops : List Hop} :
      L.plan i = .pointer e → Descent L e hops j → Descent L i (.element i :: hops) j
  | array {i e j : TypeId} {length : UInt64} {hops : List Hop} :
      L.plan i = .array e length → Descent L e hops j → Descent L i (.element i :: hops) j

/-- The type is not listed, or external, and no rule claims it. -/
def Unsupported (L : Library) (i : TypeId) : Prop :=
  (L.formFor? i).bind (Form.claim? L.catalog i) = none ∧
    (L.catalog.get? i = none ∨ ∃ name, L.catalog.get? i = some (.external name))

theorem plan_eq_unsupported_iff {L : Library} {i : TypeId} :
    L.plan i = .unsupported ↔ L.Unsupported i := by
  rw [plan, Unsupported, Plan.builtIn]
  rcases (L.formFor? i).bind (Form.claim? L.catalog i) with - | ⟨fields, policy⟩
  · rcases L.catalog.get? i with - | s | e | ⟨e, length⟩ | c | name <;> simp
  · simp

/-- A descent goes down from types with a plan only. -/
theorem Descent.plan_source {L : Library} {i j : TypeId} {hops : List Hop}
    (h : L.Descent i hops j) : ∀ k ∈ hops.map Hop.source, L.plan k ≠ .unsupported := by
  induction h with
  | here i => exact List.forall_mem_nil _
  | field hp _ ih | pointer hp _ ih | array hp _ ih =>
    refine List.forall_mem_cons.2 ⟨fun hun => ?_, ih⟩
    cases hp.symm.trans hun

/-- Why the type `j` fails while the types `above` are being lowered and those
`finished` are done. -/
inductive Reason (L : Library) (target : Target) (finished : List (TypeId × Tree))
    (above : List TypeId) (j : TypeId) : Error → Prop
  | unsupported : L.plan j = .unsupported → j ∉ above →
      Reason L target finished above j (.unsupported (L.catalog.nameOf j))
  | recursive : j ∈ above → Reason L target finished above j (.recursive (L.catalog.nameOf j))
  | rejected {f : TypeId → Tree} {T : Tree} {r : Rejection} :
      (L.plan j).tree? f = some T → (∀ d ∈ L.deps j, (d, f d) ∈ finished) →
      T.verdict target = .error r → j ∉ above →
      Reason L target finished above j (.rejected (L.catalog.nameOf j) r)

/-- An error of `i`, inside the types `around`, tells the way down to `j` and
why `j` fails. -/
structure Blames (L : Library) (target : Target) (around : List TypeId) (i : TypeId)
    (finished : List (TypeId × Tree)) (hops : List Hop) (j : TypeId) (e : Error) : Prop where
  descent : L.Descent i hops j
  path_eq : e.path = hops.filterMap Hop.fieldName?
  owners_eq : e.owners = (hops.filterMap Hop.owner?).map L.catalog.nameOf
  before : ∀ hop ∈ hops, ∀ f ∈ hop.before, ∃ T, (f.type, T) ∈ finished
  nodup : (hops.map Hop.source ++ around).Nodup
  reason : L.Reason target finished (hops.map Hop.source ++ around) j e.root

variable {L : Library} {target : Target} {around above above' : List TypeId} {i j : TypeId}
  {hops : List Hop} {finished finished' : List (TypeId × Tree)} {e : Error}
  {nested : TypeId → Expansion Tree}

theorem Reason.mono (h : L.Reason target finished above j e) (hsub : finished ⊆ finished') :
    L.Reason target finished' above j e := by
  cases h with
  | unsupported hp hj => exact .unsupported hp hj
  | recursive hj => exact .recursive hj
  | rejected hT hdeps hr hj => exact .rejected hT (fun d hd => hsub (hdeps d hd)) hr hj

theorem Reason.perm (h : L.Reason target finished above j e) (hperm : above.Perm above') :
    L.Reason target finished above' j e := by
  cases h with
  | unsupported hp hj => exact .unsupported hp fun hj' => hj (hperm.mem_iff.2 hj')
  | recursive hj => exact .recursive (hperm.mem_iff.1 hj)
  | rejected hT hdeps hr hj => exact .rejected hT hdeps hr fun hj' => hj (hperm.mem_iff.2 hj')

/-- A type that fails by itself. -/
theorem Reason.blames (h : L.Reason target finished around i e) (hroot : e.root = e)
    (hnodup : around.Nodup) : L.Blames target around i finished [] i e := by
  refine ⟨.here i, ?_, ?_, List.forall_mem_nil _, hnodup, hroot.symm ▸ h⟩
  · cases h <;> rfl
  · cases h <;> rfl

theorem Blames.mono (h : L.Blames target around i finished hops j e)
    (hsub : finished ⊆ finished') : L.Blames target around i finished' hops j e where
  descent := h.descent
  path_eq := h.path_eq
  owners_eq := h.owners_eq
  before hop hhop f hf := by
    obtain ⟨T, hT⟩ := h.before hop hhop f hf
    exact ⟨T, hsub hT⟩
  nodup := h.nodup
  reason := h.reason.mono hsub

/-- The types above the end of a chain are the same ones one step further up. -/
theorem Blames.reason_above {c : TypeId} (h : L.Blames target (i :: around) c finished hops j e) :
    (i :: (hops.map Hop.source ++ around)).Nodup ∧
      L.Reason target finished (i :: (hops.map Hop.source ++ around)) j e.root := by
  have hperm : (hops.map Hop.source ++ i :: around).Perm
      (i :: (hops.map Hop.source ++ around)) := List.perm_middle
  exact ⟨hperm.nodup_iff.1 h.nodup, h.reason.perm hperm⟩

/-- A failure below an element. -/
theorem Blames.element {c : TypeId} (h : L.Blames target (i :: around) c finished hops j e)
    (hd : ∀ {hops}, L.Descent c hops j → L.Descent i (.element i :: hops) j) :
    L.Blames target around i finished (.element i :: hops) j e where
  descent := hd h.descent
  path_eq := h.path_eq
  owners_eq := h.owners_eq
  before := List.forall_mem_cons.2 ⟨List.forall_mem_nil _, h.before⟩
  nodup := h.reason_above.1
  reason := h.reason_above.2

/-- A failure below a field is an error of that field. -/
theorem Blames.field {f : Field} {before after : List Field} {policy : Policy}
    (h : L.Blames target (i :: around) f.type finished hops j e)
    (hp : L.plan i = .aggregate (before ++ f :: after) policy)
    (hbefore : ∀ g ∈ before, ∃ T, (g.type, T) ∈ finished) :
    L.Blames target around i finished (.field i before f :: hops) j
      (.field (L.catalog.nameOf i) f.name e) where
  descent := .field hp h.descent
  path_eq := by
    rw [Error.path, h.path_eq]
    rfl
  owners_eq := by
    rw [Error.owners, h.owners_eq]
    rfl
  before := List.forall_mem_cons.2 ⟨hbefore, h.before⟩
  nodup := h.reason_above.1
  reason := h.reason_above.2

/-! ## Where an expansion fails -/

/-- **Fields fail at the first that fails**: those before it are lowered. -/
theorem expandMembers_eq_error {owner : TypeId} {fields : List Field}
    (h : (L.expandMembers nested owner fields).answer = .error e) :
    ∃ before f after cause, fields = before ++ f :: after ∧
      (nested f.type).answer = .error cause ∧ e = .field (L.catalog.nameOf owner) f.name cause ∧
      (nested f.type).finished ⊆ (L.expandMembers nested owner fields).finished ∧
      ∀ g ∈ before, (∃ T, (nested g.type).answer = .ok T) ∧
        (nested g.type).finished ⊆ (L.expandMembers nested owner fields).finished := by
  induction fields with
  | nil => cases h
  | cons f rest ih =>
    rcases hT : (nested f.type).answer with cause | T
    · refine ⟨[], f, rest, cause, rfl, hT, ?_⟩
      have herr : ((nested f.type).reword (.field (L.catalog.nameOf owner) f.name)).answer =
          .error (.field (L.catalog.nameOf owner) f.name cause) := by
        rw [Expansion.reword, hT]
        rfl
      rw [expandMembers, Expansion.bind_of_error herr] at h ⊢
      exact ⟨(Except.error.inj h).symm, List.Subset.refl _, List.forall_mem_nil _⟩
    · have hrest : (L.expandMembers nested owner rest).answer = .error e := by
        rw [expandMembers, Expansion.bind_of_ok (Expansion.answer_reword_eq_ok.2 hT)] at h
        rcases Expansion.bind_eq_error h with h | ⟨ms, -, h⟩
        · exact h
        · cases h
      obtain ⟨before, g, after, cause, rfl, hg, rfl, hsub, hbefore⟩ := ih hrest
      rw [finished_expandMembers_cons hT]
      refine ⟨f :: before, g, after, cause, rfl, hg, rfl, List.subset_append_of_subset_right _ hsub,
        List.forall_mem_cons.2 ⟨⟨⟨T, hT⟩, List.subset_append_left _ _⟩, fun x hx => ?_⟩⟩
      obtain ⟨hx, hxsub⟩ := hbefore x hx
      exact ⟨hx, List.subset_append_of_subset_right _ hxsub⟩

/-- Fields that are all lowered come out under their names, and finished. -/
theorem expandMembers_eq_ok (hn : ∀ d, L.Correct target d (nested d)) {owner : TypeId}
    {fields : List Field} {ms : List (String × Tree)}
    (h : (L.expandMembers nested owner fields).answer = .ok ms) :
    ms = fields.map (fun x => (x.name, (nested x.type).tree)) ∧
      ∀ x ∈ fields, (x.type, (nested x.type).tree) ∈ (L.expandMembers nested owner fields).finished := by
  induction fields generalizing ms with
  | nil => exact ⟨(Except.ok.inj h).symm, List.forall_mem_nil _⟩
  | cons x rest ih =>
    obtain ⟨T, ms', hT, hms', rfl⟩ := expandMembers_cons_eq_ok.1 h
    obtain ⟨hms, hfin⟩ := ih hms'
    have htree : (nested x.type).tree = T := Expansion.tree_of_ok hT
    rw [finished_expandMembers_cons hT, List.map_cons, htree, ← hms]
    refine ⟨rfl, List.forall_mem_cons.2 ⟨?_, fun y hy => ?_⟩⟩
    · rw [htree]
      exact List.mem_append_left _ ((hn x.type).finished T hT)
    · exact List.mem_append_right _ (hfin y hy)

theorem admitted_eq_error {T : Tree} (h : (L.admitted target i T).answer = .error e) :
    ∃ r, T.verdict target = .error r ∧ e = .rejected (L.catalog.nameOf i) r := by
  rw [admitted] at h
  rcases hr : T.verdict target with r | ⟨⟩
  · rw [hr] at h
    exact ⟨r, rfl, (Except.error.inj h).symm⟩
  · rw [hr] at h
    cases h

/-- **A plan fails** below the first type it asks for that fails, or else
because the target objects to its tree. -/
theorem expandPlan_blames (hn : ∀ d, L.Correct target d (nested d))
    (hnested : ∀ d ∈ L.deps i, ∀ e, (nested d).answer = .error e →
      ∃ hops j, L.Blames target (i :: around) d (nested d).finished hops j e)
    (hi : i ∉ around) (hnodup : around.Nodup)
    (h : (L.expandPlan target nested i (L.plan i)).answer = .error e) :
    ∃ hops j, L.Blames target around i (L.expandPlan target nested i (L.plan i)).finished
      hops j e := by
  rw [deps] at hnested
  rcases hp : L.plan i with p | d | ⟨d, length⟩ | ⟨fields, policy⟩ | -
  all_goals
    rw [hp] at h hnested
    rw [expandPlan] at h ⊢
  · cases h
  · have hd : d ∈ (Plan.pointer d).deps := List.mem_singleton.2 rfl
    rw [finished_bind_admitted]
    rcases Expansion.bind_eq_error h with h | ⟨T, hT, h⟩
    · obtain ⟨hops, j, hb⟩ := hnested d hd e h
      exact ⟨_, j, hb.element fun hdesc => .pointer hp hdesc⟩
    · -- no target objects to a pointer
      cases h
  · have hd : d ∈ (Plan.array d length).deps := List.mem_singleton.2 rfl
    rw [finished_bind_admitted]
    rcases Expansion.bind_eq_error h with h | ⟨T, hT, h⟩
    · obtain ⟨hops, j, hb⟩ := hnested d hd e h
      exact ⟨_, j, hb.element fun hdesc => .array hp hdesc⟩
    · obtain ⟨r, hr, rfl⟩ := admitted_eq_error h
      have htree : (L.plan i).tree? (fun _ => T) = some (.array T length) := by
        rw [hp]
        rfl
      refine ⟨[], i, Reason.blames (.rejected htree (fun c hc => ?_) hr hi) rfl hnodup⟩
      rw [deps, hp] at hc
      rw [List.mem_singleton.1 hc]
      exact (hn d).finished T hT
  · rw [expandAssembly] at h ⊢
    rw [finished_bind_admitted]
    rcases Expansion.bind_eq_error h with h | ⟨ms, hms, h⟩
    · obtain ⟨before, f, after, cause, rfl, hcause, rfl, hsub, hbefore⟩ :=
        expandMembers_eq_error h
      have hf : f.type ∈ (Plan.aggregate (before ++ f :: after) policy).deps :=
        List.mem_map_of_mem (List.mem_append_right _ List.mem_cons_self)
      obtain ⟨hops, j, hb⟩ := hnested f.type hf cause hcause
      refine ⟨_, j, (hb.mono hsub).field hp fun g hg => ?_⟩
      obtain ⟨⟨T, hT⟩, hgsub⟩ := hbefore g hg
      exact ⟨T, hgsub ((hn g.type).finished T hT)⟩
    · obtain ⟨r, hr, rfl⟩ := admitted_eq_error h
      obtain ⟨rfl, hfin⟩ := expandMembers_eq_ok hn hms
      have htree : (L.plan i).tree? (fun d => (nested d).tree) = some (.ofPolicy policy
          (fields.map fun x => (x.name, (nested x.type).tree))) := by
        rw [hp]
        rfl
      refine ⟨[], i, Reason.blames (.rejected htree (fun c hc => ?_) hr hi) rfl hnodup⟩
      rw [deps, hp] at hc
      obtain ⟨x, hx, rfl⟩ := List.mem_map.1 hc
      exact hfin x hx
  · obtain rfl := Except.error.inj h
    exact ⟨[], i, Reason.blames (.unsupported hp hi) rfl hnodup⟩

/-- **Lowering without a session blames the first type in its way that fails.** -/
theorem expandUpTo_blames {depth : Nat} (hnodup : around.Nodup)
    (hdepth : UInt32.size < depth + around.length)
    (h : (L.expandUpTo target depth around i).answer = .error e) :
    ∃ hops j, L.Blames target around i (L.expandUpTo target depth around i).finished hops j e := by
  induction depth generalizing around i e with
  | zero =>
    -- a failure for want of levels does not occur: there are more of them than types
    have := length_le_of_nodup hnodup
    omega
  | succ depth ih =>
    rw [expandUpTo] at h ⊢
    split at h
    · rename_i hi
      obtain rfl := Except.error.inj h
      exact ⟨[], i, Reason.blames (.recursive hi) rfl hnodup⟩
    · rename_i hi
      rw [if_neg hi]
      rw [Expansion.answer_finish] at h
      have hlevels : UInt32.size < depth + (i :: around).length := by
        rw [List.length_cons]
        omega
      obtain ⟨hops, j, hb⟩ := expandPlan_blames (expandUpTo_correct depth (i :: around))
        (fun d _ e he => ih (List.nodup_cons.2 ⟨hi, hnodup⟩) hlevels he) hi hnodup h
      refine ⟨hops, j, hb.mono fun x hx => ?_⟩
      exact Expansion.mem_finished_finish.2 (Or.inl hx)

/-! ## Where a session fails -/

/-- The session lowers the type when it is asked to. -/
def Lowers (L : Library) (p : Progress) (i : TypeId) : Prop :=
  ∃ h, ((L.setting.lower i).run p).1 = .ok h

variable {p : Progress}

theorem Meets.lowers {T : Tree} (hT : L.Meets target i T) (hp : p.Inside L target []) :
    L.Lowers p i := by
  have hans : (L.expandUpTo target Setting.depthLimit [] i).answer = .ok T :=
    hT.1.expandUpTo hT.2 (above_nil L i) List.nodup_nil (Nat.lt_succ_self _)
  have hagrees := (lower_follows hp i).agrees
  rw [hans] at hagrees
  obtain ⟨h, hh, -⟩ := hagrees.of_left
  exact ⟨h, hh⟩

/-- **A session blames what lowering without it would**, and by then it keeps all
that is finished before the failure. -/
theorem blames_of_error (hp : p.Inside L target [])
    (he : ((L.setting.lower i).run p).1 = .error e) :
    ∃ finished hops j, L.Blames target [] i finished hops j e ∧
      ∀ x ∈ finished, L.Lowers p x.1 ∧
        ∃ h, ((L.setting.lower i).run p).2.lowered? x.1 = some h ∧
          ((L.setting.lower i).run p).2.minter.table.Reads h x.2 := by
  obtain ⟨hsteps, hagrees⟩ := lower_follows hp i
  rw [he] at hagrees
  obtain ⟨hops, j, hb⟩ :=
    expandUpTo_blames List.nodup_nil (Nat.lt_succ_self _) hagrees.error_of_right
  refine ⟨_, hops, j, hb, fun x hx => ?_⟩
  have hmeets : L.Meets target x.1 x.2 := (expandUpTo_correct _ _ i).meets x hx
  obtain ⟨h, hh⟩ := Option.isSome_iff_exists.1 (hsteps.kept x hx)
  obtain ⟨T, hT, hr⟩ := hsteps.inside.lowered x.1 h hh
  rw [hT.1.functional hmeets.1] at hr
  exact ⟨hmeets.lowers hp, h, hh, hr⟩

/-- **A failed lowering reports the true leftmost failure.** Whatever a session
was called for before, an error of a type leads down a chain of types to one
that fails by itself. Each step of the chain goes to a field of the composite
it starts from, behind fields that are all lowered, or to an element; the
field steps have the names of the error's path and its owners, in order. The
root of the error is about the type at the end of the chain: it is
unsupported exactly when no rule claims it and the catalogue does not list it
or lists it as external, and recursive exactly when it occurs in the chain
before. Otherwise all types it is made of are lowered, and the root holds
what the universe objects to when it is asked for the type out of them. -/
theorem exists_descent_of_error (L : Library) {w : World} (hw : w.Reachable) {context : Nat}
    {u : Universe} (hu : w.universe? context = some u) (calls : List Call) {i : TypeId} {e : Error}
    (he : ((L.setting.lower i).run (L.session u calls)).1 = .error e) :
    let p := L.session u calls
    let q := ((L.setting.lower i).run p).2
    ∃ hops j, L.Descent i hops j ∧ (hops.map Hop.source).Nodup ∧
      e.path = hops.filterMap Hop.fieldName? ∧
      e.owners = (hops.filterMap Hop.owner?).map L.catalog.nameOf ∧
      (∀ hop ∈ hops, ∀ f ∈ hop.before, L.Lowers p f.type ∧ (q.lowered? f.type).isSome) ∧
      (e.root = .unsupported (L.catalog.nameOf j) ↔ L.Unsupported j) ∧
      (e.root = .recursive (L.catalog.nameOf j) ↔ j ∈ hops.map Hop.source) ∧
      (¬ L.Unsupported j → j ∉ hops.map Hop.source →
        ∃ r handles order, e.root = .rejected (L.catalog.nameOf j) r ∧
          (∀ d ∈ L.deps j, L.Lowers p d ∧ q.lowered? d = some (handles d)) ∧
          (L.plan j).order? handles = some order ∧ (order.run q.minter).1 = .error r) := by
  intro p q
  have hp : p.Inside L u.target [] := inside_session L (hw.universe hu) calls
  have hq : q.Inside L u.target [] := (lower_follows hp i).steps.inside
  obtain ⟨finished, hops, j, hb, hfinished⟩ := blames_of_error hp he
  have hnodup := hb.nodup
  have hreason := hb.reason
  rw [List.append_nil] at hnodup hreason
  refine ⟨hops, j, hb.descent, hnodup, hb.path_eq, hb.owners_eq, ?_, ?_⟩
  · intro hop hhop f hf
    obtain ⟨T, hT⟩ := hb.before hop hhop f hf
    obtain ⟨hlowers, h, hh, -⟩ := hfinished _ hT
    exact ⟨hlowers, Option.isSome_of_eq_some hh⟩
  generalize e.root = root at hreason
  cases hreason with
  | unsupported hplan hj =>
    have hun := plan_eq_unsupported_iff.1 hplan
    exact ⟨iff_of_true rfl hun, iff_of_false Error.noConfusion hj, fun h => absurd hun h⟩
  | recursive hj =>
    have hun : ¬ L.Unsupported j := fun h =>
      hb.descent.plan_source j hj (plan_eq_unsupported_iff.2 h)
    exact ⟨iff_of_false Error.noConfusion hun, iff_of_true rfl hj, fun _ h => absurd hj h⟩
  | @rejected f T r hT hdeps hr hj =>
    have hun : ¬ L.Unsupported j := by
      intro h
      rw [plan_eq_unsupported_iff.2 h] at hT
      cases hT
    refine ⟨iff_of_false Error.noConfusion hun, iff_of_false Error.noConfusion hj, fun _ _ => ?_⟩
    -- the handles that the session keeps by now are those of the trees below `T`
    let handles : TypeId → Handle := fun d => (q.lowered? d).getD (.primitive .void)
    have hkept : ∀ d ∈ L.deps j, L.Lowers p d ∧ q.lowered? d = some (handles d) ∧
        q.minter.table.Reads (handles d) (f d) := by
      intro d hd
      obtain ⟨hlowers, h, hh, hreads⟩ := hfinished _ (hdeps d hd)
      have hhandle : handles d = h := congrArg (Option.getD · _) hh
      rw [hhandle]
      exact ⟨hlowers, hh, hreads⟩
    obtain ⟨order, horder, hmints⟩ :=
      Plan.exists_order hq.sound hT (fun d hd => (hkept d hd).2.2)
    have hanswer := hmints.answer
    rw [hq.target_eq, hr] at hanswer
    exact ⟨r, handles, order, rfl, fun d hd => ⟨(hkept d hd).1, (hkept d hd).2.1⟩, horder, hanswer⟩

/-- A composite that refers to itself through a pointer is reported at the field
that does, behind a field that is lowered. -/
theorem exists_descent_of_error_linked :
    ∃ (w : World) (u : Universe), w.Reachable ∧ w.universe? 0 = some u ∧
      let p := linked.session u [.lower ⟨14⟩]
      let r := (linked.setting.lower ⟨15⟩).run p
      let e := Error.field "Loop" "again" (.recursive "Loop")
      r.1 = .error e ∧
        ∃ hops j, linked.Descent ⟨15⟩ hops j ∧ ["again"] = hops.filterMap Hop.fieldName? ∧
          ["Loop"] = (hops.filterMap Hop.owner?).map linked.catalog.nameOf ∧
          (∀ hop ∈ hops, ∀ f ∈ hop.before,
            linked.Lowers p f.type ∧ (r.2.lowered? f.type).isSome) ∧
          (e.root = .recursive (linked.catalog.nameOf j) ↔ j ∈ hops.map Hop.source) := by
  have hrun : ((World.empty.replay [.newTable, .newContext 0 .device64]).bind fun w =>
      w.universe? 0).map (fun u => Outcome.error? ((linked.setting.lower ⟨15⟩).run
        (linked.session u [.lower ⟨14⟩]))) =
      some (some (.field "Loop" "again" (.recursive "Loop"))) := by decide +kernel
  obtain ⟨u, huw, herror⟩ := Option.map_eq_some_iff.1 hrun
  obtain ⟨w, hreplay, hu⟩ := Option.bind_eq_some_iff.1 huw
  have hw : w.Reachable := World.leads_of_replay hreplay
  have he := Outcome.error?_eq_some_iff.1 herror
  obtain ⟨hops, j, hdescent, -, hpath, howners, hbefore, -, hrecursive, -⟩ :=
    exists_descent_of_error linked hw hu [.lower ⟨14⟩] he
  exact ⟨w, u, hw, hu, he, hops, j, hdescent, hpath, howners, hbefore, hrecursive⟩

end Library

end DeviceTypes.Lowering
