import DeviceTypes.Lowering.Combinators
import DeviceTypes.Proofs.Lowering.Library
import DeviceTypes.Proofs.Universe.Lasting
/-!
# Scripts that answer anywhere alike

A rule learns about its session from the answers it gets, and two of them
tell it more than it asked for. That a type is in progress tells it what
it is run inside of, and that a shape is not known yet tells it what was
minted before. A script is steadfast when it makes nothing of either: what
it asks a universe for outlives the growth of the table and is about
handles it came to know (`Modest`), and once a type it asked for goes back
to one that contains itself, it fails in that way too (`Forthright`). It
may go on after any other failure.

The built-in mapping is steadfast, so is the assembly of an aggregate, and
so are bodies put together from steadfast ones. Declining after a failure
is only where circular failures are let through (`sparing`).
-/

namespace DeviceTypes.Lowering

open Source (Catalog Field TypeId)

variable {α β : Type} {known known' : Handle → Prop}

/-- Whether a failure goes back to a type that contains itself. -/
def Error.isCircular (e : Error) : Bool :=
  match e.root with
  | recursive _ => true
  | unsupported _ | field .. | rejected .. => false

/-- The answer is a circular failure. -/
def Circular : Except Error α → Prop
  | .ok _ => False
  | .error e => e.isCircular = true

/-- The handles known once some more are learnt. -/
def Learning (known : Handle → Prop) (hs : List Handle) (h : Handle) : Prop := known h ∨ h ∈ hs

/-- The handles named by a computation that may have failed. -/
def okNames (names : α → List Handle) : Except Error α → List Handle
  | .ok a => names a
  | .error _ => []

namespace Script

/-- Whatever it is answered, the script's own answer has the property. -/
def Ends (P : α → Prop) : Script α → Prop
  | done a => P a
  | lower _ next => ∀ r, (next r).Ends P
  | ask _ next => ∀ a, (next a).Ends P
  | announce _ _ next => next.Ends P

/-- The script asks nothing but what lasts, about handles it knows, and answers
handles it knows. -/
def Modest (names : α → List Handle) (known : Handle → Prop) : Script α → Prop
  | done a => ∀ h ∈ names a, known h
  | lower _ next => ∀ r, (next r).Modest names (Learning known (okNames (fun h => [h]) r))
  | ask r next =>
    r.lasts = true ∧ (∀ h ∈ r.handles, known h) ∧
      ∀ a, (next a).Modest names (Learning known (r.named a))
  | announce _ _ next => next.Modest names known

/-- Where a type asked for is circular, so is the script. -/
def Forthright : Script (Except Error α) → Prop
  | done _ => True
  | lower _ next => ∀ r, (next r).Forthright ∧ (Circular r → (next r).Ends Circular)
  | ask _ next => ∀ a, (next a).Forthright
  | announce _ _ next => next.Forthright

theorem Ends.bind {P : α → Prop} {P' : β → Prop} {x : Script α} {f : α → Script β}
    (hx : x.Ends P) (hf : ∀ a, P a → (f a).Ends P') : (x.bind f).Ends P' := by
  induction x with
  | done a => exact hf a hx
  | lower i next ih => exact fun r => ih r (hx r)
  | ask r next ih => exact fun a => ih a (hx a)
  | announce owner fields next ih => exact ih hx

theorem Modest.mono {names : α → List Handle} {x : Script α} (hx : x.Modest names known)
    (hk : ∀ h, known h → known' h) : x.Modest names known' := by
  have hlearn : ∀ {known known' : Handle → Prop} (hs : List Handle), (∀ h, known h → known' h) →
      ∀ h, Learning known hs h → Learning known' hs h := fun _ hk h hh => hh.imp_left (hk h)
  induction x generalizing known known' with
  | done a => exact fun h hh => hk h (hx h hh)
  | lower i next ih => exact fun r => ih r (hx r) (hlearn _ hk)
  | ask r next ih =>
    exact ⟨hx.1, fun h hh => hk h (hx.2.1 h hh), fun a => ih a (hx.2.2 a) (hlearn _ hk)⟩
  | announce owner fields next ih => exact ih hx hk

theorem Modest.bind {names : α → List Handle} {names' : β → List Handle} {x : Script α}
    {f : α → Script β} (hx : x.Modest names known)
    (hf : ∀ a, (f a).Modest names' (Learning known (names a))) :
    (x.bind f).Modest names' known := by
  -- on the way the script learns more than it knew, and its answer names nothing else
  have hgen : ∀ known', x.Modest names known' → (∀ h, known h → known' h) →
      (x.bind f).Modest names' known' := by
    clear hx
    induction x with
    | done a => exact fun known' hx hk => (hf a).mono fun h hh => hh.elim (hk h) (hx h)
    | lower i next ih => exact fun known' hx hk r => ih r _ (hx r) fun h hh => .inl (hk h hh)
    | ask r next ih =>
      exact fun known' hx hk =>
        ⟨hx.1, hx.2.1, fun a => ih a _ (hx.2.2 a) fun h hh => .inl (hk h hh)⟩
    | announce owner fields next ih => exact fun known' hx hk => ih known' hx hk
  exact hgen known hx fun _ hh => hh

theorem Forthright.bind {x : Script (Except Error α)} {f : Except Error α → Script (Except Error β)}
    (hx : x.Forthright) (hf : ∀ a, (f a).Forthright)
    (hc : ∀ a, Circular a → (f a).Ends Circular) : (x.bind f).Forthright := by
  induction x with
  | done a => exact hf a
  | lower i next ih => exact fun r => ⟨ih r (hx r).1, fun hr => ((hx r).2 hr).bind hc⟩
  | ask r next ih => exact fun a => ih a (hx a)
  | announce owner fields next ih => exact ih hx

end Script

/-- The computation is modest about the handles it knows, and forthright. -/
structure LowerM.Steadfast (known : Handle → Prop) (names : α → List Handle) (x : LowerM α) :
    Prop where
  modest : x.run.Modest (okNames names) known
  forthright : x.run.Forthright

namespace LowerM.Steadfast

variable {names : α → List Handle} {names' : β → List Handle} {x : LowerM α}

theorem mono (hx : x.Steadfast known names) (hk : ∀ h, known h → known' h) :
    x.Steadfast known' names :=
  ⟨hx.modest.mono hk, hx.forthright⟩

theorem pure {a : α} (ha : ∀ h ∈ names a, known h) :
    Steadfast known names (Pure.pure a : LowerM α) :=
  ⟨ha, trivial⟩

theorem throw (e : Error) : Steadfast known names (MonadExcept.throw e : LowerM α) :=
  ⟨List.forall_mem_nil _, trivial⟩

theorem lower (i : TypeId) : Steadfast known (fun h => [h]) (LowerM.lower i) :=
  ⟨fun _ _ hh => .inr hh, fun _ => ⟨trivial, fun hr => hr⟩⟩

theorem announce (owner : TypeId) (fields : Nat) :
    Steadfast known (fun _ => []) (LowerM.announce owner fields) :=
  ⟨List.forall_mem_nil _, trivial⟩

theorem ask {r : Request} (hlasts : r.lasts = true) (hr : ∀ h ∈ r.handles, known h) :
    Steadfast known r.named (LowerM.ask r) :=
  ⟨⟨hlasts, hr, fun _ _ hh => .inr hh⟩, fun _ => trivial⟩

/-- **One computation, then the one its answer chooses.** -/
theorem bind {f : α → LowerM β} (hx : x.Steadfast known names)
    (hf : ∀ a, (f a).Steadfast (Learning known (names a)) names') :
    (x >>= f).Steadfast known names' where
  modest := by
    refine Script.Modest.bind (f := ExceptT.bindCont f) hx.modest fun r => ?_
    cases r with
    | error e => exact List.forall_mem_nil _
    | ok a => exact (hf a).modest
  forthright := by
    refine Script.Forthright.bind (f := ExceptT.bindCont f) hx.forthright (fun r => ?_) fun r hr => ?_
    · cases r with
      | error e => trivial
      | ok a => exact (hf a).forthright
    · cases r with
      | error e => exact hr
      | ok a => cases hr

theorem map {f : α → β} (hx : x.Steadfast known names)
    (hf : ∀ a, ∀ h ∈ names' (f a), h ∈ names a) : (f <$> x).Steadfast known names' := by
  rw [← bind_pure_comp]
  exact hx.bind fun a => pure fun h hh => .inr (hf a h hh)

/-- **Other words for a failure**, circular where it was. -/
theorem reword {f : Error → Error} (hf : ∀ e, e.isCircular = true → (f e).isCircular = true)
    (hx : x.Steadfast known names) : (x.reword f).Steadfast known names where
  modest := by
    refine Script.Modest.bind (f := fun r => .done (r.mapError f)) hx.modest fun r => ?_
    cases r with
    | error e => exact List.forall_mem_nil _
    | ok a => exact fun h hh => .inr hh
  forthright := by
    refine Script.Forthright.bind (f := fun r => .done (r.mapError f)) hx.forthright
      (fun _ => trivial) fun r hr => ?_
    cases r with
    | error e => exact hf e hr
    | ok a => cases hr

/-- **Going on after a failure** that is not circular. -/
theorem tryCatch {f : Error → LowerM α} (hx : x.Steadfast known names)
    (hf : ∀ e, (f e).Steadfast known names)
    (hc : ∀ e, e.isCircular = true → (f e).run.Ends Circular) :
    (MonadExcept.tryCatch x f).Steadfast known names := by
  let next : Except Error α → Script (Except Error α)
    | .ok a => .done (.ok a)
    | .error e => (f e).run
  have hrun : (MonadExcept.tryCatch x f : LowerM α).run = x.run.bind next := by
    change x.run.bind _ = x.run.bind next
    congr 1
    funext r
    cases r <;> rfl
  refine ⟨?_, ?_⟩
  · rw [hrun]
    refine hx.modest.bind fun r => ?_
    cases r with
    | error e => exact (hf e).modest.mono fun h hh => .inl hh
    | ok a => exact fun h hh => .inr hh
  · rw [hrun]
    refine hx.forthright.bind (fun r => ?_) fun r hr => ?_
    · cases r with
      | error e => exact (hf e).forthright
      | ok a => trivial
    · cases r with
      | error e => exact hc e hr
      | ok a => cases hr

end LowerM.Steadfast

open LowerM

/-! ## The built-in mapping -/

theorem steadfast_orRejected (catalog : Catalog) (i : TypeId) {a : Except Rejection Handle}
    (ha : ∀ h, a = .ok h → known h) : (orRejected catalog i a).Steadfast known fun h => [h] := by
  cases a with
  | error r => exact .throw _
  | ok h =>
    refine .pure fun x hx => ?_
    obtain rfl := List.mem_singleton.1 hx
    exact ha x rfl

theorem steadfast_members (catalog : Catalog) (owner : TypeId) (fields : List Field) :
    (members catalog owner fields).Steadfast known (List.map Member.type) := by
  induction fields generalizing known with
  | nil => exact .pure (List.forall_mem_nil _)
  | cons f rest ih =>
    have hfirst : ((LowerM.lower f.type).reword
        fun e => .field (catalog.nameOf owner) f.name e).Steadfast known fun h => [h] :=
      (Steadfast.lower f.type).reword fun e he => he
    refine hfirst.bind fun h => ih.bind fun ms => .pure ?_
    rw [List.map_cons, List.forall_mem_cons]
    exact ⟨.inl (.inr (List.mem_singleton.2 rfl)), fun x hx => .inr hx⟩

/-- **Putting an aggregate together** is steadfast. -/
theorem steadfast_assemble (catalog : Catalog) (owner : TypeId) (fields : List Field)
    (policy : Policy) : (assemble catalog owner fields policy).Steadfast known fun h => [h] := by
  refine (Steadfast.announce owner fields.length).bind fun _ =>
    (steadfast_members catalog owner fields).bind fun ms =>
      (Steadfast.ask (r := .aggregate policy ms) rfl fun h hh => .inr hh).bind fun a =>
        steadfast_orRejected catalog owner ?_
  rintro h rfl
  exact .inr (List.mem_singleton.2 rfl)

/-- **The built-in mapping** is steadfast. -/
theorem steadfast_builtIn (hp : ∀ p, known (.primitive p)) (catalog : Catalog) (i : TypeId) :
    (builtIn catalog i).Steadfast known fun h => [h] := by
  rw [builtIn]
  generalize catalog.get? i = descriptor
  rcases descriptor with - | s | e | ⟨e, length⟩ | c | name
  · exact .throw _
  · refine .pure fun h hh => ?_
    rw [List.mem_singleton.1 hh]
    exact hp _
  · refine (Steadfast.lower e).bind fun a =>
      (Steadfast.ask (r := .pointer a .global) rfl fun h hh => .inr hh).bind fun answer =>
        steadfast_orRejected catalog i ?_
    rintro h rfl
    exact .inr (List.mem_singleton.2 rfl)
  · refine (Steadfast.lower e).bind fun a =>
      (Steadfast.ask (r := .array a length) rfl fun h hh => .inr hh).bind fun answer =>
        steadfast_orRejected catalog i ?_
    rintro h rfl
    exact .inr (List.mem_singleton.2 rfl)
  · exact steadfast_assemble catalog i c.fields {}
  · exact .throw _

/-! ## Rules -/

/-- A body is steadfast for a type when what it does for the type is. -/
abbrev Rule.Body.SteadfastAt (known : Handle → Prop) (catalog : Catalog) (i : TypeId)
    (body : Rule.Body) : Prop :=
  (body catalog i).Steadfast known Option.toList

/-- Primitives are known, and every rule is steadfast for the types it is in charge
of. -/
structure Setting.Steadfast (known : Handle → Prop) (s : Setting) : Prop where
  primitives : ∀ p, known (.primitive p)
  rules : ∀ i rule, s.registry.ruleFor? s.catalog i = some rule →
    rule.body.SteadfastAt known s.catalog i

/-- Rules that are steadfast whatever they are in charge of. -/
theorem Setting.Steadfast.of_entries {s : Setting} (hp : ∀ p, known (.primitive p))
    (h : ∀ e ∈ s.registry.entries, ∀ i, e.2.body.SteadfastAt known s.catalog i) :
    s.Steadfast known := by
  refine ⟨hp, fun i rule hrule => ?_⟩
  obtain ⟨e, he, rfl⟩ := Library.exists_mem_of_lookup hrule
  exact h e he i

namespace Rule.Body

variable {catalog : Catalog} {i : TypeId}

/-- Declines where `body` fails, unless the failure is circular. -/
def sparing (body : Body) : Body := fun catalog i =>
  tryCatch (body catalog i) fun e => if e.isCircular then throw e else pure none

theorem steadfast_constant {h : Handle} (hh : known h) :
    (constant h).SteadfastAt known catalog i := by
  refine .pure fun x hx => ?_
  rw [List.mem_singleton.1 hx]
  exact hh

theorem steadfast_sameAs (other : TypeId) : (sameAs other).SteadfastAt known catalog i :=
  (Steadfast.lower other).map fun _ _ hh => hh

/-- **Declining after failures is steadfast** where circular ones are let through. -/
theorem steadfast_sparing {body : Body} (hb : body.SteadfastAt known catalog i) :
    (sparing body).SteadfastAt known catalog i := by
  refine hb.tryCatch (fun e => ?_) fun e he => ?_
  · split
    · exact .throw e
    · exact .pure (List.forall_mem_nil _)
  · rw [if_pos he]
    exact he

/-- **So is trying several in order.** -/
theorem steadfast_firstOf {bodies : List Body}
    (h : ∀ body ∈ bodies, body.SteadfastAt known catalog i) :
    (firstOf bodies).SteadfastAt known catalog i := by
  induction bodies generalizing known with
  | nil => exact .pure (List.forall_mem_nil _)
  | cons body rest ih =>
    rw [List.forall_mem_cons] at h
    refine h.1.bind fun a => ?_
    cases a with
    | some x => exact .pure fun y hy => .inr hy
    | none => exact ih fun b hb => (h.2 b hb).mono fun y hy => .inl hy

end Rule.Body

end DeviceTypes.Lowering
