import DeviceTypes.Proofs.Lowering.Expansion
import DeviceTypes.Proofs.Lowering.Play
import DeviceTypes.Proofs.Universe.Mint
/-!
# Sessions that follow expansions

What it means that a session lowers as one would without it. The invariant
of a session is `Progress.Inside`: what it keeps is right, and with a type
it keeps all the types that the plan of the type asks for. On the way from
one moment to another it finishes some types (`Steps`): the trees of these
are planted in its table, in order, and these are the types it keeps in
the end. A computation follows an expansion when it takes its steps and
agrees with its answer (`Follows`), and following goes by the parts of a
computation (`Follows.bind`).

A plan ends by asking the universe for one more tree. It is planted but
not yet kept, so that last step is said apart (`Completes`, `Builds`).
-/

namespace DeviceTypes.Lowering

open Source (Catalog TypeId)

/-- A session in the middle of the types `around`, keeping nothing but what is
right. -/
structure Progress.Inside (L : Library) (target : Target) (around : List TypeId)
    (p : Progress) : Prop where
  sound : p.minter.Sound
  target_eq : p.minter.target = target
  resolving_eq : p.resolving = around
  lowered : ∀ i h, p.lowered? i = some h →
    ∃ T, L.Meets target i T ∧ p.minter.table.Reads h T
  closed : ∀ i, (p.lowered? i).isSome → ∀ e ∈ L.deps i, (p.lowered? e).isSome

/-- A session went from `p` to `p'` while it finished some types. -/
structure Steps (L : Library) (target : Target) (around : List TypeId)
    (done : List (TypeId × Tree)) (p p' : Progress) : Prop where
  inside : p'.Inside L target around
  le : p.minter ≤ p'.minter
  planted : p'.minter.table = p.minter.table.plantAll (done.map Prod.snd)
  keeps : ∀ i h, p.lowered? i = some h → p'.lowered? i = some h
  kept : ∀ e ∈ done, (p'.lowered? e.1).isSome
  same : (∀ e ∈ done, (p.lowered? e.1).isSome) → p'.lowered = p.lowered

/-- The same failure, or two related answers. -/
inductive Agrees {α β : Type} (R : α → β → Prop) : Except Error α → Except Error β → Prop
  | ok {a : α} {b : β} : R a b → Agrees R (.ok a) (.ok b)
  | error (e : Error) : Agrees R (.error e) (.error e)

theorem Agrees.of_right {α β : Type} {R : α → β → Prop} {x : Except Error α} {b : β}
    (h : Agrees R x (.ok b)) : ∃ a, x = .ok a ∧ R a b := by
  cases h with
  | ok hR => exact ⟨_, rfl, hR⟩

theorem Agrees.of_left {α β : Type} {R : α → β → Prop} {a : α} {r : Except Error β}
    (h : Agrees R (.ok a) r) : ∃ b, r = .ok b ∧ R a b := by
  cases h with
  | ok hR => exact ⟨_, rfl, hR⟩

theorem Agrees.error_iff {α β : Type} {R : α → β → Prop} {x : Except Error α} {r : Except Error β}
    (h : Agrees R x r) (e : Error) : x = .error e ↔ r = .error e := by
  cases h <;> simp

/-- What agrees with the same is related as the two relations allow. -/
theorem Agrees.join {α β γ : Type} {R : α → β → Prop} {R' : α → γ → Prop} {Q : β → γ → Prop}
    {x : Except Error α} {r : Except Error β} {r' : Except Error γ} (h : Agrees R x r)
    (h' : Agrees R' x r') (hQ : ∀ a b c, R a b → R' a c → Q b c) : Agrees Q r r' := by
  cases h with
  | ok hR =>
    cases h' with
    | ok hR' => exact .ok (hQ _ _ _ hR hR')
  | error e =>
    cases h'
    exact .error e

theorem Agrees.mono {α β : Type} {R R' : α → β → Prop} {x : Except Error α} {r : Except Error β}
    (h : Agrees R x r) (hR : ∀ a b, R a b → R' a b) : Agrees R' x r := by
  cases h with
  | ok hab => exact .ok (hR _ _ hab)
  | error e => exact .error e

/-- A session came out as an expansion did. -/
structure Follows {α β : Type} (L : Library) (target : Target) (around : List TypeId)
    (R : Table → α → β → Prop) (x : Expansion α) (p : Progress)
    (r : Outcome β) : Prop where
  steps : Steps L target around x.finished p r.2
  agrees : Agrees (R r.2.minter.table) x.answer r.1

/-- A handle and the tree that a table reads it as. -/
abbrev IsTree (t : Table) (T : Tree) (h : Handle) : Prop := t.Reads h T

/-- Members and the trees that a table reads them as. -/
abbrev AreTrees (t : Table) (Ts : List (String × Tree)) (ms : List Member) : Prop :=
  t.ReadsEach ms Ts

variable {L : Library} {target : Target} {around : List TypeId}
  {done done' : List (TypeId × Tree)} {p p' p'' : Progress}

/-- Two sessions that came out as one expansion did, with one table, gave one
answer. -/
theorem Follows.answer_eq {x : Expansion Tree} {q : Progress} {r r' : Outcome Handle}
    (h : Follows L target around IsTree x p r) (h' : Follows L target around IsTree x q r')
    (ht : r.2.minter.table = r'.2.minter.table) : r.1 = r'.1 := by
  obtain ⟨finished, answer⟩ := x
  obtain ⟨a, s⟩ := r
  obtain ⟨a', s'⟩ := r'
  cases h.agrees with
  | error e =>
    cases h'.agrees with
    | error e => rfl
  | ok hR =>
    obtain ⟨b, rfl, hR'⟩ := h'.agrees.of_left
    rw [IsTree, ← ht] at hR'
    exact congrArg Except.ok (hR.inj hR' h.steps.inside.sound.ordered)

/-! ## Steps -/

theorem Progress.Inside.refl (hp : p.Inside L target around) :
    Steps L target around [] p p where
  inside := hp
  le := le_refl _
  planted := rfl
  keeps _ _ h := h
  kept _ he := absurd he List.not_mem_nil
  same _ := rfl

theorem Steps.trans (h : Steps L target around done p p')
    (h' : Steps L target around done' p' p'') :
    Steps L target around (done ++ done') p p'' where
  inside := h'.inside
  le := le_trans h.le h'.le
  planted := by
    rw [h'.planted, h.planted, List.map_append, Table.plantAll_append]
  keeps i a hi := h'.keeps i a (h.keeps i a hi)
  kept e he := by
    rcases List.mem_append.1 he with he | he
    · obtain ⟨a, ha⟩ := Option.isSome_iff_exists.1 (h.kept e he)
      rw [h'.keeps e.1 a ha]
      rfl
    · exact h'.kept e he
  same hall := by
    -- the first part added nothing, so the second has all its types kept as well
    have hsame := h.same fun e he => hall e (List.mem_append_left _ he)
    rw [h'.same fun e he => ?_, hsame]
    rw [Progress.lowered?, hsame]
    exact hall e (List.mem_append_right _ he)

/-- The log has no part in it. -/
theorem Progress.Inside.record (hp : p.Inside L target around) (e : Event) :
    (p.record e).Inside L target around :=
  ⟨hp.sound, hp.target_eq, hp.resolving_eq, hp.lowered, hp.closed⟩

/-! ## Part by part -/

theorem Steps.of_record {e : Event} (h : Steps L target around done (p.record e) p') :
    Steps L target around done p p' :=
  ⟨h.inside, h.le, h.planted, h.keeps, h.kept, h.same⟩

theorem Follows.of_record {α β : Type} {R : Table → α → β → Prop} {x : Expansion α}
    {r : Outcome β} {e : Event} (h : Follows L target around R x (p.record e) r) :
    Follows L target around R x p r :=
  ⟨h.steps.of_record, h.agrees⟩

theorem Progress.Inside.follows_done {α β : Type} {R : Table → α → β → Prop}
    (hp : p.Inside L target around) {a : α} {b : β} (hR : R p.minter.table a b) :
    Follows L target around R (.done a) p (.ok b, p) :=
  ⟨hp.refl, .ok hR⟩

theorem Follows.reword {α β : Type} {R : Table → α → β → Prop} {x : Expansion α} {r : Outcome β}
    (hx : Follows L target around R x p r) (g : Error → Error) :
    Follows L target around R (x.reword g) p (r.1.mapError g, r.2) := by
  refine ⟨hx.steps, ?_⟩
  obtain ⟨finished, answer⟩ := x
  obtain ⟨rb, p'⟩ := r
  cases hx.agrees with
  | ok hR => exact .ok hR
  | error e => exact .error (g e)

theorem Follows.bind {α β γ δ : Type} {R : Table → α → β → Prop} {Q : Table → γ → δ → Prop}
    {x : Expansion α} {r : Outcome β} {f : α → Expansion γ} {next : β → Progress → Outcome δ}
    (hx : Follows L target around R x p r)
    (hf : ∀ a b, R r.2.minter.table a b → Follows L target around Q (f a) r.2 (next b r.2)) :
    Follows L target around Q (x.bind f) p (r.andThen next) := by
  obtain ⟨finished, answer⟩ := x
  obtain ⟨rb, p'⟩ := r
  obtain ⟨hsteps, hagrees⟩ := hx
  cases hagrees with
  | ok hR =>
    obtain ⟨hsteps', hagrees'⟩ := hf _ _ hR
    exact ⟨hsteps.trans hsteps', hagrees'⟩
  | error e => exact ⟨hsteps, .error e⟩

/-! ## The last step of a plan -/

/-- The trees that an answer plants. -/
def answered : Except Error Tree → List Tree
  | .ok T => [T]
  | .error _ => []

/-- A session answered with a tree whose parts it had finished, and kept nothing. -/
structure Completes (answer : Except Error Tree) (p : Progress)
    (r : Outcome Handle) : Prop where
  sound : r.2.minter.Sound
  le : p.minter ≤ r.2.minter
  lowered : r.2.lowered = p.lowered
  resolving : r.2.resolving = p.resolving
  planted : r.2.minter.table = p.minter.table.plantAll (answered answer)
  agrees : Agrees (IsTree r.2.minter.table) answer r.1

/-- A session went through a plan as an expansion did. -/
def Builds (L : Library) (target : Target) (around : List TypeId) (x : Expansion Tree)
    (p : Progress) (r : Outcome Handle) : Prop :=
  ∃ p', Steps L target around x.finished p p' ∧ Completes x.answer p' r

theorem Progress.Inside.completes_error (hp : p.Inside L target around) (e : Error) :
    Completes (.error e) p (.error e, p) :=
  ⟨hp.sound, le_refl _, rfl, rfl, rfl, .error e⟩

/-- A last step leaves the session as right as it was. -/
theorem Completes.inside {answer : Except Error Tree} {r : Outcome Handle}
    (h : Completes answer p r) (hp : p.Inside L target around) : r.2.Inside L target around where
  sound := h.sound
  target_eq := (Universe.target_of_le h.le).trans hp.target_eq
  resolving_eq := h.resolving.trans hp.resolving_eq
  lowered i a hi := by
    rw [Progress.lowered?, h.lowered] at hi
    obtain ⟨T, hT, hr⟩ := hp.lowered i a hi
    exact ⟨T, hT, hr.of_le hp.sound.ordered h.sound.ordered (Universe.table_of_le h.le)⟩
  closed i hi e he := by
    rw [Progress.lowered?, h.lowered] at hi ⊢
    exact hp.closed i hi e he

theorem Builds.inside {x : Expansion Tree} {r : Outcome Handle}
    (h : Builds L target around x p r) : r.2.Inside L target around := by
  obtain ⟨p', hsteps, hlast⟩ := h
  exact hlast.inside hsteps.inside

/-- **A tree that the universe was asked for** ends a plan as the target's
answer to it does. -/
theorem Progress.Inside.completes_mint (hp : p.Inside L target around) {i : TypeId} {T : Tree}
    {m : Except Rejection Handle × Universe} (hm : p.minter.Mints T m) (log : Array Event) :
    Completes (L.admitted target i T).answer p
      (m.1.mapError (.rejected (L.catalog.nameOf i)), { p with minter := m.2, log }) := by
  have hplanted := hm.planted
  have hanswer := hm.answer
  rw [hp.target_eq] at hplanted hanswer
  rw [Library.admitted]
  rcases hverdict : T.verdict target with r | ⟨⟩
  · rw [hverdict] at hplanted hanswer
    simp only at hplanted hanswer
    refine ⟨hm.sound, hm.le, rfl, rfl, hplanted, ?_⟩
    rw [hanswer]
    exact .error _
  · rw [hverdict] at hplanted hanswer
    obtain ⟨h, hh, hr⟩ := hanswer
    refine ⟨hm.sound, hm.le, rfl, rfl, hplanted, ?_⟩
    rw [hh]
    exact .ok hr

theorem Completes.andThen_record {answer : Except Error Tree} {r : Outcome Handle}
    (h : Completes answer p r) (e : Event) :
    Completes answer p (r.andThen fun h p' => (.ok h, p'.record e)) := by
  obtain ⟨r, p'⟩ := r
  cases r with
  | error err => exact h
  | ok a => exact ⟨h.sound, h.le, h.lowered, h.resolving, h.planted, h.agrees⟩

theorem Completes.of_orRejected {nested : Nested} {answer : Except Error Tree} {catalog : Catalog}
    {i : TypeId} {a : Except Rejection Handle}
    (h : Completes answer p (a.mapError (.rejected (catalog.nameOf i)), p')) :
    Completes answer p ((playNested nested (orRejected catalog i a)).run p') := by
  cases a with
  | error r => exact h
  | ok a => exact h

theorem Completes.of_ask {nested : Nested} {answer : Except Error Tree} {r : Request}
    {f : r.Answer → LowerM Handle}
    (h : Completes answer p ((playNested nested (f (p.ask r).1)).run (p.ask r).2)) :
    Completes answer p ((playNested nested (LowerM.ask r >>= f)).run p) := by
  rw [run_playNested_bind]
  exact h

/-- **After the parts, the whole**: where nested types came out as they should,
and the universe is asked for the tree on top of them, so does the plan. -/
theorem Follows.builds {α β : Type} {R : Table → α → β → Prop} {x : Expansion α} {r : Outcome β}
    (hx : Follows L target around R x p r) {i : TypeId} {f : α → Tree}
    {last : β → Progress → Outcome Handle}
    (hlast : ∀ a b, R r.2.minter.table a b →
      Completes (L.admitted target i (f a)).answer r.2 (last b r.2)) :
    Builds L target around (x.bind fun a => L.admitted target i (f a)) p (r.andThen last) := by
  obtain ⟨rb, p'⟩ := r
  obtain ⟨hsteps, hagrees⟩ := hx
  -- the last step finishes no type, it only plants the tree of this one
  refine ⟨p', ?_, ?_⟩
  · rw [Library.finished_bind_admitted]
    exact hsteps
  · obtain ⟨finished, answer⟩ := x
    cases hagrees with
    | ok hR => exact hlast _ _ hR
    | error e => exact hsteps.inside.completes_error e

theorem Builds.of_record {x : Expansion Tree} {r : Outcome Handle} {e : Event}
    (h : Builds L target around x (p.record e) r) : Builds L target around x p r := by
  obtain ⟨p', hsteps, hlast⟩ := h
  exact ⟨p', hsteps.of_record, hlast⟩

end DeviceTypes.Lowering
