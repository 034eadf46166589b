import DeviceTypes.Proofs.Lowering.Following
/-!
# Sessions against lowering without one

A session keeps what it lowers and shares a table, and it lowers as one
does without either: it fails with the same error or answers with a handle
of the same tree, and its table is the old one with the finished trees
planted (`lowerUpTo_follows`).

Where a kept type is found, lowering it again would have finished nothing
but kept types, and planted nothing but trees that the table can read
(`Progress.Inside.follows_kept`).
-/

namespace DeviceTypes.Lowering

open Source (Catalog Field TypeId)

variable {L : Library} {target : Target} {around : List TypeId}
  {done : List (TypeId × Tree)} {p : Progress}
variable {unfolded : TypeId → Expansion Tree} {nested : Nested}

/-- What is asked of a way to lower the types that come up inside `around`. -/
def NestedFollows (L : Library) (target : Target) (around : List TypeId)
    (unfolded : TypeId → Expansion Tree) (nested : Nested) (i : TypeId) : Prop :=
  ∀ p : Progress, p.Inside L target around →
    Follows L target around IsTree (unfolded i) p ((nested i).run p)

/-! ## Fields and aggregates -/

/-- **Fields lowered one after another** follow the members they are meant to
become. -/
theorem members_follows (owner : TypeId) {fields : List Field}
    (hn : ∀ j ∈ fields.map Field.type, NestedFollows L target around unfolded nested j)
    (hp : p.Inside L target around) :
    Follows L target around AreTrees (L.expandMembers unfolded owner fields) p
      ((playNested nested (members L.catalog owner fields)).run p) := by
  induction fields generalizing p with
  | nil => exact hp.follows_done (Table.readsEach_nil _)
  | cons f rest ih =>
    rw [List.map_cons, List.forall_mem_cons] at hn
    rw [members, run_playNested_bind, run_playNested_reword, run_playNested_lower]
    refine ((hn.1 p hp).reword _).bind fun T h hT => ?_
    have hp' := (hn.1 p hp).steps.inside
    rw [run_playNested_bind]
    refine (ih hn.2 hp').bind fun Ts ms hTs => ?_
    have hrest := (ih hn.2 hp').steps
    -- the rest may have planted more, which the first handle does not notice
    have hT' := hT.of_le hp'.sound.ordered hrest.inside.sound.ordered
      (Universe.table_of_le hrest.le)
    exact hrest.inside.follows_done (hT'.cons hTs f.name)

/-- **An aggregate put together** comes out as its fields and its policy say. -/
theorem assemble_builds (owner : TypeId) {fields : List Field} (policy : Policy)
    (hn : ∀ j ∈ fields.map Field.type, NestedFollows L target around unfolded nested j)
    (hp : p.Inside L target around) :
    Builds L target around (L.expandAssembly target unfolded owner fields policy) p
      ((playNested nested (assemble L.catalog owner fields policy)).run p) := by
  have hmembers := members_follows owner hn (hp.record (.assembling owner fields.length))
  rw [assemble, run_playNested_bind, run_playNested_announce]
  refine Builds.of_record (e := .assembling owner fields.length) ?_
  change Builds L target around _ _ ((playNested nested (members L.catalog owner fields >>=
    fun ms => LowerM.ask (.aggregate policy ms) >>= orRejected L.catalog owner)).run _)
  rw [run_playNested_bind]
  refine hmembers.builds fun Ts ms hTs => ?_
  have hp' := hmembers.steps.inside
  refine Completes.of_ask (Completes.of_orRejected ?_)
  exact hp'.completes_mint (hp'.sound.mints_aggregate hTs policy) _

/-! ## Plans -/

/-- **The built-in mapping** follows its plan. -/
theorem builtIn_builds (i : TypeId)
    (hn : ∀ j ∈ (Plan.builtIn L.catalog i).deps, NestedFollows L target around unfolded nested j)
    (hp : p.Inside L target around) :
    Builds L target around (L.expandPlan target unfolded i (.builtIn L.catalog i)) p
      ((playNested nested (builtIn L.catalog i)).run p) := by
  rw [Plan.builtIn] at hn ⊢
  rw [builtIn]
  generalize L.catalog.get? i = descriptor at hn ⊢
  rcases descriptor with - | s | e | ⟨e, length⟩ | c | name
  · exact ⟨p, hp.refl, hp.completes_error _⟩
  · refine ⟨p, hp.refl, hp.sound, le_refl _, rfl, rfl, rfl, .ok ?_⟩
    exact hp.sound.ordered.reads_primitive s.primitive
  · have he := hn e (List.mem_singleton.2 rfl) p hp
    have hp' := he.steps.inside
    simp only
    rw [run_playNested_bind, run_playNested_lower]
    refine he.builds fun T h hT => ?_
    refine Completes.of_ask (Completes.of_orRejected ?_)
    exact hp'.completes_mint (hp'.sound.mints_pointer hT .global) _
  · have he := hn e (List.mem_singleton.2 rfl) p hp
    have hp' := he.steps.inside
    simp only
    rw [run_playNested_bind, run_playNested_lower]
    refine he.builds fun T h hT => ?_
    refine Completes.of_ask (Completes.of_orRejected ?_)
    exact hp'.completes_mint (hp'.sound.mints_array hT length) _
  · exact assemble_builds i {} hn hp
  · exact ⟨p, hp.refl, hp.completes_error _⟩

/-- **A rule that is run** assembles what it claims, and declines the rest. -/
theorem run_runRule (L : Library) (nested : Nested) (form : Form) (i : TypeId) (p : Progress) :
    (L.setting.runRule nested form.rule i).run p =
      match form.claim? L.catalog i with
      | none => (.ok none, p.record (.ran form.rule.serial i))
      | some (fields, policy) =>
        let r := (playNested nested (assemble L.catalog i fields policy)).run
          (p.record (.ran form.rule.serial i))
        (r.1.map some, r.2) := by
  change (playNested nested (form.rule.body L.catalog i)).run
    (p.record (.ran form.rule.serial i)) = _
  rw [Form.body_rule]
  rcases form.claim? L.catalog i with - | ⟨fields, policy⟩
  · rfl
  · exact run_playNested_map ..

/-- What a session does with a type it has not lowered: the rule in charge of
it claims it, or the built-in mapping has it. -/
theorem run_lowerAnew (L : Library) (nested : Nested) (i : TypeId) (p : Progress) :
    (L.setting.lowerAnew nested i).run p =
      match L.formFor? i with
      | none => (playNested nested (builtIn L.catalog i)).run p
      | some form =>
        match form.claim? L.catalog i with
        | none =>
          (playNested nested (builtIn L.catalog i)).run
            ((p.record (.ran form.rule.serial i)).record (.declined i form.rule.name))
        | some (fields, policy) =>
          Outcome.andThen ((playNested nested (assemble L.catalog i fields policy)).run
            (p.record (.ran form.rule.serial i)))
            fun h p' => (.ok h, p'.record (.claimed i form.rule.name)) := by
  rw [Setting.lowerAnew, L.ruleFor?_setting]
  rcases L.formFor? i with - | form
  · rfl
  simp only [Option.map_some, StateT.run_bind, run_runRule]
  rcases form.claim? L.catalog i with - | ⟨fields, policy⟩
  · rfl
  simp only
  rcases (playNested nested (assemble L.catalog i fields policy)).run
    (p.record (.ran form.rule.serial i)) with ⟨e | h, p'⟩ <;> rfl

/-- **A type lowered anew** follows its plan. -/
theorem lowerAnew_builds (i : TypeId)
    (hn : ∀ j ∈ L.deps i, NestedFollows L target around unfolded nested j)
    (hp : p.Inside L target around) :
    Builds L target around (L.expandPlan target unfolded i (L.plan i)) p
      ((L.setting.lowerAnew nested i).run p) := by
  rw [run_lowerAnew]
  rw [Library.deps, Library.plan] at hn
  rw [Library.plan]
  generalize L.formFor? i = form? at hn ⊢
  rcases form? with - | form
  · exact builtIn_builds i hn hp
  simp only [Option.bind_some] at hn ⊢
  generalize form.claim? L.catalog i = claim? at hn ⊢
  rcases claim? with - | ⟨fields, policy⟩
  · exact (builtIn_builds i hn ((hp.record _).record _)).of_record.of_record
  · have hbuilds := assemble_builds i policy hn (hp.record (.ran form.rule.serial i))
    obtain ⟨p', hsteps, hlast⟩ := hbuilds.of_record
    exact ⟨p', hsteps, hlast.andThen_record _⟩

/-! ## Types -/

/-- Entering a type. -/
theorem Progress.Inside.enter (hp : p.Inside L target around) (i : TypeId) :
    (p.enter i).Inside L target (i :: around) :=
  ⟨hp.sound, hp.target_eq, congrArg (i :: ·) hp.resolving_eq, hp.lowered, hp.closed⟩

/-- Where everything finished is kept, there is nothing left to plant. -/
theorem Progress.Inside.plantAll_of_kept (hp : p.Inside L target around)
    (hmeets : ∀ e ∈ done, L.Meets target e.1 e.2) (hkept : ∀ e ∈ done, (p.lowered? e.1).isSome) :
    p.minter.table.plantAll (done.map Prod.snd) = p.minter.table := by
  refine hp.sound.ordered.plantAll_of_reads fun S hS => ?_
  obtain ⟨e, he, rfl⟩ := List.mem_map.1 hS
  obtain ⟨h, hh⟩ := Option.isSome_iff_exists.1 (hkept e he)
  obtain ⟨T, ⟨hint, -⟩, hr⟩ := hp.lowered e.1 h hh
  rw [hint.functional (hmeets e he).1] at hr
  exact ⟨h, hr⟩

/-- **A type that is kept** is answered as lowering it again would be, and
nothing is left to plant or to keep. -/
theorem Progress.Inside.follows_kept (hp : p.Inside L target around) {i : TypeId} {h : Handle}
    (hi : p.lowered? i = some h) (habove : L.Above around i) (hnodup : around.Nodup) {depth : Nat}
    (hdepth : UInt32.size < depth + around.length) (e : Event) :
    Follows L target around IsTree (L.expandUpTo target depth around i) p
      (.ok h, p.record e) := by
  obtain ⟨T, ⟨hint, hacc⟩, hr⟩ := hp.lowered i h hi
  -- what is kept was accepted, so lowering it again would succeed as well
  have hans := hint.expandUpTo hacc habove hnodup hdepth
  have hmeets : ∀ x ∈ (L.expandUpTo target depth around i).finished, L.Meets target x.1 x.2 :=
    (Library.expandUpTo_correct depth around i).meets
  -- and it would finish nothing but types below `i`, which are kept with `i`
  have hkept : ∀ x ∈ (L.expandUpTo target depth around i).finished,
      (p.lowered? x.1).isSome :=
    Library.expandUpTo_finished hp.closed depth around (by rw [hi]; rfl)
  refine ⟨⟨hp.record e, le_refl _, ?_, fun _ _ h => h, hkept, fun _ => rfl⟩, ?_⟩
  · exact (hp.plantAll_of_kept hmeets hkept).symm
  · rw [hans]
    exact .ok hr

theorem lowered?_keepAnswer_ok (i j : TypeId) (h : Handle) (p : Progress) :
    (p.keepAnswer i (.ok h)).lowered? j = if j = i then some h else p.lowered? j := by
  change List.lookup j ((i, h) :: p.lowered) = _
  rw [List.lookup_cons]
  by_cases hj : j = i
  · simp [hj]
  · have hne : (j == i) = false := by simpa using hj
    rw [hne, if_neg hj]
    rfl

/-- Leaving a type. -/
theorem Progress.Inside.leave {i : TypeId} (hp : p.Inside L target (i :: around)) :
    (p.leave i).Inside L target around where
  sound := hp.sound
  target_eq := hp.target_eq
  resolving_eq := by
    change p.resolving.erase i = around
    rw [hp.resolving_eq, List.erase_cons_head]
  lowered := hp.lowered
  closed := hp.closed

/-- Keeping an answer with all that its plan asked for. -/
theorem Progress.Inside.keepAnswer (hp : p.Inside L target around) {i : TypeId} {h : Handle}
    {T : Tree} (hT : L.Meets target i T) (hr : p.minter.table.Reads h T)
    (hdeps : ∀ e ∈ L.deps i, (p.lowered? e).isSome) :
    (p.keepAnswer i (.ok h)).Inside L target around where
  sound := hp.sound
  target_eq := hp.target_eq
  resolving_eq := hp.resolving_eq
  lowered j a ha := by
    rw [lowered?_keepAnswer_ok] at ha
    split at ha
    · rename_i hj
      obtain rfl := Option.some.inj ha
      exact ⟨T, hj ▸ hT, hr⟩
    · exact hp.lowered j a ha
  closed j hj e he := by
    rw [lowered?_keepAnswer_ok] at hj ⊢
    split
    · rfl
    split at hj
    · rename_i hji
      exact hdeps e (hji ▸ he)
    · exact hp.closed j hj e he

/-- **A type that was built** is kept, with all the types its plan asks for. -/
theorem Builds.keep {x : Expansion Tree} {r : Outcome Handle} {i : TypeId}
    (h : Builds L target (i :: around) x (p.enter i) r) (hi : p.lowered? i = none)
    (hx : ∀ T, x.answer = .ok T → L.Meets target i T ∧
      ∀ e ∈ L.deps i, ∃ S, (e, S) ∈ x.finished) :
    Follows L target around IsTree (x.finish i) p (r.1, (r.2.leave i).keepAnswer i r.1) := by
  obtain ⟨p₁, hsteps, hlast⟩ := h
  obtain ⟨finished, answer⟩ := x
  obtain ⟨a, q⟩ := r
  have hq : (q.leave i).Inside L target around := (hlast.inside hsteps.inside).leave
  have hle : p.minter ≤ q.minter := le_trans hsteps.le hlast.le
  have hlow : ∀ j, q.lowered? j = p₁.lowered? j := by
    intro j
    rw [Progress.lowered?, hlast.lowered, Progress.lowered?]
  have hkept : ∀ e ∈ finished, (q.lowered? e.1).isSome := by
    intro e he
    rw [hlow]
    exact hsteps.kept e he
  have hkeeps : ∀ j b, p.lowered? j = some b → q.lowered? j = some b := by
    intro j b hb
    rw [hlow]
    exact hsteps.keeps j b hb
  have hplanted : q.minter.table =
      p.minter.table.plantAll (finished.map Prod.snd ++ answered answer) := by
    rw [Table.plantAll_append]
    exact hlast.planted.trans (congrArg (Table.plantAll · _) hsteps.planted)
  cases hlast.agrees with
  | error e =>
    refine ⟨⟨hq, hle, ?_, hkeeps, hkept, fun hall => ?_⟩, .error e⟩
    · rw [answered, List.append_nil] at hplanted
      exact hplanted
    · exact hlast.lowered.trans (hsteps.same hall)
  | @ok T h hr =>
    obtain ⟨hT, hdeps⟩ := hx T rfl
    have hdeps' : ∀ e ∈ L.deps i, ((q.leave i).lowered? e).isSome := by
      intro e he
      obtain ⟨S, hS⟩ := hdeps e he
      exact hkept (e, S) hS
    have hinside := hq.keepAnswer hT hr hdeps'
    refine ⟨⟨hinside, hle, ?_, fun j b hb => ?_, fun e he => ?_, fun hall => ?_⟩, .ok hr⟩
    · simp only [Expansion.finish, List.map_append]
      exact hplanted
    · rw [lowered?_keepAnswer_ok]
      have hji : j ≠ i := by
        rintro rfl
        rw [hi] at hb
        cases hb
      rw [if_neg hji]
      exact hkeeps j b hb
    · rw [lowered?_keepAnswer_ok]
      split
      · rfl
      · rename_i hne
        rcases Expansion.mem_finished_finish.1 he with he | ⟨he, -⟩
        · exact hkept e he
        · exact absurd he hne
    · -- the type itself was not kept before, so the premise fails
      have hself := hall (i, T) (Expansion.mem_finished_finish.2 (Or.inr ⟨rfl, rfl⟩))
      rw [hi] at hself
      cases hself

/-- **A session lowers as if without a session**: same error or same tree, and
the finished trees planted. -/
theorem lowerUpTo_follows {depth : Nat} {i : TypeId} (hp : p.Inside L target around)
    (habove : L.Above around i) (hnodup : around.Nodup)
    (hdepth : UInt32.size < depth + around.length) :
    Follows L target around IsTree (L.expandUpTo target depth around i) p
      ((L.setting.lowerUpTo depth i).run p) := by
  induction depth generalizing around i p with
  | zero =>
    -- there are more levels than types, so the limit is never what stops a session
    have := Library.length_le_of_nodup hnodup
    omega
  | succ depth ih =>
    rw [Setting.lowerUpTo_succ, Setting.run_visit]
    have hp' := hp.record (.requested i)
    refine Follows.of_record (e := .requested i) ?_
    simp only [Progress.status]
    rcases hi : (p.record (.requested i)).lowered? i with - | h
    · simp only
      rw [hp'.resolving_eq, Library.expandUpTo]
      by_cases hmem : i ∈ around
      · rw [if_pos hmem, if_pos hmem]
        -- being lowered already: both sides call it recursive
        exact ⟨hp'.refl, .error _⟩
      · rw [if_neg hmem, if_neg hmem]
        have hn : ∀ j ∈ L.deps i, NestedFollows L target (i :: around)
            (L.expandUpTo target depth (i :: around)) (L.setting.lowerUpTo depth) j := by
          intro j hj q hq
          refine ih hq (habove.dep hj) (List.nodup_cons.2 ⟨hmem, hnodup⟩) ?_
          rw [List.length_cons]
          omega
        exact (lowerAnew_builds i hn (hp'.enter i)).keep hi fun T hT =>
          Library.expandPlan_answer (fun e => Library.expandUpTo_correct depth _ e) hT
    · exact hp'.follows_kept hi habove hnodup hdepth (.found h)

end DeviceTypes.Lowering
