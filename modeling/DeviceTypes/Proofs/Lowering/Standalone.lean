import DeviceTypes.Proofs.Lowering.Course
import DeviceTypes.Proofs.Lowering.Steadfast
import DeviceTypes.Proofs.Workspace.History
/-!
# Types lowered inside others

A session keeps what it lowers on the way to something else. Is that what
a session opened for it alone would answer? Not in general: a rule that
goes on after a circular failure leaves traces of the types it was run
inside of (`lower_ne_standalone_rivals`). Where every rule is steadfast
it is (`lower_standalone`).

The way there is a third reading of a type. `aloneUpTo` lowers within so
many levels, keeps nothing, has nothing in progress, and reads a universe
that stays as it is. Running out of levels is a circular failure, which a
steadfast rule hands on, so that more levels change only circular answers
(`aloneUpTo_of_le`). What a session answers is circular or is the answer
that the levels settle on (`Alike.reached`); and when it is run inside
types that are all circular within so many levels, then it answers what
these levels answer, or that is circular too (`Alike.followed`). A session
opened anew is run inside none.
-/

namespace DeviceTypes.Lowering

open Source (Catalog Scalar TypeId)

variable {α β : Type} {known : Handle → Prop} {s : Setting} {i : TypeId}
variable {v : Universe} {f g : TypeId → Except Error Handle}

/-! ## Types by themselves -/

/-- A host that lowers types by `f` and reads a universe, which stays as it is. -/
def reader (v : Universe) (f : TypeId → Except Error Handle) : Host Id where
  lower := f
  ask r := (v.perform r).1
  announce _ _ := ()

namespace Script

/-- What a script answers where types are lowered by `f`. -/
def read (v : Universe) (f : TypeId → Except Error Handle) (x : Script α) : α :=
  (x.run (reader v f)).run

theorem Ends.read {P : α → Prop} {x : Script α} (hx : x.Ends P) : P (x.read v f) := by
  induction x with
  | done a => exact hx
  | lower i next ih => exact ih _ (hx _)
  | ask r next ih => exact ih _ (hx _)
  | announce owner fields next ih => exact ih hx

theorem Ends.run {P : α → Prop} {x : Script α} (hx : x.Ends P) (nested : Nested) (p : Progress) :
    P ((x.run (sessionHost nested)).run p).1 := by
  induction x generalizing p with
  | done a => exact hx
  | lower i next ih => exact ih _ (hx _) _
  | ask r next ih => exact ih _ (hx _) (p.ask r).2
  | announce owner fields next ih => exact ih hx (p.record (.assembling owner fields))

/-- **A forthright script is circular, or answers alike** where types that are not
circular are lowered alike. -/
theorem Forthright.read_eq {x : Script (Except Error α)} (hx : x.Forthright)
    (hfg : ∀ i, Circular (f i) ∨ g i = f i) : Circular (x.read v f) ∨ x.read v g = x.read v f := by
  induction x with
  | done a => exact .inr rfl
  | lower i next ih =>
    change Circular ((next (f i)).read v f) ∨ (next (g i)).read v g = (next (f i)).read v f
    rcases hfg i with hc | he
    · exact .inl ((hx (f i)).2 hc).read
    · rw [he]
      exact ih (f i) (hx (f i)).1
  | ask r next ih => exact ih _ (hx _)
  | announce owner fields next ih => exact ih hx

end Script

/-- What lowering a type comes to after its rule, given what the built-in mapping
comes to. -/
def afterRule (mapped : Except Error Handle) : Except Error (Option Handle) → Except Error Handle
  | .error e => .error e
  | .ok (some h) => .ok h
  | .ok none => mapped

theorem Circular.afterRule {a : Except Error (Option Handle)} (h : Circular a)
    (mapped : Except Error Handle) : Circular (afterRule mapped a) := by
  cases a with
  | error e => exact h
  | ok o => cases h

namespace Setting

/-- What a type is lowered to where other types are lowered by `f`. -/
def readAnew (s : Setting) (v : Universe) (f : TypeId → Except Error Handle) (i : TypeId) :
    Except Error Handle :=
  let mapped := (builtIn s.catalog i).run.read v f
  match s.registry.ruleFor? s.catalog i with
  | none => mapped
  | some rule => afterRule mapped ((rule.body s.catalog i).run.read v f)

/-- What a type is lowered to by itself, within so many levels. -/
def aloneUpTo (s : Setting) (v : Universe) : Nat → TypeId → Except Error Handle
  | 0, i => .error (.recursive (s.catalog.nameOf i))
  | n + 1, i => s.readAnew v (s.aloneUpTo v n) i

theorem readAnew_of_rule {rule : Rule} (h : s.registry.ruleFor? s.catalog i = some rule)
    (v : Universe) (f : TypeId → Except Error Handle) :
    s.readAnew v f i = afterRule ((builtIn s.catalog i).run.read v f)
      ((rule.body s.catalog i).run.read v f) := by
  rw [readAnew, h]

theorem readAnew_of_none (h : s.registry.ruleFor? s.catalog i = none) (v : Universe)
    (f : TypeId → Except Error Handle) :
    s.readAnew v f i = (builtIn s.catalog i).run.read v f := by
  rw [readAnew, h]

/-- **So is what a type is lowered to**, where the rules are steadfast. -/
theorem Steadfast.readAnew_eq (hs : s.Steadfast known) (hfg : ∀ i, Circular (f i) ∨ g i = f i)
    (i : TypeId) : Circular (s.readAnew v f i) ∨ s.readAnew v g i = s.readAnew v f i := by
  have hmapped := (steadfast_builtIn hs.primitives s.catalog i).forthright.read_eq (v := v) hfg
  rcases hrule : s.registry.ruleFor? s.catalog i with - | rule
  · rw [readAnew_of_none hrule, readAnew_of_none hrule]
    exact hmapped
  rw [readAnew_of_rule hrule, readAnew_of_rule hrule]
  rcases (hs.rules i rule hrule).forthright.read_eq (v := v) hfg with hc | he
  · exact .inl (hc.afterRule _)
  rw [he]
  rcases (rule.body s.catalog i).run.read v f with e | - | h
  · exact .inr rfl
  · exact hmapped
  · exact .inr rfl

/-- **More levels change none but circular answers.** -/
theorem Steadfast.aloneUpTo_of_le (hs : s.Steadfast known) {n m : Nat} (hnm : n ≤ m)
    (i : TypeId) : Circular (s.aloneUpTo v n i) ∨ s.aloneUpTo v m i = s.aloneUpTo v n i := by
  induction n generalizing m i with
  | zero => exact .inl rfl
  | succ n ih =>
    obtain ⟨m, rfl⟩ : ∃ k, m = k + 1 := ⟨m - 1, by omega⟩
    exact hs.readAnew_eq (fun j => ih (Nat.le_of_succ_le_succ hnm) j) i

theorem Steadfast.circular_of_le (hs : s.Steadfast known) {n m : Nat} (hnm : n ≤ m)
    (h : Circular (s.aloneUpTo v m i)) : Circular (s.aloneUpTo v n i) := by
  rcases hs.aloneUpTo_of_le hnm i with hc | he
  · exact hc
  · rwa [he] at h

end Setting

/-! ## Sessions that answer alike -/

/-- From some number on, `V` is `b`. -/
def SettlesOn (V : Nat → β) (b : β) : Prop := ∃ n, ∀ m, n ≤ m → V m = b

/-- The session keeps nothing but what types are lowered to by themselves, in every
universe past its own. -/
structure Progress.Upright (s : Setting) (known : Handle → Prop) (p : Progress) : Prop where
  sound : p.minter.Sound
  known : ∀ h, known h → p.minter.table.Settled h
  settled : ∀ i h, p.lowered? i = some h → p.minter.table.Settled h
  lowered : ∀ i h, p.lowered? i = some h → ∀ v : Universe, v.Sound → p.minter ≤ v →
    SettlesOn (fun n => s.aloneUpTo v n i) (.ok h)

/-- A computation inside the types `around` answered as `V` does, which reads a
universe within a number of levels. -/
structure Alike (s : Setting) (known : Handle → Prop) (around : List TypeId)
    (names : α → List Handle) (V : Universe → Nat → Except Error α) (p : Progress)
    (r : Outcome α) : Prop where
  upright : r.2.Upright s known
  resolving_eq : r.2.resolving = around
  le : p.minter ≤ r.2.minter
  named : ∀ h ∈ okNames names r.1, r.2.minter.table.Settled h
  reached : ∀ v : Universe, v.Sound → r.2.minter ≤ v → Circular r.1 ∨ SettlesOn (V v) r.1
  followed : ∀ v : Universe, v.Sound → r.2.minter ≤ v → ∀ n,
    (∀ k ∈ around, Circular (s.aloneUpTo v n k)) → Circular (V v n) ∨ V v n = r.1

namespace Progress.Upright

variable {p q : Progress}

/-- Nothing is kept anew, and the universe has only grown. -/
theorem of_le (hp : p.Upright s known) (hq : q.minter.Sound) (hle : p.minter ≤ q.minter)
    (hl : q.lowered = p.lowered) : q.Upright s known where
  sound := hq
  known h hh := (hp.known h hh).of_le (Universe.table_of_le hle)
  settled i h hi := by
    rw [lowered?, hl] at hi
    exact (hp.settled i h hi).of_le (Universe.table_of_le hle)
  lowered i h hi v hv hqv := by
    rw [lowered?, hl] at hi
    exact hp.lowered i h hi v hv (le_trans hle hqv)

theorem of_eq (hp : p.Upright s known) (hm : q.minter = p.minter) (hl : q.lowered = p.lowered) :
    q.Upright s known :=
  hp.of_le (hm ▸ hp.sound) (le_of_eq hm.symm) hl

theorem record (hp : p.Upright s known) (e : Event) : (p.record e).Upright s known :=
  hp.of_eq rfl rfl

/-- Keeping what a type is lowered to by itself. -/
theorem keepAnswer (hp : p.Upright s known) {a : Except Error Handle}
    (hsettled : ∀ h, a = .ok h → p.minter.table.Settled h)
    (hsettles : ∀ h, a = .ok h → ∀ v : Universe, v.Sound → p.minter ≤ v →
      SettlesOn (fun n => s.aloneUpTo v n i) (.ok h)) :
    (p.keepAnswer i a).Upright s known := by
  cases a with
  | error e => exact hp
  | ok b =>
    refine ⟨hp.sound, hp.known, fun j h hj => ?_, fun j h hj => ?_⟩
    all_goals
      rw [lowered?_keepAnswer_ok] at hj
      split at hj
    · exact hsettled h (congrArg Except.ok (Option.some.inj hj))
    · exact hp.settled j h hj
    · rename_i hji
      rw [hji]
      exact hsettles h (congrArg Except.ok (Option.some.inj hj))
    · exact hp.lowered j h hj

end Progress.Upright

namespace Alike

variable {around : List TypeId} {names : α → List Handle} {names' : β → List Handle}
variable {V V' : Universe → Nat → Except Error α} {p q : Progress} {nested : Nested}

/-- An answer that needs no levels. -/
theorem still (hq : q.Upright s known) (hr : q.resolving = around) (hle : p.minter ≤ q.minter)
    {a : Except Error α} (ha : ∀ h ∈ okNames names a, q.minter.table.Settled h) :
    Alike s known around names (fun _ _ => a) p (a, q) :=
  ⟨hq, hr, hle, ha, fun _ _ _ => .inr ⟨0, fun _ _ => rfl⟩, fun _ _ _ _ _ => .inr rfl⟩

theorem of_le {r : Outcome α} (h : Alike s known around names V q r)
    (hle : p.minter ≤ q.minter) : Alike s known around names V p r :=
  { h with le := le_trans hle h.le }

theorem congr {r : Outcome α} (h : Alike s known around names V p r)
    (hV : ∀ v : Universe, v.Sound → r.2.minter ≤ v → ∀ n, V' v n = V v n) :
    Alike s known around names V' p r where
  upright := h.upright
  resolving_eq := h.resolving_eq
  le := h.le
  named := h.named
  reached v hv hle := by
    rw [show V' v = V v from funext (hV v hv hle)]
    exact h.reached v hv hle
  followed v hv hle := by
    rw [show V' v = V v from funext (hV v hv hle)]
    exact h.followed v hv hle

/-- **One computation, then what `W` makes of its answer**, where nothing is made of
a circular one. -/
theorem andThen {W : Except Error α → Universe → Nat → Except Error β} {a : Except Error α}
    {r : Outcome β} (h : Alike s known around names V p (a, q))
    (hW : Alike s known around names' (W a) q r) (hc : Circular a → Circular r.1)
    (hcW : ∀ a, Circular a → ∀ v n, Circular (W a v n)) :
    Alike s known around names' (fun v n => W (V v n) v n) p r where
  upright := hW.upright
  resolving_eq := hW.resolving_eq
  le := le_trans h.le hW.le
  named := hW.named
  reached v hv hle := by
    rcases h.reached v hv (le_trans hW.le hle) with hcirc | ⟨n, hn⟩
    · exact .inl (hc hcirc)
    rcases hW.reached v hv hle with hcirc | ⟨n', hn'⟩
    · exact .inl hcirc
    -- both are settled on within the larger number of levels
    refine .inr ⟨max n n', fun m hm => ?_⟩
    beta_reduce
    rw [hn m (Nat.le_trans (Nat.le_max_left n n') hm)]
    exact hn' m (Nat.le_trans (Nat.le_max_right n n') hm)
  followed v hv hle n hn := by
    rcases h.followed v hv (le_trans hW.le hle) n hn with hcirc | he
    · exact .inl (hcW _ hcirc v n)
    · rw [he]
      exact hW.followed v hv hle n hn

/-- What is asked of a way to lower the types that come up inside `around`. -/
def Nests (s : Setting) (known : Handle → Prop) (around : List TypeId) (nested : Nested) : Prop :=
  ∀ (i : TypeId) (p : Progress), p.Upright s known → p.resolving = around →
    Alike s known around (fun h => [h]) (fun v n => s.aloneUpTo v n i) p ((nested i).run p)

/-- **A steadfast script answers alike.** -/
theorem script (hn : Nests s known around nested) {known' : Handle → Prop}
    {x : Script (Except Error α)} (hm : x.Modest (okNames names) known') (hf : x.Forthright)
    (hp : p.Upright s known) (hr : p.resolving = around)
    (hk : ∀ h, known' h → p.minter.table.Settled h) :
    Alike s known around names (fun v n => x.read v (s.aloneUpTo v n)) p
      ((x.run (sessionHost nested)).run p) := by
  induction x generalizing p known' with
  | done a => exact still hp hr (le_refl _) fun h hh => hk h (hm h hh)
  | lower i next ih =>
    have hfirst := hn i p hp hr
    obtain ⟨hforth, hends⟩ := hf ((nested i).run p).1
    have hlearnt : ∀ h, Learning known' (okNames (fun h => [h]) ((nested i).run p).1) h →
        ((nested i).run p).2.minter.table.Settled h := fun h hh =>
      hh.elim (fun hh => (hk h hh).of_le (Universe.table_of_le hfirst.le)) (hfirst.named h)
    have hrest := ih _ (hm _) hforth hfirst.upright hfirst.resolving_eq hlearnt
    exact andThen (W := fun a v n => (next a).read v (s.aloneUpTo v n)) hfirst hrest
      (fun hc => (hends hc).run nested _) fun a hc v n => ((hf a).2 hc).read
  | ask r next ih =>
    obtain ⟨hlasts, hhandles, hnext⟩ := hm
    have hsettled : ∀ h ∈ r.handles, p.minter.table.Settled h := fun h hh => hk h (hhandles h hh)
    obtain ⟨hsound, hgrows⟩ := hp.sound.perform hsettled
    have hlearnt : ∀ h, Learning known' (r.named (p.ask r).1) h →
        (p.ask r).2.minter.table.Settled h := fun h hh =>
      hh.elim (fun hh => (hk h hh).of_le (Universe.table_of_le hgrows))
        fun hh => hp.sound.settled_named hsettled hh
    have hrest := ih _ (hnext _) (hf _) (p := (p.ask r).2) (hp.of_le hsound hgrows rfl) hr hlearnt
    -- what the session was answered, every later universe answers
    refine (hrest.of_le hgrows).congr fun v hv hle n => ?_
    have hsame : (v.perform r).1 = (p.ask r).1 :=
      hp.sound.perform_of_le hsettled hlasts hv (le_trans hrest.le hle)
    change (next (v.perform r).1).read v (s.aloneUpTo v n) = _
    rw [hsame]
  | announce owner fields next ih =>
    have hrest := ih hm hf (p := p.record (.assembling owner fields)) (hp.record _) hr hk
    exact hrest.of_le (le_refl _)

/-- **So does a type lowered anew.** -/
theorem lowerAnew (hs : s.Steadfast known) (hn : Nests s known around nested)
    (hp : p.Upright s known) (hr : p.resolving = around) (i : TypeId) :
    Alike s known around (fun h => [h]) (fun v n => s.readAnew v (s.aloneUpTo v n) i) p
      ((s.lowerAnew nested i).run p) := by
  have hmapped : ∀ p : Progress, p.Upright s known → p.resolving = around →
      Alike s known around (fun h => [h])
        (fun v n => (builtIn s.catalog i).run.read v (s.aloneUpTo v n)) p
        ((playNested nested (builtIn s.catalog i)).run p) := by
    intro p hp hr
    have hbuiltIn := steadfast_builtIn hs.primitives s.catalog i
    exact script hn hbuiltIn.modest hbuiltIn.forthright hp hr hp.known
  rw [Setting.lowerAnew]
  rcases hrule : s.registry.ruleFor? s.catalog i with - | rule
  · simp only [Setting.readAnew_of_none hrule]
    exact hmapped p hp hr
  have hsteadfast := hs.rules i rule hrule
  have hbody := (script hn hsteadfast.modest hsteadfast.forthright
    (p := p.record (.ran rule.serial i)) (hp.record _) hr hp.known).of_le (le_refl p.minter)
  change Alike s known around Option.toList _ p ((s.runRule nested rule i).run p) at hbody
  simp only [StateT.run_bind, Setting.readAnew_of_rule hrule]
  rcases hrun : (s.runRule nested rule i).run p with ⟨a, p'⟩
  rw [hrun] at hbody
  have hcircular : ∀ a : Except Error (Option Handle), Circular a → ∀ v n,
      Circular (afterRule ((builtIn s.catalog i).run.read v (s.aloneUpTo v n)) a) :=
    fun a ha v n => ha.afterRule _
  have hafter : ∀ r : Outcome Handle,
      Alike s known around (fun h => [h])
        (fun v n => afterRule ((builtIn s.catalog i).run.read v (s.aloneUpTo v n)) a) p' r →
      (Circular a → Circular r.1) →
      Alike s known around (fun h => [h])
        (fun v n => afterRule ((builtIn s.catalog i).run.read v (s.aloneUpTo v n))
          ((rule.body s.catalog i).run.read v (s.aloneUpTo v n))) p r :=
    fun r hr hc => andThen
      (W := fun a v n => afterRule ((builtIn s.catalog i).run.read v (s.aloneUpTo v n)) a)
      hbody hr hc hcircular
  rcases a with e | - | h
  · exact hafter _ (still hbody.upright hbody.resolving_eq (le_refl _) (List.forall_mem_nil _)) id
  · exact hafter _ ((hmapped _ (hbody.upright.record (.declined i rule.name))
      hbody.resolving_eq).of_le (le_refl _)) False.elim
  · have hclaimed : Alike s known around (fun h => [h]) (fun _ _ => .ok h) p'
        (.ok h, p'.record (.claimed i rule.name)) := by
      refine still ?_ ?_ ?_ ?_
      · exact hbody.upright.record _
      · exact hbody.resolving_eq
      · exact le_refl p'.minter
      · exact hbody.named
    exact hafter _ hclaimed False.elim

/-- **A type from its entry to its answer** is lowered as by itself. -/
theorem enclose (hs : s.Steadfast known) {a : Except Error Handle}
    (h : Alike s known (i :: around) (fun h => [h])
      (fun v n => s.readAnew v (s.aloneUpTo v n) i) p (a, q)) :
    Alike s known around (fun h => [h]) (fun v n => s.aloneUpTo v n i) p
      (a, (q.leave i).keepAnswer i a) := by
  have hreached : ∀ v : Universe, v.Sound → q.minter ≤ v →
      Circular a ∨ SettlesOn (fun n => s.aloneUpTo v n i) a := by
    intro v hv hle
    refine (h.reached v hv hle).imp_right fun ⟨n, hsettles⟩ => ⟨n + 1, fun m hm => ?_⟩
    obtain ⟨m, rfl⟩ : ∃ k, m = k + 1 := ⟨m - 1, by omega⟩
    exact hsettles m (Nat.le_of_succ_le_succ hm)
  have hfollowed : ∀ v : Universe, v.Sound → q.minter ≤ v → ∀ n,
      (∀ k ∈ around, Circular (s.aloneUpTo v n k)) →
      Circular (s.aloneUpTo v n i) ∨ s.aloneUpTo v n i = a := by
    intro v hv hle n hcircular
    induction n with
    | zero => exact .inl rfl
    | succ n ih =>
      have hbefore : ∀ k ∈ around, Circular (s.aloneUpTo v n k) :=
        fun k hk => hs.circular_of_le (Nat.le_succ n) (hcircular k hk)
      -- with a level less the type has its answer already, or is circular like those around it
      by_cases hi : Circular (s.aloneUpTo v n i)
      · exact h.followed v hv hle n (List.forall_mem_cons.2 ⟨hi, hbefore⟩)
      · have hsame := (hs.aloneUpTo_of_le (v := v) (Nat.le_succ n) i).resolve_left hi
        exact .inr (hsame.trans ((ih hbefore).resolve_left hi))
  have hminter : ((q.leave i).keepAnswer i a).minter = q.minter :=
    Progress.minter_keepAnswer i a (q.leave i)
  have hleft : (q.leave i).Upright s known := h.upright.of_eq rfl rfl
  have hresolving : q.resolving = i :: around := h.resolving_eq
  exact {
    upright := by
      refine hleft.keepAnswer ?_ ?_
      · rintro b rfl
        exact h.named b (List.mem_singleton.2 rfl)
      · rintro b rfl v hv hle
        exact (hreached v hv hle).resolve_left id
    resolving_eq := by
      rw [Progress.resolving_keepAnswer, Progress.leave, hresolving, List.erase_cons_head]
    le := hminter ▸ h.le
    named := hminter ▸ h.named
    reached := hminter ▸ hreached
    followed := hminter ▸ hfollowed }

/-- **One step of a session answers alike** when those inside it do. -/
theorem visit (hs : s.Steadfast known) (hp : p.Upright s known) {depth : Nat}
    (hn : i ∉ p.resolving → Nests s known (i :: p.resolving) (s.lowerUpTo depth)) :
    Alike s known p.resolving (fun h => [h]) (fun v n => s.aloneUpTo v n i) p
      ((s.lowerUpTo (depth + 1) i).run p) := by
  rw [Setting.lowerUpTo_succ, Setting.run_visit]
  rcases hstatus : (p.record (.requested i)).status i with h | - | - <;> simp only [hstatus]
  · have hkept : p.lowered? i = some h := Progress.lowered?_of_status hstatus
    have hsettles := hp.lowered i h hkept
    exact {
      upright := (hp.record _).record _
      resolving_eq := rfl
      le := le_refl _
      named := List.forall_mem_singleton.2 (hp.settled i h hkept)
      reached := fun v hv hle => .inr (hsettles v hv hle)
      followed := by
        intro v hv hle n _
        obtain ⟨m, hm⟩ := hsettles v hv hle
        rcases hs.aloneUpTo_of_le (v := v) (Nat.le_max_left n m) i with hc | he
        · exact .inl hc
        · exact .inr (he.symm.trans (hm _ (Nat.le_max_right n m))) }
  · have hmem : i ∈ p.resolving := (Progress.of_status_resolving hstatus).2
    exact {
      upright := hp.record _
      resolving_eq := rfl
      le := le_refl _
      named := List.forall_mem_nil _
      reached := fun _ _ _ => .inl rfl
      followed := fun v _ _ n hcircular => .inl (hcircular i hmem) }
  · have hmem : i ∉ p.resolving := (Progress.of_status_fresh hstatus).2
    have hentered : ((p.record (.requested i)).enter i).Upright s known := hp.of_eq rfl rfl
    exact (enclose hs (lowerAnew hs (hn hmem) hentered rfl i)).of_le (le_refl _)

/-- **Lowering a type answers alike**, inside any types. -/
theorem lowerUpTo (hs : s.Steadfast known) (hp : p.Upright s known) (hnodup : p.resolving.Nodup)
    {depth : Nat} (hdepth : UInt32.size < depth + p.resolving.length) (i : TypeId) :
    Alike s known p.resolving (fun h => [h]) (fun v n => s.aloneUpTo v n i) p
      ((s.lowerUpTo depth i).run p) := by
  induction depth generalizing i p with
  | zero =>
    -- no more types can be in progress than there are identifiers
    have := Library.length_le_of_nodup hnodup
    omega
  | succ depth ih =>
    refine visit hs hp fun hi j q hq hr => ?_
    rw [← hr]
    refine ih hq ?_ ?_ j
    · rw [hr]
      exact List.nodup_cons.2 ⟨hi, hnodup⟩
    · rw [hr, List.length_cons]
      omega

/-- Between calls no type is in progress. -/
theorem nests_lower (hs : s.Steadfast known) : Nests s known [] s.lower := by
  intro i p hp hr
  rw [← hr]
  refine lowerUpTo hs hp ?_ ?_ i
  · rw [hr]
    exact List.nodup_nil
  · rw [hr]
    exact Nat.lt_succ_self _

end Alike

/-! ## Whole sessions -/

namespace Setting

/-- A session that was opened in a universe and comes about by calls, while others
let the universe grow in between. -/
inductive Attained (s : Setting) (known : Handle → Prop) (u : Universe) : Progress → Prop
  | opened : Attained s known u { minter := u }
  | grown {p : Progress} {v : Universe} :
      Attained s known u p → p.minter ≤ v → v.Sound → Attained s known u { p with minter := v }
  | lowered {p : Progress} (i : TypeId) :
      Attained s known u p → Attained s known u ((s.lower i).run p).2
  | invoked {p : Progress} (rule : Rule) (i : TypeId) :
      Attained s known u p → rule.body.SteadfastAt known s.catalog i →
      Attained s known u ((s.invoke rule i).run p).2

theorem upright_opened (s : Setting) {u : Universe} (hu : u.Sound)
    (hknown : ∀ h, known h → u.table.Settled h) :
    Progress.Upright s known { minter := u } where
  sound := hu
  known := hknown
  settled i h hi := by cases hi
  lowered i h hi := by cases hi

/-- **A session keeps what types are lowered to by themselves.** -/
theorem Attained.upright (hs : s.Steadfast known) {u : Universe} (hu : u.Sound)
    (hknown : ∀ h, known h → u.table.Settled h) {p : Progress} (hp : s.Attained known u p) :
    p.Upright s known ∧ p.resolving = [] := by
  induction hp with
  | opened => exact ⟨s.upright_opened hu hknown, rfl⟩
  | grown _ hle hv ih => exact ⟨ih.1.of_le hv hle rfl, ih.2⟩
  | lowered i _ ih =>
    have halike := Alike.nests_lower hs i _ ih.1 ih.2
    exact ⟨halike.upright, halike.resolving_eq⟩
  | @invoked p rule i _ hrule ih =>
    have halike := Alike.script (p := p.record (.ran rule.serial i)) (Alike.nests_lower hs)
      hrule.modest hrule.forthright (ih.1.record _) ih.2 ih.1.known
    exact ⟨halike.upright, halike.resolving_eq⟩

/-- **Types lowered inside others are lowered as by themselves**, where the rules are
steadfast. Take any session in a universe, whatever it was called to lower and
whatever others did to the universe meanwhile; what it keeps is what a session
opened from then on answers. Rules may know any handle that was issued before
the session was opened, may ask for anything but whether a shape is known yet,
and may go on after any failure that is not circular. -/
theorem lower_standalone (s : Setting) {w : World} (hw : w.Reachable) {context : Nat}
    {u : Universe} (hu : w.universe? context = some u) (hs : s.Steadfast w.workspace.Issued)
    {p : Progress} (hp : s.Attained w.workspace.Issued u p) {i : TypeId} {h : Handle}
    (hkept : p.lowered? i = some h) {v : Universe} (hle : p.minter ≤ v) (hv : v.Sound) :
    ((s.lower i).run { minter := v }).1 = .ok h := by
  have hknown : ∀ h, w.workspace.Issued h → u.table.Settled h := fun h hh => hw.settled hu hh
  obtain ⟨hupright, -⟩ := hp.upright hs (hw.universe hu) hknown
  have hissued : ∀ h, w.workspace.Issued h → v.table.Settled h :=
    fun h hh => (hupright.known h hh).of_le (Universe.table_of_le hle)
  have halike := Alike.nests_lower hs i _ (s.upright_opened hv hissued) rfl
  generalize (s.lower i).run { minter := v } = r at halike ⊢
  -- nothing is in progress, so the new session answers what the levels settle on
  obtain ⟨n, hn⟩ := hupright.lowered i h hkept r.2.minter halike.upright.sound
    (le_trans hle halike.le)
  have hsettled : s.aloneUpTo r.2.minter n i = .ok h := hn n (Nat.le_refl n)
  rcases halike.followed r.2.minter halike.upright.sound (le_refl _) n (List.forall_mem_nil _)
    with hc | he
  · rw [hsettled] at hc
    cases hc
  · exact he.symm.trans hsettled

/-- Two external types. One is lowered to what the other is lowered to, which tries
a third that nothing lowers and goes on to a scalar. -/
def sheltered : Setting where
  catalog := ⟨Scalar.all.map .scalar ++
    [.external "outer", .external "inner", .external "absent"]⟩
  registry := ⟨[
    (.exact ⟨11⟩, .closure 0 (.sameAs ⟨12⟩)),
    (.exact ⟨12⟩, .closure 1 (.firstOf [.sparing (.sameAs ⟨13⟩), .constant (.primitive .f32)]))]⟩

/-- The inner type is lowered inside the outer one, in spite of a failure on the
way, and then by itself. -/
theorem lower_standalone_sheltered :
    ∃ (w : World) (u : Universe), w.Reachable ∧ w.universe? 0 = some u ∧
      sheltered.Steadfast w.workspace.Issued ∧
      let p := ((sheltered.lower ⟨11⟩).run { minter := u }).2
      sheltered.Attained w.workspace.Issued u p ∧ p.lowered? ⟨12⟩ = some (.primitive .f32) ∧
        p.minter.Sound ∧
        ((sheltered.lower ⟨12⟩).run { minter := p.minter }).1 = .ok (.primitive .f32) := by
  have hrun : ((World.empty.replay [.newTable, .newContext 0 .device64]).bind fun w =>
      w.universe? 0).map (fun u =>
        ((sheltered.lower ⟨11⟩).run { minter := u }).2.lowered? ⟨12⟩) =
      some (some (.primitive .f32)) := by
    decide +kernel
  obtain ⟨u, huw, hkept⟩ := Option.map_eq_some_iff.1 hrun
  obtain ⟨w, hreplay, hu⟩ := Option.bind_eq_some_iff.1 huw
  have hw : w.Reachable := World.leads_of_replay hreplay
  have hprimitive : ∀ p, w.workspace.Issued (.primitive p) := fun p n i hi => by cases hi
  have hs : sheltered.Steadfast w.workspace.Issued := by
    refine .of_entries hprimitive (List.forall_mem_cons.2 ⟨fun i => ?_,
      List.forall_mem_singleton.2 fun i => ?_⟩)
    · exact Rule.Body.steadfast_sameAs ⟨12⟩
    · refine Rule.Body.steadfast_firstOf (List.forall_mem_cons.2 ⟨?_, List.forall_mem_singleton.2 ?_⟩)
      · exact Rule.Body.steadfast_sparing (Rule.Body.steadfast_sameAs ⟨13⟩)
      · exact Rule.Body.steadfast_constant (hprimitive .f32)
  have hp : sheltered.Attained w.workspace.Issued u
      ((sheltered.lower ⟨11⟩).run { minter := u }).2 := .lowered ⟨11⟩ .opened
  have hsound := (hp.upright hs (hw.universe hu) fun h hh => hw.settled hu hh).1.sound
  exact ⟨w, u, hw, hu, hs, hp, hkept, hsound,
    lower_standalone sheltered hw hu hs hp hkept (le_refl _) hsound⟩

/-- Two external types, each with a rule that takes what the other is lowered to,
and a scalar of its own where that fails. -/
def rivals : Setting where
  catalog := ⟨Scalar.all.map .scalar ++ [.external "outer", .external "inner"]⟩
  registry := ⟨[
    (.exact ⟨11⟩, .closure 0 (.firstOf [.recovering (.sameAs ⟨12⟩), .constant (.primitive .f32)])),
    (.exact ⟨12⟩, .closure 1 (.firstOf [.recovering (.sameAs ⟨11⟩), .constant (.primitive .u8)]))]⟩

/-- **A rule that goes on after a recursive type** leaves traces of where it was
run. The inner type, lowered inside the outer one, takes its own scalar, and
the session keeps that; lowered by itself in a session opened then, it takes
the scalar of the outer type. -/
theorem lower_ne_standalone_rivals :
    ∃ (w : World) (u : Universe), w.Reachable ∧ w.universe? 0 = some u ∧
      let r := (rivals.lower ⟨11⟩).run { minter := u }
      r.1 = .ok (.primitive .u8) ∧ r.2.lowered? ⟨12⟩ = some (.primitive .u8) ∧
        ((rivals.lower ⟨12⟩).run { minter := r.2.minter }).1 = .ok (.primitive .f32) := by
  have hrun : ((World.empty.replay [.newTable, .newContext 0 .device64]).bind fun w =>
      w.universe? 0).map (fun u =>
        let r := (rivals.lower ⟨11⟩).run { minter := u }
        (Outcome.answer? r, r.2.lowered? ⟨12⟩,
          Outcome.answer? ((rivals.lower ⟨12⟩).run { minter := r.2.minter }))) =
      some (some (.primitive .u8), some (.primitive .u8), some (.primitive .f32)) := by
    decide +kernel
  obtain ⟨u, huw, hvalues⟩ := Option.map_eq_some_iff.1 hrun
  obtain ⟨w, hreplay, hu⟩ := Option.bind_eq_some_iff.1 huw
  have hw : w.Reachable := World.leads_of_replay hreplay
  simp only [Prod.mk.injEq] at hvalues
  obtain ⟨houter, hkept, hinner⟩ := hvalues
  exact ⟨w, u, hw, hu, Outcome.answer?_eq_some_iff.1 houter, hkept,
    Outcome.answer?_eq_some_iff.1 hinner⟩

end Setting

end DeviceTypes.Lowering
