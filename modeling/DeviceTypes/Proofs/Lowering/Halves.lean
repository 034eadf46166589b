import Mathlib.Data.Finmap
import DeviceTypes.Proofs.Lowering.Registrations
/-!
# Registries as two maps

How a registry is laid out in memory: one map has the rules for single types,
another those for families. A key is taken when the map of its kind has it, and
the rule in charge of a type is looked for in the one map and then in the other.
Whether a key means a type is a question of its own, which neither map answers.

All of these agree with the registrations themselves, made or refused, whatever
keys overlap on a type. This is the main statement, `registrations_kept`.
-/

namespace DeviceTypes.Lowering

open Source (Catalog TypeId)

/-- A registry as two maps: the rules for single types, and those for families. -/
structure Halves where
  exact : Finmap fun _ : TypeId => Rule
  families : Finmap fun _ : String => Rule

namespace Halves

/-- The registry without rules. -/
def empty : Halves := ⟨∅, ∅⟩

/-- The rule under a key, in the map of its kind. -/
def find? (x : Halves) : Key → Option Rule
  | .exact i => x.exact.lookup i
  | .family name => x.families.lookup name

/-- The registry with `rule` under `key`, in the map of its kind. -/
def insert (x : Halves) (key : Key) (rule : Rule) : Halves :=
  match key with
  | .exact i => { x with exact := x.exact.insert i rule }
  | .family name => { x with families := x.families.insert name rule }

/-- A registration as a call: its answer, and the registry after it. -/
def enter (x : Halves) (e : Key × Rule) : Except RegistryError Unit × Halves :=
  if (x.find? e.1).isSome then (.error (.alreadyRegistered e.1), x)
  else (.ok (), x.insert e.1 e.2)

/-- The registry after some registrations, made or refused. -/
def after (calls : List (Key × Rule)) : Halves :=
  calls.foldl (fun x e => (x.enter e).2) empty

/-- The registry after several registrations; the first that is refused ends it. -/
def registerAll (x : Halves) : List (Key × Rule) → Except RegistryError Halves
  | [] => .ok x
  | e :: rest =>
    match x.enter e with
    | (.ok (), x') => x'.registerAll rest
    | (.error error, _) => .error error

/-- The registry of a list of registrations. -/
def ofList (calls : List (Key × Rule)) : Except RegistryError Halves := empty.registerAll calls

/-- How many keys have a rule. -/
def size (x : Halves) : Nat := x.exact.keys.card + x.families.keys.card

/-- The rule in charge of a source type. -/
def ruleFor? (x : Halves) (catalog : Catalog) (i : TypeId) : Option Rule :=
  x.exact.lookup i <|> (catalog.family? i).bind fun name => x.families.lookup name

/-- The two maps have what the list has. -/
structure Represents (x : Halves) (r : Registry) : Prop where
  find?_eq : ∀ key, x.find? key = r.find? key
  size_eq : x.size = r.size

variable {x y : Halves} {r : Registry} {calls : List (Key × Rule)}

/-- Maps are as good as what is found in them. -/
theorem ext_find? (h : ∀ key, x.find? key = y.find? key) : x = y := by
  obtain ⟨exact, families⟩ := x
  obtain ⟨exact', families'⟩ := y
  obtain rfl : exact = exact' := Finmap.ext_lookup fun i => h (.exact i)
  obtain rfl : families = families' := Finmap.ext_lookup fun name => h (.family name)
  rfl

theorem find?_insert (x : Halves) (key : Key) (rule : Rule) (k : Key) :
    (x.insert key rule).find? k = if k = key then some rule else x.find? k := by
  split
  · rename_i hk
    subst hk
    cases k with
    | exact i => exact Finmap.lookup_insert _
    | family name => exact Finmap.lookup_insert _
  · rename_i hk
    -- another key is in the other map, or elsewhere in the same one
    cases key with
    | exact i =>
      cases k with
      | exact j => exact Finmap.lookup_insert_of_ne _ fun h => hk (congrArg Key.exact h)
      | family name => rfl
    | family name =>
      cases k with
      | exact j => rfl
      | family name' => exact Finmap.lookup_insert_of_ne _ fun h => hk (congrArg Key.family h)

/-- A new key of a map makes it larger by one. -/
theorem card_keys_insert {α : Type} [DecidableEq α] {m : Finmap fun _ : α => Rule} {a : α}
    (ha : m.lookup a = none) (rule : Rule) : (m.insert a rule).keys.card = m.keys.card + 1 := by
  have hkeys : (m.insert a rule).keys = Insert.insert a m.keys := by
    ext b
    rw [Finmap.mem_keys, Finmap.mem_insert, Finset.mem_insert, Finmap.mem_keys]
  rw [hkeys, Finset.card_insert_of_notMem]
  rwa [Finmap.mem_keys, ← Finmap.lookup_eq_none]

theorem size_insert {key : Key} (hkey : x.find? key = none) (rule : Rule) :
    (x.insert key rule).size = x.size + 1 := by
  cases key with
  | exact i =>
    have hcard := card_keys_insert (m := x.exact) hkey rule
    simp only [size, insert, hcard]
    omega
  | family name =>
    have hcard := card_keys_insert (m := x.families) hkey rule
    simp only [size, insert, hcard]
    omega

/-- What is refused changes neither map. -/
theorem enter_of_error {e : Key × Rule} {error : RegistryError}
    (h : (x.enter e).1 = .error error) : (x.enter e).2 = x := by
  rw [enter] at h ⊢
  split at h
  · rename_i htaken
    rw [if_pos htaken]
  · cases h

theorem represents_empty : empty.Represents .empty where
  find?_eq key := by cases key <;> rfl
  size_eq := rfl

/-- **A registration is answered alike** and keeps maps and list in step. -/
theorem Represents.enter (hx : x.Represents r) (e : Key × Rule) :
    (x.enter e).1 = (r.enter e).1 ∧ (x.enter e).2.Represents (r.enter e).2 := by
  by_cases htaken : (r.find? e.1).isSome
  · rw [Halves.enter, hx.find?_eq, Registry.enter_eq, if_pos htaken, if_pos htaken]
    exact ⟨rfl, hx⟩
  · have hfree : r.find? e.1 = none := Option.not_isSome_iff_eq_none.1 htaken
    have hentered : x.enter e = (.ok (), x.insert e.1 e.2) := by
      rw [Halves.enter, hx.find?_eq, if_neg htaken]
    refine ⟨?_, fun key => ?_, ?_⟩
    · rw [hentered, Registry.enter_eq, if_neg htaken]
    · rw [hentered, Registry.find?_enter, find?_insert, hx.find?_eq]
      split
      · rename_i hkey
        rw [hkey, hfree, Option.none_or, List.lookup_cons_self]
      · rename_i hkey
        rw [List.lookup_cons, beq_false_of_ne hkey, List.lookup_nil, Option.or_none]
    · rw [hentered, Registry.size_enter, if_neg htaken, ← hx.size_eq]
      exact size_insert ((hx.find?_eq e.1).trans hfree) e.2

/-- **So are any registrations.** -/
theorem represents_after (calls : List (Key × Rule)) :
    (after calls).Represents (.after calls) := by
  induction calls using List.reverseRecOn with
  | nil => exact represents_empty
  | append_singleton calls e ih =>
    rw [Registry.after_concat, after, List.foldl_append]
    exact (ih.enter e).2

theorem Represents.ruleFor?_eq (hx : x.Represents r) (catalog : Catalog) (i : TypeId) :
    x.ruleFor? catalog i = r.ruleFor? catalog i := by
  simp only [Registry.ruleFor?, ← hx.find?_eq]
  rfl

/-- **A list of registrations goes alike**: all are made, or the same one is refused. -/
theorem Represents.registerAll (hx : x.Represents r) (calls : List (Key × Rule)) :
    (∃ x' r', x.registerAll calls = .ok x' ∧ r.registerAll calls = (r', .ok ()) ∧
      x'.Represents r') ∨
    ∃ e r', x.registerAll calls = .error e ∧ r.registerAll calls = (r', .error e) := by
  induction calls generalizing x r with
  | nil => exact Or.inl ⟨x, r, rfl, rfl, hx⟩
  | cons e rest ih =>
    obtain ⟨hanswer, hnext⟩ := hx.enter e
    rw [registerAll, r.registerAll_cons]
    rcases hr : r.enter e with ⟨error | ⟨⟩, r'⟩
    all_goals
      rcases hx' : x.enter e with ⟨answer, x'⟩
      rw [hr, hx'] at hanswer hnext
      obtain rfl := hanswer
    · exact Or.inr ⟨error, r', rfl, rfl⟩
    · exact ih hnext

/-- **So does making a registry of a list.** -/
theorem ofList_eq_error_iff {error : RegistryError} :
    ofList calls = .error error ↔ Registry.ofList calls = .error error := by
  rw [ofList, Registry.ofList]
  rcases represents_empty.registerAll calls with ⟨x', r', hx', hr', -⟩ | ⟨e, r', hx', hr'⟩
  all_goals
    rw [hx', hr']
    simp

/-- Registrations under distinct keys give the same two maps in any order. -/
theorem ofList_of_perm {calls' : List (Key × Rule)} (hn : (calls.map Prod.fst).Nodup)
    (hp : calls.Perm calls') : ofList calls' = .ok (after calls) := by
  have hn' : (calls'.map Prod.fst).Nodup := (hp.map Prod.fst).nodup_iff.1 hn
  have hlist : Registry.empty.registerAll calls' = (.after calls', .ok ()) := by
    have hall := Registry.registerAll_append hn' (r := .empty) (fun _ _ => rfl) []
    rwa [List.append_nil] at hall
  rw [ofList]
  rcases represents_empty.registerAll calls' with ⟨x, r, hx, hr, hrep⟩ | ⟨e, r, -, hr⟩
  · obtain rfl : Registry.after calls' = r := congrArg Prod.fst (hlist.symm.trans hr)
    rw [hx]
    refine congrArg Except.ok (ext_find? fun key => ?_)
    rw [hrep.find?_eq, (represents_after calls).find?_eq, Registry.find?_after,
      Registry.find?_after, Registry.lookup_perm hn hp]
  · cases hlist.symm.trans hr

end Halves

namespace Registry

/-- **A registry keeps its registrations.** After any of them, made or refused:

* a registration is refused just where its key was registered before, and then
  leaves all as it is; in charge of a type is the first rule that was registered
  for it, or else for its family, so some rule is just where some key means the
  type; and each key counts once (`Keeps`);
* the two maps answer every further registration as the list does and keep what a
  refusal leaves, have the same rule in charge of every type, and are of one size.

Of a list, a registry is made just where the keys are distinct, and it is the one
that registering them one by one gives; otherwise the first key that is repeated
is refused. However a list of distinct keys is ordered, the same rules are in
charge, and the two maps are the same. -/
theorem registrations_kept (calls : List (Key × Rule)) :
    (after calls).Keeps calls ∧
    ((∀ e, ((Halves.after calls).enter e).1 = ((after calls).enter e).1 ∧
        ∀ error, ((Halves.after calls).enter e).1 = .error error →
          ((Halves.after calls).enter e).2 = Halves.after calls) ∧
      (∀ catalog i, (Halves.after calls).ruleFor? catalog i = (after calls).ruleFor? catalog i) ∧
      (Halves.after calls).size = (after calls).size) ∧
    ((∃ r, ofList calls = .ok r) ↔ (calls.map Prod.fst).Nodup) ∧
    (∀ r, ofList calls = .ok r → r = after calls) ∧
    (∀ key, ofList calls = .error (.alreadyRegistered key) ↔
      ∃ before rule rest, calls = before ++ (key, rule) :: rest ∧
        (before.map Prod.fst).Nodup ∧ key ∈ before.map Prod.fst) ∧
    (∀ error, Halves.ofList calls = .error error ↔ ofList calls = .error error) ∧
    ((calls.map Prod.fst).Nodup → ∀ calls', calls.Perm calls' →
      Halves.ofList calls' = .ok (Halves.after calls) ∧
      ∃ r, ofList calls' = .ok r ∧
        ∀ catalog i, r.ruleFor? catalog i = (after calls).ruleFor? catalog i) := by
  have hhalves := Halves.represents_after calls
  refine ⟨keeps_after calls, ⟨fun e => ⟨(hhalves.enter e).1, fun error => Halves.enter_of_error⟩,
    hhalves.ruleFor?_eq, hhalves.size_eq⟩, exists_ofList_iff, fun r => eq_after_of_ofList,
    fun key => ofList_eq_error_iff, fun error => Halves.ofList_eq_error_iff, fun hn calls' hp => ?_⟩
  obtain ⟨r, hr, hfind⟩ := ofList_perm hn hp
  exact ⟨Halves.ofList_of_perm hn hp, r, hr, ruleFor?_congr hfind⟩

/-- A rule of a pair's own is in charge of it, though one for its family came first, and
though another was registered for it later. -/
example :
    let rule (serial : Nat) := Rule.closure serial fun _ _ => pure none
    let catalog : Catalog := (Catalog.scalars.composite "Pair<f32>" (some "Pair") []).2
    let r := after [(.family "Pair", rule 0), (.exact ⟨11⟩, rule 1), (.exact ⟨11⟩, rule 2)]
    (r.ruleFor? catalog ⟨11⟩).map Rule.serial = some 1 ∧ r.size = 2 := by
  decide +kernel

end Registry

end DeviceTypes.Lowering
