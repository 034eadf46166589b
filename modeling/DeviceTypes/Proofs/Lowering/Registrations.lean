import Mathlib.Data.Finset.Dedup
import Mathlib.Data.Finset.Card
import DeviceTypes.Lowering.Registry
/-!
# Registrations, made and refused

A program registers rules one after another and goes on after a refusal. A key
belongs to the rule that was first registered under it, so the registrations
alone, in their order, tell all that the registry answers (`keeps_after`).

A registry may also be made of a list at once. There the first refusal ends it,
so it is made of distinct keys only (`exists_ofList_iff`), and then their order
is not felt (`ofList_perm`).
-/

namespace DeviceTypes.Lowering

open Source (Catalog TypeId)

namespace Registry

/-- A registration as a call: its answer, and the registry after it. One that is
refused changes nothing. -/
def enter (r : Registry) (e : Key × Rule) : Except RegistryError Unit × Registry :=
  match r.register e.1 e.2 with
  | .ok r' => (.ok (), r')
  | .error error => (.error error, r)

/-- The registry after some registrations, made or refused. -/
def after (calls : List (Key × Rule)) : Registry :=
  calls.foldl (fun r e => (r.enter e).2) empty

/-- The first of the registrations under `key` is of `rule`. -/
def First (calls : List (Key × Rule)) (key : Key) (rule : Rule) : Prop :=
  ∃ before rest, calls = before ++ (key, rule) :: rest ∧ key ∉ before.map Prod.fst

variable {r : Registry} {calls : List (Key × Rule)} {key : Key} {rule : Rule}

/-! ## Lists of registrations -/

theorem lookup_isSome_iff : (calls.lookup key).isSome ↔ key ∈ calls.map Prod.fst := by
  rw [List.lookup_isSome_iff, List.mem_map]
  exact exists_congr fun e => and_congr_right fun _ => by rw [beq_iff_eq, eq_comm]

theorem lookup_eq_none_iff : calls.lookup key = none ↔ key ∉ calls.map Prod.fst := by
  rw [← lookup_isSome_iff, Option.not_isSome_iff_eq_none]

theorem lookup_eq_some_iff : calls.lookup key = some rule ↔ First calls key rule := by
  rw [List.lookup_eq_some_iff]
  refine exists_congr fun before => exists_congr fun rest => and_congr_right fun _ => ?_
  simp only [bne_iff_ne, List.mem_map, not_exists, not_and]
  exact ⟨fun h e he hk => h e he hk.symm, fun h e he hk => h e he hk.symm⟩

/-- Where no key is repeated, the order does not matter. -/
theorem lookup_eq_some_iff_mem (hn : (calls.map Prod.fst).Nodup) :
    calls.lookup key = some rule ↔ (key, rule) ∈ calls := by
  constructor
  · intro h
    obtain ⟨before, rest, rfl, -⟩ := lookup_eq_some_iff.1 h
    exact List.mem_append_right _ List.mem_cons_self
  · intro h
    obtain ⟨rule', hrule'⟩ := Option.isSome_iff_exists.1
      (lookup_isSome_iff.2 (List.mem_map_of_mem (f := Prod.fst) h))
    obtain ⟨before, rest, hcalls, -⟩ := lookup_eq_some_iff.1 hrule'
    have hmem : (key, rule') ∈ calls := hcalls ▸ List.mem_append_right _ List.mem_cons_self
    have heq := List.inj_on_of_nodup_map hn h hmem rfl
    rw [hrule', (Prod.mk.inj heq).2]

theorem lookup_perm {calls' : List (Key × Rule)} (hn : (calls.map Prod.fst).Nodup)
    (hp : calls.Perm calls') (key : Key) : calls'.lookup key = calls.lookup key := by
  have hn' : (calls'.map Prod.fst).Nodup := (hp.map Prod.fst).nodup_iff.1 hn
  refine Option.ext fun rule => ?_
  rw [lookup_eq_some_iff_mem hn', lookup_eq_some_iff_mem hn, hp.mem_iff]

/-- A list that repeats a key does so for a first time. -/
theorem exists_first_repeated (hn : ¬ (calls.map Prod.fst).Nodup) :
    ∃ before key rule rest, calls = before ++ (key, rule) :: rest ∧
      (before.map Prod.fst).Nodup ∧ key ∈ before.map Prod.fst := by
  induction calls using List.reverseRecOn with
  | nil => exact absurd List.nodup_nil hn
  | append_singleton calls e ih =>
    by_cases hcalls : (calls.map Prod.fst).Nodup
    · refine ⟨calls, e.1, e.2, [], rfl, hcalls, ?_⟩
      by_contra hkey
      refine hn ?_
      rw [List.map_append, List.map_singleton, ← List.concat_eq_append]
      exact (List.nodup_concat _ _).2 ⟨hkey, hcalls⟩
    · obtain ⟨before, key, rule, rest, rfl, hbefore⟩ := ih hcalls
      exact ⟨before, key, rule, rest ++ [e], by rw [List.append_assoc, List.cons_append], hbefore⟩

/-! ## What one registration does -/

/-- **A registration is refused where the key has a rule**, and comes last otherwise. -/
theorem enter_eq (r : Registry) (e : Key × Rule) :
    r.enter e =
      if (r.find? e.1).isSome then (.error (.alreadyRegistered e.1), r)
      else (.ok (), ⟨r.entries ++ [e]⟩) := by
  rw [enter, register]
  cases r.find? e.1 <;> rfl

theorem find?_enter (r : Registry) (e : Key × Rule) (key : Key) :
    (r.enter e).2.find? key = (r.find? key).or ([e].lookup key) := by
  rw [enter_eq]
  split
  · rename_i htaken
    -- the key that is taken has its rule already
    by_cases hkey : key = e.1
    · subst hkey
      rw [Option.or_of_isSome htaken]
    · rw [List.lookup_cons, beq_false_of_ne hkey, List.lookup_nil, Option.or_none]
  · exact List.lookup_append

theorem size_enter (r : Registry) (e : Key × Rule) :
    (r.enter e).2.size = if (r.find? e.1).isSome then r.size else r.size + 1 := by
  rw [enter_eq]
  split
  · rfl
  · exact List.length_append

/-! ## What any registrations do -/

theorem after_concat (calls : List (Key × Rule)) (e : Key × Rule) :
    after (calls ++ [e]) = ((after calls).enter e).2 := by
  rw [after, List.foldl_append]
  rfl

/-- **A key has the rule that was first registered under it.** -/
theorem find?_after (calls : List (Key × Rule)) (key : Key) :
    (after calls).find? key = calls.lookup key := by
  induction calls using List.reverseRecOn with
  | nil => rfl
  | append_singleton calls e ih => rw [after_concat, find?_enter, ih, List.lookup_append]

/-- **There is an entry for each key**, however often it was registered. -/
theorem size_after (calls : List (Key × Rule)) :
    (after calls).size = (calls.map Prod.fst).toFinset.card := by
  induction calls using List.reverseRecOn with
  | nil => rfl
  | append_singleton calls e ih =>
    have hkeys : ((calls ++ [e]).map Prod.fst).toFinset =
        insert e.1 (calls.map Prod.fst).toFinset := by
      rw [List.map_append, List.toFinset_append, Finset.union_comm]
      rfl
    have htaken : ((after calls).find? e.1).isSome ↔ e.1 ∈ (calls.map Prod.fst).toFinset := by
      rw [find?_after, lookup_isSome_iff, List.mem_toFinset]
    rw [after_concat, size_enter, hkeys, ih]
    by_cases hkey : e.1 ∈ (calls.map Prod.fst).toFinset
    · rw [if_pos (htaken.2 hkey), Finset.insert_eq_of_mem hkey]
    · rw [if_neg (mt htaken.1 hkey), Finset.card_insert_of_notMem hkey]

/-! ## Registrations all or none -/

theorem registerAll_cons (r : Registry) (e : Key × Rule) (rest : List (Key × Rule)) :
    r.registerAll (e :: rest) =
      match r.enter e with
      | (.ok (), r') => r'.registerAll rest
      | (.error error, r') => (r', .error error) := by
  rw [registerAll, enter]
  cases r.register e.1 e.2 <;> rfl

/-- Registrations under new keys are all made, before any others. -/
theorem registerAll_append {before : List (Key × Rule)} (hn : (before.map Prod.fst).Nodup)
    (hr : ∀ key ∈ before.map Prod.fst, r.find? key = none) (rest : List (Key × Rule)) :
    r.registerAll (before ++ rest) =
      (before.foldl (fun r e => (r.enter e).2) r).registerAll rest := by
  induction before generalizing r with
  | nil => rfl
  | cons e before ih =>
    rw [List.map_cons, List.nodup_cons] at hn
    rw [List.map_cons, List.forall_mem_cons] at hr
    have hmade : r.enter e = (.ok (), (r.enter e).2) := by
      rw [enter_eq, hr.1]
      rfl
    rw [List.cons_append, registerAll_cons, hmade, List.foldl_cons]
    refine ih hn.2 fun key hkey => ?_
    have hne : key ≠ e.1 := fun h => hn.1 (h ▸ hkey)
    rw [find?_enter, hr.2 key hkey, List.lookup_cons, beq_false_of_ne hne]
    rfl

/-- **Distinct keys are all registered.** -/
theorem ofList_of_nodup (hn : (calls.map Prod.fst).Nodup) : ofList calls = .ok (after calls) := by
  have hall := registerAll_append hn (r := empty) (fun _ _ => rfl) []
  rw [List.append_nil] at hall
  rw [ofList, hall]
  rfl

/-- **The first repeated key ends it.** -/
theorem ofList_of_repeated {before rest : List (Key × Rule)}
    (hcalls : calls = before ++ (key, rule) :: rest) (hn : (before.map Prod.fst).Nodup)
    (hkey : key ∈ before.map Prod.fst) : ofList calls = .error (.alreadyRegistered key) := by
  have htaken : ((after before).find? key).isSome := by
    rw [find?_after]
    exact lookup_isSome_iff.2 hkey
  have hall := registerAll_append hn (r := empty) (fun _ _ => rfl) ((key, rule) :: rest)
  have hrefused : (after before).registerAll ((key, rule) :: rest) =
      (after before, .error (.alreadyRegistered key)) := by
    rw [registerAll_cons, enter_eq, if_pos htaken]
  rw [ofList, hcalls, hall, ← after, hrefused]

/-- **A registry is made of distinct keys only.** -/
theorem exists_ofList_iff : (∃ r, ofList calls = .ok r) ↔ (calls.map Prod.fst).Nodup := by
  refine ⟨?_, fun hn => ⟨_, ofList_of_nodup hn⟩⟩
  rintro ⟨r, hr⟩
  by_contra hn
  obtain ⟨before, key, rule, rest, hcalls, hbefore, hkey⟩ := exists_first_repeated hn
  rw [ofList_of_repeated hcalls hbefore hkey] at hr
  cases hr

theorem eq_after_of_ofList (h : ofList calls = .ok r) : r = after calls := by
  rw [ofList_of_nodup (exists_ofList_iff.1 ⟨r, h⟩)] at h
  exact (Except.ok.inj h).symm

/-- **It is refused for the first key that is repeated.** -/
theorem ofList_eq_error_iff :
    ofList calls = .error (.alreadyRegistered key) ↔
      ∃ before rule rest, calls = before ++ (key, rule) :: rest ∧
        (before.map Prod.fst).Nodup ∧ key ∈ before.map Prod.fst := by
  constructor
  · intro h
    have hn : ¬ (calls.map Prod.fst).Nodup := by
      intro hn
      rw [ofList_of_nodup hn] at h
      cases h
    obtain ⟨before, key', rule, rest, hcalls, hbefore, hkey⟩ := exists_first_repeated hn
    rw [ofList_of_repeated hcalls hbefore hkey] at h
    cases h
    exact ⟨before, rule, rest, hcalls, hbefore, hkey⟩
  · rintro ⟨before, rule, rest, hcalls, hbefore, hkey⟩
    exact ofList_of_repeated hcalls hbefore hkey

/-- Registrations under distinct keys may be made in any order. -/
theorem ofList_perm {calls' : List (Key × Rule)} (hn : (calls.map Prod.fst).Nodup)
    (hp : calls.Perm calls') :
    ∃ r, ofList calls' = .ok r ∧ ∀ key, r.find? key = (after calls).find? key := by
  have hn' : (calls'.map Prod.fst).Nodup := (hp.map Prod.fst).nodup_iff.1 hn
  refine ⟨_, ofList_of_nodup hn', fun key => ?_⟩
  rw [find?_after, find?_after, lookup_perm hn hp]

/-! ## The rule in charge -/

theorem ruleFor?_congr {r' : Registry} (h : ∀ key, r'.find? key = r.find? key) (catalog : Catalog)
    (i : TypeId) : r'.ruleFor? catalog i = r.ruleFor? catalog i := by
  simp only [ruleFor?, h]

theorem ruleFor?_eq_or (r : Registry) (catalog : Catalog) (i : TypeId) :
    r.ruleFor? catalog i =
      (r.find? (.exact i)).or ((catalog.family? i).bind fun name => r.find? (.family name)) := by
  rw [ruleFor?]
  cases r.find? (.exact i) <;> rfl

/-- **Looking in two places is matching**: a rule is in charge where one is found under
some key that means the type. -/
theorem isSome_ruleFor?_iff (r : Registry) (catalog : Catalog) (i : TypeId) :
    (r.ruleFor? catalog i).isSome ↔
      ∃ key, (r.find? key).isSome ∧ key.matches? catalog i = true := by
  rw [ruleFor?_eq_or, Option.isSome_or, Bool.or_eq_true]
  constructor
  · rintro (h | h)
    · exact ⟨.exact i, h, decide_eq_true rfl⟩
    · obtain ⟨rule, hrule⟩ := Option.isSome_iff_exists.1 h
      obtain ⟨name, hname, hfind⟩ := Option.bind_eq_some_iff.1 hrule
      exact ⟨.family name, Option.isSome_of_eq_some hfind, decide_eq_true hname⟩
  · rintro ⟨key, h, hkey⟩
    cases key with
    | exact j =>
      obtain rfl : i = j := of_decide_eq_true hkey
      exact Or.inl h
    | family name =>
      have hname : catalog.family? i = some name := of_decide_eq_true hkey
      rw [hname]
      exact Or.inr h

/-- What a registry answers after some registrations. -/
structure Keeps (r : Registry) (calls : List (Key × Rule)) : Prop where
  /-- A key that was registered before is refused, and nothing changes. -/
  refused : ∀ key rule, key ∈ calls.map Prod.fst →
    r.enter (key, rule) = (.error (.alreadyRegistered key), r)
  /-- Any other is not. -/
  made : ∀ key rule, key ∉ calls.map Prod.fst → (r.enter (key, rule)).1 = .ok ()
  /-- In charge of a type is the first rule of its own, or else the first rule of its
  family, or else none. -/
  charge : ∀ catalog i rule, r.ruleFor? catalog i = some rule ↔
    First calls (.exact i) rule ∨ .exact i ∉ calls.map Prod.fst ∧
      ∃ name, catalog.family? i = some name ∧ First calls (.family name) rule
  /-- A rule of a type's own is in charge of it, whatever family it belongs to. -/
  own : ∀ i, .exact i ∈ calls.map Prod.fst →
    ∃ rule, First calls (.exact i) rule ∧ ∀ catalog, r.ruleFor? catalog i = some rule
  /-- Some rule is in charge of a type where some key means it. -/
  meant : ∀ catalog i, (r.ruleFor? catalog i).isSome ↔
    ∃ key ∈ calls.map Prod.fst, key.matches? catalog i = true
  /-- Each key counts once. -/
  size : r.size = (calls.map Prod.fst).toFinset.card

/-- **A registry keeps its registrations.** -/
theorem keeps_after (calls : List (Key × Rule)) : (after calls).Keeps calls where
  refused key rule hkey := by
    rw [enter_eq, find?_after, if_pos (lookup_isSome_iff.2 hkey)]
  made key rule hkey := by
    rw [enter_eq, find?_after, if_neg (mt lookup_isSome_iff.1 hkey)]
  charge catalog i rule := by
    rw [ruleFor?_eq_or, Option.or_eq_some_iff, Option.bind_eq_some_iff]
    simp only [find?_after, lookup_eq_some_iff, lookup_eq_none_iff]
  own i hi := by
    obtain ⟨rule, hrule⟩ := Option.isSome_iff_exists.1 (lookup_isSome_iff.2 hi)
    refine ⟨rule, lookup_eq_some_iff.1 hrule, fun catalog => ?_⟩
    rw [ruleFor?_eq_or, find?_after, hrule, Option.some_or]
  meant catalog i := by
    rw [isSome_ruleFor?_iff]
    simp only [find?_after, lookup_isSome_iff]
  size := size_after calls

end Registry

end DeviceTypes.Lowering
