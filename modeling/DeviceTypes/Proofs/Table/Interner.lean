import DeviceTypes.Primitive
import Mathlib.Algebra.Group.Nat.Defs
import Mathlib.Data.List.Induction
/-!
# Faithful interners

A program makes tables and calls them in any order: it interns data, finds
data, reads handles and counts. `Faithful` says what such a history must
look like from outside, for tables of any make: one handle for each datum,
one datum for each handle, and no growth but by new data.

What is asked of one table at a time is `Lawful`: it says which compounds
the table holds, how it finds and reads them, and what interning one more
does. Step by step the tables keep to what was interned (`tracks_after`)
and forget nothing (`grows_after`), so lawful tables are faithful
(`Lawful.faithful`).
-/

namespace DeviceTypes

/-- Tables that give handles `H` to data `D`, whatever they are made of. -/
structure Interner (H D : Type) where
  /-- What a table is. -/
  Store : Type
  /-- The datum of a primitive, and the handle that every table has for it. -/
  datum : Primitive → D
  primitive : Primitive → H
  /-- The handles that belong to no table. -/
  Loose : H → Prop
  /-- The table of a given number, as it is made. -/
  empty : Nat → Store
  /-- The handle of a datum, nothing where the table has no room for it, and the
  table after that. -/
  intern : Store → D → Option H × Store
  find? : Store → D → Option H
  get? : Store → H → Option D
  contains : Store → H → Bool
  size : Store → Nat

namespace Interner

variable {H D : Type}

/-- A call to one of several tables, given by their numbers. -/
inductive Call (H D : Type) where
  | newTable
  | intern (table : Nat) (d : D)
  | find (table : Nat) (d : D)
  | get (table : Nat) (h : H)
  | contains (table : Nat) (h : H)
  | size (table : Nat)

/-- Whether a call only reads. -/
def Call.reads : Call H D → Bool
  | newTable | intern .. => false
  | find .. | get .. | contains .. | size _ => true

/-- The answer to a call. -/
inductive Answer (H D : Type) where
  | done
  | handle (h : H)
  /-- The table has no room. -/
  | full
  | found (h : Option H)
  | data (d : Option D)
  | flag (b : Bool)
  | count (n : Nat)
  /-- There is no table of that number. -/
  | noTable

variable (I : Interner H D)

/-- A datum that is no primitive. -/
def Compound (d : D) : Prop := ∀ p, d ≠ I.datum p

/-- What is read off the table of a given number. -/
def reading (ts : List I.Store) (n : Nat) (f : I.Store → Answer H D) : Answer H D :=
  match ts[n]? with
  | some t => f t
  | none => .noTable

/-- The answer to a call, and the tables after it. -/
def step (ts : List I.Store) : Call H D → Answer H D × List I.Store
  | .newTable => (.done, ts ++ [I.empty ts.length])
  | .intern n d =>
    match ts[n]? with
    | some t =>
      match I.intern t d with
      | (some h, t') => (.handle h, ts.set n t')
      | (none, t') => (.full, ts.set n t')
    | none => (.noTable, ts)
  | .find n d => (I.reading ts n fun t => .found (I.find? t d), ts)
  | .get n h => (I.reading ts n fun t => .data (I.get? t h), ts)
  | .contains n h => (I.reading ts n fun t => .flag (I.contains t h), ts)
  | .size n => (I.reading ts n fun t => .count (I.size t), ts)

/-- The tables after some calls. -/
def after (calls : List (Call H D)) : List I.Store :=
  calls.foldl (fun ts c => (I.step ts c).2) []

/-- What a call answers after some others. -/
def answer (calls : List (Call H D)) (c : Call H D) : Answer H D := (I.step (I.after calls) c).1

/-- A datum that was interned in a table during some calls. -/
def Interned (calls : List (Call H D)) (n : Nat) (d : D) : Prop :=
  ∃ before rest h, calls = before ++ .intern n d :: rest ∧ I.answer before (.intern n d) = .handle h

/-- A handle that a program can hold after some calls. -/
def Issued (calls : List (Call H D)) (h : H) : Prop :=
  (∃ p, h = I.primitive p) ∨ I.Loose h ∨
    ∃ before n d rest, calls = before ++ .intern n d :: rest ∧
      I.answer before (.intern n d) = .handle h

/-- **What tables owe over whole histories**: `calls` and `more` are any calls,
to any number of tables, with any data. -/
structure Faithful : Prop where
  /-- Interning answers a handle wherever the table still has room. -/
  intern_answers : ∀ calls n k d, I.answer calls (.size n) = .count k → k < 2 ^ 28 →
    ∃ h, I.answer calls (.intern n d) = .handle h
  /-- An interned datum is read back. -/
  get_intern : ∀ calls n d h, I.answer calls (.intern n d) = .handle h →
    I.answer (calls ++ [.intern n d]) (.get n h) = .data (some d)
  /-- Two data have one handle only if they are one. -/
  intern_eq_iff : ∀ calls more n d d' h h', I.answer calls (.intern n d) = .handle h →
    I.answer (calls ++ .intern n d :: more) (.intern n d') = .handle h' → (h = h' ↔ d = d')
  /-- What a known handle reads as is interned under that handle, and the table
  has it already. -/
  intern_get : ∀ calls n h, I.Issued calls h → I.answer calls (.contains n h) = .flag true →
    ∃ d, I.answer calls (.get n h) = .data (some d) ∧ I.answer calls (.intern n d) = .handle h ∧
      I.after (calls ++ [.intern n d]) = I.after calls
  /-- What a handle reads as never changes. -/
  get_append : ∀ calls more n h d, I.answer calls (.get n h) = .data (some d) →
    I.answer (calls ++ more) (.get n h) = .data (some d)
  /-- The known handles are those that read as something. -/
  contains_iff : ∀ calls n h, I.answer calls (.contains n h) = .flag true ↔
    ∃ d, I.answer calls (.get n h) = .data (some d)
  /-- Primitives are found, and what was interned before, under the handle that
  interning answers. -/
  find_iff : ∀ calls n d h, I.answer calls (.find n d) = .found (some h) ↔
    ((∃ p, d = I.datum p) ∨ I.Interned calls n d) ∧ I.answer calls (.intern n d) = .handle h
  /-- Reading changes no table. -/
  after_reads : ∀ calls (c : Call H D), c.reads = true → I.after (calls ++ [c]) = I.after calls
  /-- A table counts the primitives and the compounds interned in it, each once. -/
  size_eq : ∀ calls n k, I.answer calls (.size n) = .count k →
    ∃ ds : List D, ds.Nodup ∧ (∀ d, d ∈ ds ↔ I.Interned calls n d ∧ I.Compound d) ∧
      k = Primitive.count + ds.length
  /-- Two tables answer one handle only where it is a primitive. -/
  intern_apart : ∀ calls calls' n m d d' h, n ≠ m → I.answer calls (.intern n d) = .handle h →
    I.answer calls' (.intern m d') = .handle h → ∃ p, h = I.primitive p

/-- **What is asked of one table.** `Holds n ds t` says that `t` is the table
numbered `n` and that its compounds are `ds`. -/
structure Lawful (Holds : Nat → List D → I.Store → Prop) : Prop where
  empty : ∀ n, Holds n [] (I.empty n)
  nodup : ∀ {n ds t}, Holds n ds t → ds.Nodup
  compound : ∀ {n ds t}, Holds n ds t → ∀ d ∈ ds, I.Compound d
  size : ∀ {n ds t}, Holds n ds t → I.size t = Primitive.count + ds.length
  contains : ∀ {n ds t}, Holds n ds t → ∀ h, I.contains t h = (I.get? t h).isSome
  find?_datum : ∀ {n ds t}, Holds n ds t → ∀ p, I.find? t (I.datum p) = some (I.primitive p)
  isSome_find? : ∀ {n ds t d}, Holds n ds t → I.Compound d → ((I.find? t d).isSome ↔ d ∈ ds)
  get?_of_find? : ∀ {n ds t d h}, Holds n ds t → I.find? t d = some h → I.get? t h = some d
  get?_loose : ∀ {n ds t h}, Holds n ds t → I.Loose h → I.get? t h = none
  /-- Another table's handle of a compound is unknown. -/
  get?_apart : ∀ {n ds t m ds' t' d h}, Holds n ds t → Holds m ds' t' → n ≠ m → I.Compound d →
    I.find? t' d = some h → I.get? t h = none
  intern_of_find? : ∀ {n ds t d h}, Holds n ds t → I.find? t d = some h →
    I.intern t d = (some h, t)
  /-- A new datum is refused for want of room, or it comes last and all else stays. -/
  intern_new : ∀ {n ds t d}, Holds n ds t → I.find? t d = none →
    (I.intern t d = (none, t) ∧ 2 ^ 28 ≤ I.size t) ∨
    ∃ h t', I.intern t d = (some h, t') ∧ Holds n (ds ++ [d]) t' ∧ I.find? t' d = some h ∧
      (∀ d' h', I.find? t d' = some h' → I.find? t' d' = some h') ∧
      ∀ h' d', I.get? t h' = some d' → I.get? t' h' = some d'

variable {I}

/-! ## Steps -/

theorem after_append (calls more : List (Call H D)) :
    I.after (calls ++ more) = more.foldl (fun ts c => (I.step ts c).2) (I.after calls) := by
  rw [after, List.foldl_append]
  rfl

theorem after_concat (calls : List (Call H D)) (c : Call H D) :
    I.after (calls ++ [c]) = (I.step (I.after calls) c).2 := after_append calls [c]

theorem step_intern {ts : List I.Store} {n : Nat} {t : I.Store} (ht : ts[n]? = some t) (d : D) :
    (I.step ts (.intern n d)).2 = ts.set n (I.intern t d).2 := by
  simp only [step, ht]
  rcases I.intern t d with ⟨- | a, t'⟩ <;> rfl

theorem answer_intern_eq_handle_iff {calls : List (Call H D)} {n : Nat} {d : D} {h : H} :
    I.answer calls (.intern n d) = .handle h ↔
      ∃ t t', (I.after calls)[n]? = some t ∧ I.intern t d = (some h, t') := by
  simp only [answer, step]
  rcases (I.after calls)[n]? with - | t
  · simp
  · rcases hr : I.intern t d with ⟨- | a, t'⟩ <;> simp [hr]

theorem reading_eq_iff {ts : List I.Store} {n : Nat} {f : I.Store → Answer H D}
    {a : Answer H D} (ha : a ≠ .noTable) :
    I.reading ts n f = a ↔ ∃ t, ts[n]? = some t ∧ f t = a := by
  rw [reading]
  rcases ts[n]? with - | t
  · simp [ha.symm]
  · simp

theorem answer_find_iff {calls : List (Call H D)} {n : Nat} {d : D} {h : H} :
    I.answer calls (.find n d) = .found (some h) ↔
      ∃ t, (I.after calls)[n]? = some t ∧ I.find? t d = some h := by
  simp only [answer, step]
  rw [reading_eq_iff (by simp)]
  simp

theorem answer_get_iff {calls : List (Call H D)} {n : Nat} {h : H} {d : D} :
    I.answer calls (.get n h) = .data (some d) ↔
      ∃ t, (I.after calls)[n]? = some t ∧ I.get? t h = some d := by
  simp only [answer, step]
  rw [reading_eq_iff (by simp)]
  simp

theorem answer_contains_iff {calls : List (Call H D)} {n : Nat} {h : H} :
    I.answer calls (.contains n h) = .flag true ↔
      ∃ t, (I.after calls)[n]? = some t ∧ I.contains t h = true := by
  simp only [answer, step]
  rw [reading_eq_iff (by simp)]
  simp

theorem answer_size_iff {calls : List (Call H D)} {n k : Nat} :
    I.answer calls (.size n) = .count k ↔
      ∃ t, (I.after calls)[n]? = some t ∧ I.size t = k := by
  simp only [answer, step]
  rw [reading_eq_iff (by simp)]
  simp

/-- What one more call adds to what was interned. -/
theorem interned_concat {calls : List (Call H D)} {c : Call H D} {n : Nat} {d : D} :
    I.Interned (calls ++ [c]) n d ↔
      I.Interned calls n d ∨ c = .intern n d ∧ ∃ h, I.answer calls (.intern n d) = .handle h := by
  constructor
  · rintro ⟨before, rest, h, heq, ha⟩
    rcases List.eq_nil_or_concat rest with rfl | ⟨rest, c', rfl⟩
    · obtain ⟨rfl, hc⟩ := List.append_inj' heq rfl
      exact Or.inr ⟨List.head_eq_of_cons_eq hc, h, ha⟩
    · rw [List.concat_eq_append, ← List.cons_append, ← List.append_assoc] at heq
      exact Or.inl ⟨before, rest, h, (List.append_inj' heq rfl).1, ha⟩
  · rintro (⟨before, rest, h, rfl, ha⟩ | ⟨rfl, h, ha⟩)
    · exact ⟨before, rest ++ [c], h, by simp, ha⟩
    · exact ⟨calls, [], h, rfl, ha⟩

/-! ## Tables over a history -/

namespace Lawful

variable {Holds : Nat → List D → I.Store → Prop} (hI : I.Lawful Holds)
include hI

/-- Interning in one table: it answers the handle under which the table then
finds the datum, and forgets nothing. -/
theorem intern_ok {n : Nat} {ds : List D} {t t' : I.Store} {d : D} {h : H}
    (ht : Holds n ds t) (hi : I.intern t d = (some h, t')) :
    I.find? t' d = some h ∧ (∀ d' h', I.find? t d' = some h' → I.find? t' d' = some h') ∧
      ∀ h' d', I.get? t h' = some d' → I.get? t' h' = some d' := by
  rcases hf : I.find? t d with - | a
  · rcases hI.intern_new ht hf with ⟨hnone, -⟩ | ⟨a, t₁, hsome, -, hfind, hfinds, hgets⟩
    · rw [hnone] at hi
      cases hi
    · obtain ⟨rfl, rfl⟩ : a = h ∧ t₁ = t' := by simpa using hsome.symm.trans hi
      exact ⟨hfind, hfinds, hgets⟩
  · obtain ⟨rfl, rfl⟩ : a = h ∧ t = t' := by simpa using (hI.intern_of_find? ht hf).symm.trans hi
    exact ⟨hf, fun _ _ h => h, fun _ _ h => h⟩

/-- A datum that has been found before is a primitive or among the compounds. -/
theorem find?_isSome_iff {n : Nat} {ds : List D} {t : I.Store} {d : D} (ht : Holds n ds t) :
    (I.find? t d).isSome ↔ (∃ p, d = I.datum p) ∨ d ∈ ds := by
  by_cases hd : ∃ p, d = I.datum p
  · obtain ⟨p, rfl⟩ := hd
    rw [hI.find?_datum ht]
    exact ⟨fun _ => Or.inl ⟨p, rfl⟩, fun _ => rfl⟩
  · have hcompound : I.Compound d := fun p hp => hd ⟨p, hp⟩
    rw [hI.isSome_find? ht hcompound]
    simp [hd]

end Lawful

/-- The table numbered `n` holds what was interned in it. -/
def Tracks (Holds : Nat → List D → I.Store → Prop) (calls : List (Call H D)) (n : Nat)
    (t : I.Store) : Prop :=
  ∃ ds, Holds n ds t ∧ ∀ d, d ∈ ds ↔ I.Interned calls n d ∧ I.Compound d

/-- One table finds and reads all that another one does. -/
def Grows (t t' : I.Store) : Prop :=
  (∀ d h, I.find? t d = some h → I.find? t' d = some h) ∧
    ∀ h d, I.get? t h = some d → I.get? t' h = some d

theorem Grows.refl (t : I.Store) : I.Grows t t := ⟨fun _ _ h => h, fun _ _ h => h⟩

theorem Grows.trans {t t' t'' : I.Store} (h : I.Grows t t') (h' : I.Grows t' t'') :
    I.Grows t t'' :=
  ⟨fun d a ha => h'.1 d a (h.1 d a ha), fun a d ha => h'.2 a d (h.2 a d ha)⟩

/-- A call that interns nothing in a table leaves what was interned there. -/
theorem interned_concat_of_ne {calls : List (Call H D)} {c : Call H D} {n : Nat} {d : D}
    (hc : ∀ d, c ≠ .intern n d) : I.Interned (calls ++ [c]) n d ↔ I.Interned calls n d := by
  rw [interned_concat]
  exact or_iff_left fun h => hc d h.1

theorem Tracks.concat_of_ne {Holds : Nat → List D → I.Store → Prop} {calls : List (Call H D)}
    {c : Call H D} {n : Nat} {t : I.Store} (h : I.Tracks Holds calls n t)
    (hc : ∀ d, c ≠ .intern n d) : I.Tracks Holds (calls ++ [c]) n t := by
  obtain ⟨ds, ht, hmem⟩ := h
  exact ⟨ds, ht, fun d => by rw [hmem, interned_concat_of_ne hc]⟩

theorem length_step (ts : List I.Store) (c : Call H D) :
    ts.length ≤ (I.step ts c).2.length := by
  cases c with
  | newTable => simp [step]
  | intern n d =>
    simp only [step]
    rcases ts[n]? with - | t
    · exact Nat.le_refl _
    · rcases hr : I.intern t d with ⟨- | h, t'⟩ <;> simp [hr]
  | find | get | contains | size => exact Nat.le_refl _

/-- Only tables that are there have anything interned in them. -/
theorem lt_length_of_interned {calls : List (Call H D)} {n : Nat} {d : D}
    (h : I.Interned calls n d) : n < (I.after calls).length := by
  obtain ⟨before, rest, a, rfl, ha⟩ := h
  obtain ⟨t, -, ht, -⟩ := answer_intern_eq_handle_iff.1 ha
  have hn : n < (I.after before).length := (List.getElem?_eq_some_iff.1 ht).1
  rw [after_append]
  generalize (Call.intern n d :: rest) = more
  generalize I.after before = ts at hn
  induction more generalizing ts with
  | nil => exact hn
  | cons c more ih => exact ih _ (Nat.lt_of_lt_of_le hn (length_step ts c))

namespace Lawful

variable {Holds : Nat → List D → I.Store → Prop} (hI : I.Lawful Holds)
include hI

/-- **Interning one datum** in a table that holds what was interned in it. -/
theorem tracks_intern {calls : List (Call H D)} {n : Nat} {t : I.Store}
    (ht : (I.after calls)[n]? = some t) (h : I.Tracks Holds calls n t) (d : D) :
    I.Tracks Holds (calls ++ [.intern n d]) n (I.intern t d).2 ∧ I.Grows t (I.intern t d).2 := by
  obtain ⟨ds, hds, hmem⟩ := h
  have hadds : ∀ d', I.Interned (calls ++ [.intern n d]) n d' ↔
      I.Interned calls n d' ∨ d' = d ∧ (I.intern t d).1.isSome := by
    intro d'
    rw [interned_concat, Call.intern.injEq, Option.isSome_iff_exists]
    refine or_congr_right ⟨?_, ?_⟩
    · rintro ⟨⟨-, rfl⟩, a, ha⟩
      obtain ⟨t₁, t', ht₁, hi⟩ := answer_intern_eq_handle_iff.1 ha
      obtain rfl := Option.some.inj (ht.symm.trans ht₁)
      exact ⟨rfl, a, by rw [hi]⟩
    · rintro ⟨rfl, a, ha⟩
      exact ⟨⟨rfl, rfl⟩, a, answer_intern_eq_handle_iff.2 ⟨t, _, ht, Prod.ext ha rfl⟩⟩
  rcases hf : I.find? t d with - | a
  · -- a datum that is not found is a compound that was not interned before
    have hnone : ¬ (I.find? t d).isSome := by rw [hf]; exact Bool.false_ne_true
    rw [hI.find?_isSome_iff hds, not_or, not_exists] at hnone
    rcases hI.intern_new hds hf with ⟨hfull, -⟩ | ⟨a, t', hi, hds', hfind, hfinds, hgets⟩
    · rw [hfull] at hadds ⊢
      exact ⟨⟨ds, hds, fun d' => by rw [hadds, hmem]; simp⟩, .refl t⟩
    · rw [hi] at hadds ⊢
      refine ⟨⟨ds ++ [d], hds', fun d' => ?_⟩, hfinds, hgets⟩
      rw [hadds, List.mem_append, hmem, List.mem_singleton]
      constructor
      · rintro (⟨h, hc⟩ | rfl)
        · exact ⟨Or.inl h, hc⟩
        · exact ⟨Or.inr ⟨rfl, rfl⟩, hnone.1⟩
      · rintro ⟨h | ⟨rfl, -⟩, hc⟩
        · exact Or.inl ⟨h, hc⟩
        · exact Or.inr rfl
  · -- a datum that is found is interned without any change
    have hi := hI.intern_of_find? hds hf
    rw [hi] at hadds ⊢
    refine ⟨⟨ds, hds, fun d' => ?_⟩, .refl t⟩
    rw [hadds, hmem]
    constructor
    · exact fun h => ⟨Or.inl h.1, h.2⟩
    · rintro ⟨h | ⟨rfl, -⟩, hc⟩
      · exact ⟨h, hc⟩
      · have hsome : (I.find? t d').isSome := by rw [hf]; rfl
        rw [hI.isSome_find? hds hc, hmem] at hsome
        exact hsome

/-- **One call** keeps every table to what was interned in it, and each table
grows. -/
theorem tracks_step {calls : List (Call H D)}
    (h : ∀ n t, (I.after calls)[n]? = some t → I.Tracks Holds calls n t) (c : Call H D) (n : Nat) :
    (∀ t, (I.after (calls ++ [c]))[n]? = some t → I.Tracks Holds (calls ++ [c]) n t) ∧
      ∀ t, (I.after calls)[n]? = some t →
        ∃ t', (I.after (calls ++ [c]))[n]? = some t' ∧ I.Grows t t' := by
  rw [after_concat]
  cases c with
  | newTable =>
    refine ⟨fun t ht => ?_, fun t ht => ⟨t, ?_, .refl t⟩⟩
    · simp only [step] at ht
      rcases Nat.lt_trichotomy n (I.after calls).length with hn | rfl | hn
      · rw [List.getElem?_append_left hn] at ht
        exact (h n t ht).concat_of_ne (by simp)
      · rw [List.getElem?_concat_length] at ht
        obtain rfl := Option.some.inj ht
        refine ⟨[], hI.empty _, fun d => ?_⟩
        rw [interned_concat_of_ne (by simp)]
        simp only [List.not_mem_nil, false_iff, not_and]
        exact fun hd => absurd (lt_length_of_interned hd) (Nat.lt_irrefl _)
      · rw [List.getElem?_eq_none (by rw [List.length_append]; exact hn)] at ht
        cases ht
    · have hn := (List.getElem?_eq_some_iff.1 ht).1
      simp only [step]
      rw [List.getElem?_append_left hn, ht]
  | intern m d =>
    rcases hm : (I.after calls)[m]? with - | t₁
    · have hstep : (I.step (I.after calls) (.intern m d)).2 = I.after calls := by
        simp only [step, hm]
      rw [hstep]
      refine ⟨fun t ht => (h n t ht).concat_of_ne ?_, fun t ht => ⟨t, ht, .refl t⟩⟩
      rintro _ ⟨⟩
      rw [hm] at ht
      cases ht
    · rw [step_intern hm]
      obtain ⟨htracks, hgrows⟩ := hI.tracks_intern hm (h m t₁ hm) d
      by_cases hn : m = n
      · subst hn
        have hlt := (List.getElem?_eq_some_iff.1 hm).1
        rw [List.getElem?_set_self hlt]
        refine ⟨fun t ht => Option.some.inj ht ▸ htracks, fun t ht => ⟨_, rfl, ?_⟩⟩
        obtain rfl := Option.some.inj (hm.symm.trans ht)
        exact hgrows
      · rw [List.getElem?_set_ne hn]
        refine ⟨fun t ht => (h n t ht).concat_of_ne ?_, fun t ht => ⟨t, ht, .refl t⟩⟩
        rintro _ ⟨⟩
        exact hn rfl
  | find | get | contains | size =>
    exact ⟨fun t ht => (h n t ht).concat_of_ne (by simp), fun t ht => ⟨t, ht, .refl t⟩⟩

/-- **Every table holds what was interned in it**, after any calls. -/
theorem tracks_after (calls : List (Call H D)) (n : Nat) (t : I.Store)
    (ht : (I.after calls)[n]? = some t) : I.Tracks Holds calls n t := by
  induction calls using List.reverseRecOn generalizing n t with
  | nil => cases ht
  | append_singleton calls c ih => exact (hI.tracks_step ih c n).1 t ht

/-- **Tables forget nothing** over any further calls. -/
theorem grows_after {calls : List (Call H D)} (more : List (Call H D)) {n : Nat} {t : I.Store}
    (ht : (I.after calls)[n]? = some t) :
    ∃ t', (I.after (calls ++ more))[n]? = some t' ∧ I.Grows t t' := by
  induction more using List.reverseRecOn with
  | nil =>
    rw [List.append_nil]
    exact ⟨t, ht, .refl t⟩
  | append_singleton more c ih =>
    obtain ⟨t₁, ht₁, hgrows₁⟩ := ih
    obtain ⟨t₂, ht₂, hgrows₂⟩ := (hI.tracks_step (hI.tracks_after _) c n).2 t₁ ht₁
    rw [List.append_assoc] at ht₂
    exact ⟨t₂, ht₂, hgrows₁.trans hgrows₂⟩

/-- **What was interned is found later**, under the handle that it got. -/
theorem find?_of_intern {calls : List (Call H D)} (more : List (Call H D)) {n : Nat} {d : D} {h : H}
    (hd : I.answer calls (.intern n d) = .handle h) :
    ∃ ds t, (I.after (calls ++ .intern n d :: more))[n]? = some t ∧ Holds n ds t ∧
      I.find? t d = some h := by
  obtain ⟨t, t', ht, hi⟩ := answer_intern_eq_handle_iff.1 hd
  obtain ⟨ds, hds, -⟩ := hI.tracks_after calls n t ht
  have hfind : I.find? t' d = some h := (hI.intern_ok hds hi).1
  have ht' : (I.after (calls ++ [.intern n d]))[n]? = some t' := by
    have hlt := (List.getElem?_eq_some_iff.1 ht).1
    rw [after_concat, step_intern ht, hi, List.getElem?_set_self hlt]
  obtain ⟨t₁, ht₁, hgrows⟩ := hI.grows_after more ht'
  rw [List.append_assoc] at ht₁
  obtain ⟨ds₁, hds₁, -⟩ := hI.tracks_after _ n t₁ ht₁
  exact ⟨ds₁, t₁, ht₁, hds₁, hgrows.1 d h hfind⟩

/-- Two tables find one handle only where it is a primitive. -/
theorem primitive_of_find? {n m : Nat} {ds ds' : List D} {t t' : I.Store} {d d' : D} {h : H}
    (ht : Holds n ds t) (ht' : Holds m ds' t') (hnm : n ≠ m) (hd : I.get? t h = some d)
    (hd' : I.find? t' d' = some h) : ∃ p, h = I.primitive p := by
  by_cases hc : I.Compound d'
  · rw [hI.get?_apart ht ht' hnm hc hd'] at hd
    cases hd
  · obtain ⟨p, rfl⟩ : ∃ p, d' = I.datum p := by simpa [Compound] using hc
    rw [hI.find?_datum ht'] at hd'
    exact ⟨p, (Option.some.inj hd').symm⟩

/-- **What an issued handle reads as is found under that handle.** -/
theorem find?_of_get? {calls : List (Call H D)} {n : Nat} {t : I.Store} {h : H} {d : D}
    (ht : (I.after calls)[n]? = some t) (hh : I.Issued calls h) (hd : I.get? t h = some d) :
    I.find? t d = some h := by
  obtain ⟨ds, hds, -⟩ := hI.tracks_after calls n t ht
  have hprimitive : (∃ p, h = I.primitive p) → I.find? t d = some h := by
    rintro ⟨p, rfl⟩
    have hp := hI.find?_datum hds p
    rw [hI.get?_of_find? hds hp] at hd
    exact Option.some.inj hd ▸ hp
  rcases hh with hp | hloose | ⟨before, m, d', rest, rfl, ha⟩
  · exact hprimitive hp
  · rw [hI.get?_loose hds hloose] at hd
    cases hd
  · obtain ⟨ds', t', ht', hds', hfind⟩ := hI.find?_of_intern rest ha
    by_cases hnm : n = m
    · subst hnm
      obtain rfl := Option.some.inj (ht.symm.trans ht')
      rw [hI.get?_of_find? hds hfind] at hd
      exact Option.some.inj hd ▸ hfind
    · exact hprimitive (hI.primitive_of_find? hds hds' hnm hd hfind)

/-- A datum that a table finds is interned without any change. -/
theorem answer_intern_of_find? {calls : List (Call H D)} {n : Nat} {t : I.Store} {d : D} {h : H}
    (ht : (I.after calls)[n]? = some t) (hf : I.find? t d = some h) :
    I.answer calls (.intern n d) = .handle h ∧ I.after (calls ++ [.intern n d]) = I.after calls := by
  obtain ⟨ds, hds, -⟩ := hI.tracks_after calls n t ht
  have hi := hI.intern_of_find? hds hf
  refine ⟨answer_intern_eq_handle_iff.2 ⟨t, t, ht, hi⟩, ?_⟩
  obtain ⟨hlt, hget⟩ := List.getElem?_eq_some_iff.1 ht
  rw [after_concat, step_intern ht, hi, ← hget, List.set_getElem_self hlt]

/-- **Lawful tables are faithful.** -/
theorem faithful : I.Faithful where
  intern_answers calls n k d hsize hk := by
    obtain ⟨t, ht, rfl⟩ := answer_size_iff.1 hsize
    obtain ⟨ds, hds, -⟩ := hI.tracks_after calls n t ht
    rcases hf : I.find? t d with - | h
    · rcases hI.intern_new hds hf with ⟨-, hfull⟩ | ⟨h, t', hi, -⟩
      · exact absurd hk (Nat.not_lt_of_le hfull)
      · exact ⟨h, answer_intern_eq_handle_iff.2 ⟨t, t', ht, hi⟩⟩
    · exact ⟨h, (hI.answer_intern_of_find? ht hf).1⟩
  get_intern calls n d h hd := by
    obtain ⟨ds, t, ht, hds, hfind⟩ := hI.find?_of_intern [] hd
    exact answer_get_iff.2 ⟨t, ht, hI.get?_of_find? hds hfind⟩
  intern_eq_iff calls more n d d' h h' hd hd' := by
    obtain ⟨ds, t, ht, hds, hfind⟩ := hI.find?_of_intern more hd
    obtain ⟨t₁, t', ht₁, hi'⟩ := answer_intern_eq_handle_iff.1 hd'
    obtain rfl := Option.some.inj (ht.symm.trans ht₁)
    constructor
    · rintro rfl
      -- both data are found under the handle once the second is interned
      have hd₁ : I.get? t' h = some d' := by
        obtain ⟨ds', t₂, ht₂, hds', hfind'⟩ := hI.find?_of_intern [] hd'
        have hlt := (List.getElem?_eq_some_iff.1 ht).1
        rw [after_concat, step_intern ht, hi', List.getElem?_set_self hlt] at ht₂
        obtain rfl := Option.some.inj ht₂
        exact hI.get?_of_find? hds' hfind'
      have hd₂ := (hI.intern_ok hds hi').2.2 h d (hI.get?_of_find? hds hfind)
      exact Option.some.inj (hd₂.symm.trans hd₁)
    · rintro rfl
      have hi := hI.intern_of_find? hds hfind
      exact Option.some.inj (Prod.ext_iff.1 (hi.symm.trans hi')).1
  intern_get calls n h hh hknown := by
    obtain ⟨t, ht, hc⟩ := answer_contains_iff.1 hknown
    obtain ⟨ds, hds, -⟩ := hI.tracks_after calls n t ht
    rw [hI.contains hds, Option.isSome_iff_exists] at hc
    obtain ⟨d, hd⟩ := hc
    have hfind := hI.find?_of_get? ht hh hd
    exact ⟨d, answer_get_iff.2 ⟨t, ht, hd⟩, hI.answer_intern_of_find? ht hfind⟩
  get_append calls more n h d hd := by
    obtain ⟨t, ht, hget⟩ := answer_get_iff.1 hd
    obtain ⟨t', ht', hgrows⟩ := hI.grows_after more ht
    exact answer_get_iff.2 ⟨t', ht', hgrows.2 h d hget⟩
  contains_iff calls n h := by
    rw [answer_contains_iff]
    simp only [answer_get_iff]
    constructor
    · rintro ⟨t, ht, hc⟩
      obtain ⟨ds, hds, -⟩ := hI.tracks_after calls n t ht
      rw [hI.contains hds, Option.isSome_iff_exists] at hc
      obtain ⟨d, hd⟩ := hc
      exact ⟨d, t, ht, hd⟩
    · rintro ⟨d, t, ht, hd⟩
      obtain ⟨ds, hds, -⟩ := hI.tracks_after calls n t ht
      refine ⟨t, ht, ?_⟩
      rw [hI.contains hds, hd]
      rfl
  find_iff calls n d h := by
    rw [answer_find_iff]
    constructor
    · rintro ⟨t, ht, hf⟩
      obtain ⟨ds, hds, hmem⟩ := hI.tracks_after calls n t ht
      have hsome : (I.find? t d).isSome := by rw [hf]; rfl
      rw [hI.find?_isSome_iff hds, hmem] at hsome
      exact ⟨hsome.imp_right And.left, (hI.answer_intern_of_find? ht hf).1⟩
    · rintro ⟨hd, ha⟩
      obtain ⟨t, t', ht, hi⟩ := answer_intern_eq_handle_iff.1 ha
      obtain ⟨ds, hds, hmem⟩ := hI.tracks_after calls n t ht
      have hsome : (I.find? t d).isSome := by
        rw [hI.find?_isSome_iff hds, hmem]
        by_cases hc : I.Compound d
        · exact hd.imp_right fun h => ⟨h, hc⟩
        · exact Or.inl (by simpa [Compound] using hc)
      obtain ⟨a, ha⟩ := Option.isSome_iff_exists.1 hsome
      rw [hI.intern_of_find? hds ha] at hi
      cases hi
      exact ⟨t, ht, ha⟩
  after_reads calls c hc := by
    rw [after_concat]
    cases c with
    | newTable | intern => cases hc
    | find | get | contains | size => rfl
  size_eq calls n k hk := by
    obtain ⟨t, ht, rfl⟩ := answer_size_iff.1 hk
    obtain ⟨ds, hds, hmem⟩ := hI.tracks_after calls n t ht
    exact ⟨ds, hI.nodup hds, hmem, hI.size hds⟩
  intern_apart calls calls' n m d d' h hnm hd hd' := by
    obtain ⟨ds, t, -, hds, hfind⟩ := hI.find?_of_intern [] hd
    obtain ⟨ds', t', -, hds', hfind'⟩ := hI.find?_of_intern [] hd'
    exact hI.primitive_of_find? hds hds' hnm (hI.get?_of_find? hds hfind) hfind'

end Lawful

end Interner

end DeviceTypes
