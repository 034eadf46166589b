import DeviceTypes.Proofs.Source.Catalog
/-!
# Declarations

A program declares its types by calls, with whatever identifiers it has, also
such as name nothing yet. Two things hold of the catalogue after any calls:
the scalars have their places, and a structural descriptor is listed once
(`Proper`). What finding, declaring and defining do follows from these two
alone (`Proper.find?_eq_some_iff`, `Proper.faithful`), as long as there are
identifiers for all entries. What an identifier stands for then never
changes, but for the fields of a composite (`get?_runAll`).
-/

namespace DeviceTypes.Source

/-- A descriptor without the fields that may be given later. -/
def Descriptor.heading : Descriptor → Descriptor
  | composite d => composite { d with fields := [] }
  | d => d

namespace Catalog

/-- A call that a program makes on its catalogue. -/
inductive Call where
  | pointer (element : TypeId)
  | array (element : TypeId) (length : UInt64)
  | composite (name : String) (family : Option String) (fields : List Field)
  | forward (name : String)
  | external (name : String)
  | define (i : TypeId) (fields : List Field)

/-- The answer to a call. -/
inductive Answer where
  | declared (i : TypeId)
  /-- Whether the fields were taken. -/
  | defined (ok : Bool)
  deriving DecidableEq

/-- The descriptor that a call declares. -/
def Call.descriptor? : Call → Option Descriptor
  | pointer element => some (.pointer element)
  | array element length => some (.array element length)
  | composite name family fields => some (.composite ⟨name, family, fields⟩)
  | forward name => some (.composite ⟨name, none, []⟩)
  | external name => some (.external name)
  | define _ _ => none

/-- A declaration as the answer to a call. -/
def declared (r : TypeId × Catalog) : Answer × Catalog := (.declared r.1, r.2)

/-- The answer to a call, and the catalogue after it. -/
def run (c : Catalog) : Call → Answer × Catalog
  | .pointer element => declared (c.pointer element)
  | .array element length => declared (c.array element length)
  | .composite name family fields => declared (c.composite name family fields)
  | .forward name => declared (c.forward name)
  | .external name => declared (c.external name)
  | .define i fields =>
    match c.define? i fields with
    | some c' => (.defined true, c')
    | none => (.defined false, c)

/-- The catalogue after some calls. -/
def runAll (c : Catalog) (calls : List Call) : Catalog :=
  calls.foldl (fun c call => (c.run call).2) c

variable {c : Catalog} {d : Descriptor} {i : TypeId} {call : Call} {fields : List Field}

/-- **All declarations are one operation**, on descriptors of their own. -/
theorem run_of_descriptor? (h : call.descriptor? = some d) :
    c.run call = declared (c.declare d) := by
  cases call <;> cases h <;> rfl

theorem run_define (c : Catalog) (i : TypeId) (fields : List Field) :
    c.run (.define i fields) =
      match c.composite? i with
      | some e => (.defined true, ⟨c.descriptors.set i.index (.composite { e with fields })⟩)
      | none => (.defined false, c) := by
  rw [run, define?]
  cases c.composite? i <;> rfl

/-- What is listed already is declared again as it is; anything else comes last. -/
theorem declare_eq (c : Catalog) (d : Descriptor) :
    c.declare d =
      match c.find? d with
      | some i => (i, c)
      | none => (.ofIndex c.size, ⟨c.descriptors ++ [d]⟩) := rfl

theorem size_le_run (c : Catalog) (call : Call) : c.size ≤ (c.run call).2.size := by
  rcases hd : call.descriptor? with - | d
  · cases call with
    | define i fields =>
      rw [run_define]
      cases c.composite? i with
      | none => exact Nat.le_refl _
      | some e => exact Nat.le_of_eq (List.length_set ..).symm
    | pointer _ | array _ _ | composite _ _ _ | forward _ | external _ => cases hd
  · rw [run_of_descriptor? hd, declared, declare_eq]
    cases c.find? d with
    | some i => exact Nat.le_refl _
    | none =>
      change c.descriptors.length ≤ (c.descriptors ++ [d]).length
      rw [List.length_append]
      exact Nat.le_add_right _ _

theorem size_le_runAll (c : Catalog) (calls : List Call) : c.size ≤ (c.runAll calls).size := by
  induction calls generalizing c with
  | nil => exact Nat.le_refl _
  | cons call rest ih => exact Nat.le_trans (c.size_le_run call) (ih _)

/-! ## What an identifier stands for -/

/-- Defining a composite changes what its own identifier stands for. -/
theorem get?_set {e : Composite} (h : c.composite? i = some e) (d : Descriptor) (j : TypeId) :
    get? ⟨c.descriptors.set i.index d⟩ j = if j = i then some d else c.get? j := by
  have hlt : i.index < c.descriptors.length :=
    (List.getElem?_eq_some_iff.1 (get?_of_composite? h)).1
  rw [get?, List.getElem?_set]
  by_cases hij : i.index = j.index
  · rw [if_pos hij, if_pos hlt, if_pos (TypeId.index_injective hij).symm]
  · rw [if_neg hij, if_neg fun hji => hij (congrArg TypeId.index hji.symm), get?]

/-- **One call leaves every identifier its meaning**, but for the fields of the
composite that it defines. -/
theorem get?_run (hd : c.get? i = some d) (call : Call) :
    ∃ d', (c.run call).2.get? i = some d' ∧ d'.heading = d.heading ∧
      ((∀ fields, call ≠ .define i fields) → d' = d) := by
  rcases hcall : call.descriptor? with - | new
  · cases call with
    | define j fields =>
      rw [run_define]
      rcases hj : c.composite? j with - | e
      · exact ⟨d, hd, rfl, fun _ => rfl⟩
      simp only [get?_set hj]
      by_cases hij : i = j
      · subst hij
        obtain rfl : d = .composite e := Option.some.inj (hd.symm.trans (get?_of_composite? hj))
        exact ⟨_, if_pos rfl, rfl, fun hne => absurd rfl (hne fields)⟩
      · exact ⟨d, (if_neg hij).trans hd, rfl, fun _ => rfl⟩
    | pointer _ | array _ _ | composite _ _ _ | forward _ | external _ => cases hcall
  · refine ⟨d, ?_, rfl, fun _ => rfl⟩
    rw [run_of_descriptor? hcall, declared, declare_eq]
    cases c.find? new with
    | some j => exact hd
    | none => exact (List.getElem?_append_left (List.getElem?_eq_some_iff.1 hd).1).trans hd

/-- **So does any number of calls.** -/
theorem get?_runAll (hd : c.get? i = some d) (calls : List Call) :
    ∃ d', (c.runAll calls).get? i = some d' ∧ d'.heading = d.heading ∧
      ((∀ fields, .define i fields ∉ calls) → d' = d) := by
  induction calls generalizing c d with
  | nil => exact ⟨d, hd, rfl, fun _ => rfl⟩
  | cons call rest ih =>
    obtain ⟨d₁, hd₁, hheading₁, hsame₁⟩ := get?_run hd call
    obtain ⟨d₂, hd₂, hheading₂, hsame₂⟩ := ih hd₁
    refine ⟨d₂, hd₂, hheading₂.trans hheading₁, fun hno => ?_⟩
    have hcall : ∀ fields, call ≠ .define i fields :=
      fun fields he => hno fields (he ▸ List.mem_cons_self)
    have hrest : ∀ fields, .define i fields ∉ rest :=
      fun fields hm => hno fields (List.mem_cons_of_mem _ hm)
    exact (hsame₂ hrest).trans (hsame₁ hcall)

/-! ## Proper catalogues -/

/-- The scalars have their places, and no structural descriptor is listed twice. -/
structure Proper (c : Catalog) : Prop where
  scalar : ∀ s : Scalar, c.get? s.id = some (.scalar s)
  unique : ∀ (d : Descriptor) (m n : Nat), d.isStructural = true →
    c.descriptors[m]? = some d → c.descriptors[n]? = some d → m = n

theorem proper_scalars : scalars.Proper where
  scalar s := by cases s <;> rfl
  unique d m n _ hm hn := by
    have hnodup : (Scalar.all.map Descriptor.scalar).Nodup := by decide
    exact (List.getElem?_inj (List.getElem?_eq_some_iff.1 hm).1 hnodup).1 (hm.trans hn.symm)

/-- A descriptor is not found when it is not structural or not listed. -/
theorem find?_eq_none_iff : c.find? d = none ↔ (d.isStructural = true → d ∉ c.descriptors) := by
  rw [find?]
  split <;> simp_all

/-- With one more at its end a list has that one there and the old ones elsewhere. -/
theorem getElem?_concat (l : List Descriptor) (new : Descriptor) (n : Nat) :
    (l ++ [new])[n]? = if n = l.length then some new else l[n]? := by
  split
  · rename_i hn
    rw [hn, List.getElem?_concat_length]
  · rename_i hn
    rcases Nat.lt_or_gt_of_ne hn with hlt | hgt
    · exact List.getElem?_append_left hlt
    · rw [List.getElem?_eq_none (by rw [List.length_append]; exact hgt),
        List.getElem?_eq_none (Nat.le_of_lt hgt)]

/-- Listing what was not found keeps a catalogue proper. -/
theorem Proper.append (hc : c.Proper) (hd : c.find? d = none) :
    Proper ⟨c.descriptors ++ [d]⟩ where
  scalar s :=
    (List.getElem?_append_left (List.getElem?_eq_some_iff.1 (hc.scalar s)).1).trans (hc.scalar s)
  unique e m n he hm hn := by
    have hnew : ∀ k : Nat, c.descriptors[k]? = some e → d ≠ e := by
      rintro k hk rfl
      exact find?_eq_none_iff.1 hd he (List.mem_of_getElem? hk)
    simp only [getElem?_concat] at hm hn
    split at hm <;> split at hn
    · rename_i hm' hn'
      exact hm'.trans hn'.symm
    · exact absurd (Option.some.inj hm) (hnew n hn)
    · exact absurd (Option.some.inj hn) (hnew m hm)
    · exact hc.unique e m n he hm hn

/-- Defining a composite does so too, for no structural descriptor comes or goes. -/
theorem Proper.set (hc : c.Proper) {e e' : Composite} (hi : c.composite? i = some e) :
    Proper ⟨c.descriptors.set i.index (.composite e')⟩ where
  scalar s := by
    have hne : s.id ≠ i := by
      rintro rfl
      have := (hc.scalar s).symm.trans (get?_of_composite? hi)
      cases this
    rw [get?_set hi, if_neg hne, hc.scalar]
  unique d m n hd hm hn := by
    have hold : ∀ k : Nat, (c.descriptors.set i.index (.composite e'))[k]? = some d →
        c.descriptors[k]? = some d := by
      intro k hk
      rw [List.getElem?_set] at hk
      split at hk
      · split at hk
        · obtain rfl := Option.some.inj hk
          cases hd
        · cases hk
      · exact hk
    exact hc.unique d m n hd (hold m hm) (hold n hn)

/-- **A call keeps a catalogue proper.** -/
theorem Proper.run (hc : c.Proper) (call : Call) : (c.run call).2.Proper := by
  rcases hcall : call.descriptor? with - | d
  · cases call with
    | define i fields =>
      rw [run_define]
      rcases hi : c.composite? i with - | e
      · exact hc
      · exact hc.set hi
    | pointer _ | array _ _ | composite _ _ _ | forward _ | external _ => cases hcall
  · rw [run_of_descriptor? hcall, declared, declare_eq]
    rcases hd : c.find? d with - | i
    · exact hc.append hd
    · exact hc

/-- **So do any calls.** -/
theorem Proper.runAll (hc : c.Proper) (calls : List Call) : (c.runAll calls).Proper := by
  induction calls generalizing c with
  | nil => exact hc
  | cons call rest ih => exact ih (hc.run call)

/-- What comes last stands under the next identifier. -/
theorem get?_append (hsize : c.size < UInt32.size) (d : Descriptor) (j : TypeId) :
    get? ⟨c.descriptors ++ [d]⟩ j = if j = .ofIndex c.size then some d else c.get? j := by
  have hindex : (TypeId.ofIndex c.size).index = c.size := TypeId.index_ofIndex hsize
  rw [get?, getElem?_concat]
  refine if_congr ?_ rfl rfl
  exact ⟨fun hj => TypeId.index_injective (hj.trans hindex.symm), fun hj => hj ▸ hindex⟩

theorem get?_ofIndex_size (hsize : c.size < UInt32.size) : c.get? (.ofIndex c.size) = none := by
  rw [get?, TypeId.index_ofIndex hsize]
  exact List.getElem?_eq_none (Nat.le_refl _)

/-- **Finding is the inverse of reading** on structural descriptors. -/
theorem Proper.find?_eq_some_iff (hc : c.Proper) (hsize : c.size < UInt32.size) :
    c.find? d = some i ↔ d.isStructural = true ∧ c.get? i = some d := by
  rw [find?, Option.ite_none_right_eq_some, Option.some.injEq, and_assoc]
  refine and_congr_right fun hd => ⟨?_, fun hi => ?_⟩
  · rintro ⟨hmem, rfl⟩
    have hlt := List.idxOf_lt_length_of_mem hmem
    rw [get?, TypeId.index_ofIndex (Nat.lt_trans hlt hsize), List.getElem?_eq_getElem hlt,
      List.getElem_idxOf]
  · have hmem := List.mem_of_getElem? hi
    have hlt := List.idxOf_lt_length_of_mem hmem
    have hidx : c.descriptors[c.descriptors.idxOf d]? = some d := by
      rw [List.getElem?_eq_getElem hlt, List.getElem_idxOf]
    rw [hc.unique d _ i.index hd hidx hi, TypeId.ofIndex_index]
    exact ⟨hmem, rfl⟩

/-! ## What a proper catalogue answers -/

/-- Every question and every call to a catalogue is answered as its list says. -/
structure Faithful (c : Catalog) : Prop where
  /-- The scalars are under their own identifiers, and nowhere else. -/
  scalar : ∀ s i, c.get? i = some (.scalar s) ↔ i = s.id
  /-- Structural descriptors have one identifier each. -/
  unique : ∀ d i j, d.isStructural = true → c.get? i = some d → c.get? j = some d → i = j
  /-- A pointer is found where it is listed. -/
  findPointer? : ∀ e i, c.findPointer? e = some i ↔ c.get? i = some (.pointer e)
  /-- What is listed is not listed again. -/
  again : ∀ call d i, call.descriptor? = some d → d.isStructural = true → c.get? i = some d →
    c.run call = (.declared i, c)
  /-- Anything else comes last, under an identifier that stood for nothing. -/
  fresh : ∀ call d, call.descriptor? = some d →
    (d.isStructural = true → ∀ i, c.get? i ≠ some d) →
    ∃ i c', c.run call = (.declared i, c') ∧ i.index = c.size ∧ c.get? i = none ∧
      c'.size = c.size + 1 ∧ ∀ j, c'.get? j = if j = i then some d else c.get? j
  /-- The fields of a composite are taken, and nothing else changes. -/
  defined : ∀ i e fields, c.composite? i = some e →
    ∃ c', c.run (.define i fields) = (.defined true, c') ∧ c'.size = c.size ∧
      ∀ j, c'.get? j = if j = i then some (.composite { e with fields }) else c.get? j
  /-- Fields for anything but a composite are refused. -/
  refused : ∀ i fields, c.composite? i = none → c.run (.define i fields) = (.defined false, c)

/-- **Proper catalogues are faithful.** -/
theorem Proper.faithful (hc : c.Proper) (hsize : c.size < UInt32.size) : c.Faithful where
  scalar s i := by
    refine ⟨fun hi => TypeId.index_injective ?_, fun hi => hi ▸ hc.scalar s⟩
    exact hc.unique (.scalar s) _ _ rfl hi (hc.scalar s)
  unique d i j hd hi hj := TypeId.index_injective (hc.unique d _ _ hd hi hj)
  findPointer? e i := (hc.find?_eq_some_iff hsize).trans (and_iff_right rfl)
  again call d i hcall hd hi := by
    rw [run_of_descriptor? hcall, declared, declare_eq, (hc.find?_eq_some_iff hsize).2 ⟨hd, hi⟩]
  fresh call d hcall hnew := by
    have hnone : c.find? d = none := by
      rw [Option.eq_none_iff_forall_ne_some]
      intro i hi
      obtain ⟨hd, hi⟩ := (hc.find?_eq_some_iff hsize).1 hi
      exact hnew hd i hi
    refine ⟨.ofIndex c.size, ⟨c.descriptors ++ [d]⟩, ?_, TypeId.index_ofIndex hsize,
      get?_ofIndex_size hsize, List.length_append, get?_append hsize d⟩
    rw [run_of_descriptor? hcall, declared, declare_eq, hnone]
  defined i e fields hi := by
    refine ⟨_, by rw [run_define, hi], List.length_set .., get?_set hi _⟩
  refused i fields hi := by rw [run_define, hi]

end Catalog

end DeviceTypes.Source
