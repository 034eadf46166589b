import DeviceTypes.Proofs.Source.Declarations
/-!
# Names that end

A name is written by going down from pointers and arrays to their elements.
Nothing on the way looks for a circle or at the depth, and composites may well
refer to themselves. The descent stops at them, though, and where a program
makes pointers and arrays only of what is listed by then, an element stands
before every pointer to it and every array of it (`Built.descending`). That
defining fields never disturbs, for it touches composites alone.

`Names` is the descent itself, with the types it visits. It ends at every
identifier, visits ever smaller ones, and for a listed type it is the same
whatever calls follow. This is the main statement, `names_end`.
-/

namespace DeviceTypes.Source

namespace Catalog

/-- The descent that writes a name: from `i` it visits `trail`, `i` first, and it
ends with `text`. -/
inductive Names (c : Catalog) : TypeId → List TypeId → String → Prop
  | unknown {i : TypeId} : c.get? i = none → Names c i [i] s!"<unknown {i.number}>"
  | scalar {i : TypeId} {s : Scalar} : c.get? i = some (.scalar s) → Names c i [i] s.name
  | pointer {i e : TypeId} {trail : List TypeId} {text : String} :
      c.get? i = some (.pointer e) → Names c e trail text →
      Names c i (i :: trail) ("deviceptr<" ++ text ++ ">")
  | array {i e : TypeId} {length : UInt64} {trail : List TypeId} {text : String} :
      c.get? i = some (.array e length) → Names c e trail text →
      Names c i (i :: trail) (text ++ s!"[{length}]")
  | composite {i : TypeId} {d : Composite} : c.get? i = some (.composite d) → Names c i [i] d.name
  | external {i : TypeId} {name : String} : c.get? i = some (.external name) → Names c i [i] name

/-- An entry's element, if it has one, stands before the entry. -/
def Descending (c : Catalog) : Prop :=
  ∀ (n : Nat) (d : Descriptor), c.descriptors[n]? = some d →
    ∀ e, d.element? = some e → e.index < n

/-- The element that a call makes a pointer to or an array of. -/
def Call.element? (call : Call) : Option TypeId := call.descriptor?.bind Descriptor.element?

/-- The catalogue is made by calls that pass no element but what is listed by then. -/
inductive Built : Catalog → Prop
  | scalars : Built scalars
  | run {c : Catalog} (call : Call) : Built c →
      (∀ e, call.element? = some e → (c.get? e).isSome) → Built (c.run call).2

variable {c c' : Catalog} {i e : TypeId} {d : Descriptor} {trail : List TypeId} {text : String}

/-! ## Elements come first -/

theorem index_lt_size (h : (c.get? i).isSome) : i.index < c.size := by
  obtain ⟨d, hd⟩ := Option.isSome_iff_exists.1 h
  exact (List.getElem?_eq_some_iff.1 hd).1

theorem isSome_get? (h : i.index < c.size) : (c.get? i).isSome := by
  rw [get?, List.getElem?_eq_getElem h]
  rfl

theorem Descending.index_lt (hc : c.Descending) (hi : c.get? i = some d)
    (he : d.element? = some e) : e.index < i.index :=
  hc i.index d hi e he

theorem Descending.listed (hc : c.Descending) (hi : c.get? i = some d)
    (he : d.element? = some e) : (c.get? e).isSome := by
  have hlt := hc.index_lt hi he
  have hsize := index_lt_size (Option.isSome_of_eq_some hi)
  exact isSome_get? (by omega)

theorem descending_scalars : scalars.Descending := by
  intro n d hd e he
  obtain ⟨s, -, rfl⟩ := List.mem_map.1 (List.mem_of_getElem? hd)
  cases he

/-- What comes last may have any element that is listed. -/
theorem Descending.append (hc : c.Descending)
    (hd : ∀ e, d.element? = some e → (c.get? e).isSome) :
    Descending ⟨c.descriptors ++ [d]⟩ := by
  intro n x hx e he
  rw [getElem?_concat] at hx
  split at hx
  · rename_i hn
    obtain rfl := Option.some.inj hx
    rw [hn]
    exact index_lt_size (hd e he)
  · exact hc n x hx e he

/-- A composite has no element, so its fields may be anything. -/
theorem Descending.set (hc : c.Descending) (n : Nat) (f : Composite) :
    Descending ⟨c.descriptors.set n (.composite f)⟩ := by
  intro m x hx e he
  rw [List.getElem?_set] at hx
  split at hx
  · split at hx
    · obtain rfl := Option.some.inj hx
      cases he
    · cases hx
  · exact hc m x hx e he

/-- **A call keeps elements before what is made of them**, if it passes a listed
one. -/
theorem Descending.run (hc : c.Descending) {call : Call}
    (hcall : ∀ e, call.element? = some e → (c.get? e).isSome) : (c.run call).2.Descending := by
  rcases hd : call.descriptor? with - | d
  · cases call with
    | define i fields =>
      rw [run_define]
      cases c.composite? i with
      | none => exact hc
      | some f => exact hc.set _ _
    | pointer _ | array _ _ | composite _ _ _ | forward _ | external _ => cases hd
  · rw [run_of_descriptor? hd, declared, declare_eq]
    cases c.find? d with
    | some i => exact hc
    | none =>
      refine hc.append fun e he => hcall e ?_
      rw [Call.element?, hd]
      exact he

/-- **So do any such calls.** -/
theorem Built.descending (hc : c.Built) : c.Descending := by
  induction hc with
  | scalars => exact descending_scalars
  | run call _ hcall ih => exact ih.run hcall

/-! ## The descent -/

namespace Names

/-- There is one descent from each type. -/
theorem unique (h : c.Names i trail text) {trail' : List TypeId} {text' : String}
    (h' : c.Names i trail' text') : trail' = trail ∧ text' = text := by
  induction h generalizing trail' text' with
  | unknown hi | scalar hi | composite hi | external hi => cases h' <;> simp_all
  | pointer hi _ ih | array hi _ ih =>
    cases h' with
    | pointer hi' h' | array hi' h' =>
      cases hi.symm.trans hi'
      all_goals
        obtain ⟨rfl, rfl⟩ := ih h'
        exact ⟨rfl, rfl⟩
    | unknown hi' | scalar hi' | composite hi' | external hi' => cases hi.symm.trans hi'

/-- Levels enough for the descent give its text. -/
theorem nameBelow_eq (h : c.Names i trail text) {depth : Nat} (hd : trail.length ≤ depth) :
    c.nameBelow depth i = text := by
  induction h generalizing depth with
  | unknown hi | scalar hi | composite hi | external hi =>
    rw [List.length_singleton] at hd
    obtain ⟨depth, rfl⟩ : ∃ n, depth = n + 1 := ⟨depth - 1, by omega⟩
    rw [nameBelow, hi]
  | pointer hi _ ih | array hi _ ih =>
    rw [List.length_cons] at hd
    obtain ⟨depth, rfl⟩ : ∃ n, depth = n + 1 := ⟨depth - 1, by omega⟩
    simp only [nameBelow, hi, ih (by omega : _ ≤ depth)]

/-- The descent visits no identifier above the one it starts at. -/
theorem index_le (h : c.Names i trail text) (hc : c.Descending) :
    ∀ j ∈ trail, j.index ≤ i.index := by
  induction h with
  | unknown _ | scalar _ | composite _ | external _ =>
    intro j hj
    exact List.mem_singleton.1 hj ▸ Nat.le_refl _
  | pointer hi _ ih | array hi _ ih =>
    intro j hj
    rcases List.mem_cons.1 hj with rfl | hj
    · exact Nat.le_refl _
    · have hlt := hc.index_lt hi rfl
      have hle := ih j hj
      omega

/-- **Each identifier visited is smaller than those before it.** -/
theorem pairwise (h : c.Names i trail text) (hc : c.Descending) :
    trail.Pairwise fun j k => k.index < j.index := by
  induction h with
  | unknown _ | scalar _ | composite _ | external _ => exact List.pairwise_singleton _ _
  | pointer hi hn ih | array hi hn ih =>
    refine List.pairwise_cons.2 ⟨fun k hk => ?_, ih⟩
    have hlt := hc.index_lt hi rfl
    have hle := hn.index_le hc k hk
    omega

/-- So it visits no more than the catalogue has entries, and one. -/
theorem length_le (h : c.Names i trail text) (hc : c.Descending) : trail.length ≤ c.size + 1 := by
  have hbelow : trail.length ≤ i.index + 1 := by
    induction h with
    | unknown _ | scalar _ | composite _ | external _ => exact Nat.le_add_left 1 _
    | pointer hi _ ih | array hi _ ih =>
      have hlt := hc.index_lt hi rfl
      rw [List.length_cons]
      omega
  by_cases hi : (c.get? i).isSome
  · have hlt := index_lt_size hi
    omega
  · rw [Bool.not_eq_true, Option.isSome_eq_false_iff, Option.isNone_iff_eq_none] at hi
    obtain ⟨rfl, -⟩ := (Names.unknown hi).unique h
    exact Nat.le_add_left 1 _

theorem nameOf_eq (h : c.Names i trail text) (hc : c.Descending) : c.nameOf i = text :=
  h.nameBelow_eq (h.length_le hc)

/-- **The descent from a listed type stays as it is** where headings do. -/
theorem of_heading (h : c.Names i trail text) (hc : c.Descending) (hi : (c.get? i).isSome)
    (hsame : ∀ j d, c.get? j = some d → ∃ d', c'.get? j = some d' ∧ d'.heading = d.heading) :
    c'.Names i trail text := by
  induction h with
  | unknown hn =>
    rw [hn] at hi
    cases hi
  | scalar hd =>
    obtain ⟨d', hd', hheading⟩ := hsame _ _ hd
    cases d' <;> cases hheading
    exact .scalar hd'
  | pointer hd _ ih =>
    obtain ⟨d', hd', hheading⟩ := hsame _ _ hd
    cases d' <;> cases hheading
    exact .pointer hd' (ih (hc.listed hd rfl))
  | array hd _ ih =>
    obtain ⟨d', hd', hheading⟩ := hsame _ _ hd
    cases d' <;> cases hheading
    exact .array hd' (ih (hc.listed hd rfl))
  | @composite _ e hd =>
    -- the fields may be others by now, and the name is not made of them
    obtain ⟨d', hd', hheading⟩ := hsame _ _ hd
    cases d' with
    | composite e' =>
      have hname : e'.name = e.name := by
        simp only [Descriptor.heading, Descriptor.composite.injEq, Composite.mk.injEq] at hheading
        exact hheading.1
      exact hname ▸ .composite hd'
    | scalar _ | pointer _ | array _ _ | external _ => cases hheading
  | external hd =>
    obtain ⟨d', hd', hheading⟩ := hsame _ _ hd
    cases d' <;> cases hheading
    exact .external hd'

end Names

/-- **Every descent ends**, each element being listed before what is made of it. -/
theorem Descending.exists_names (hc : c.Descending) (i : TypeId) :
    ∃ trail text, c.Names i trail text := by
  induction hn : i.index using Nat.strongRecOn generalizing i with
  | _ n ih =>
    rcases hd : c.get? i with - | s | e | ⟨e, length⟩ | d | name
    case none => exact ⟨_, _, .unknown hd⟩
    case some.scalar => exact ⟨_, _, .scalar hd⟩
    case some.composite => exact ⟨_, _, .composite hd⟩
    case some.external => exact ⟨_, _, .external hd⟩
    all_goals obtain ⟨trail, text, h⟩ := ih e.index (hn ▸ hc.index_lt hd rfl) e rfl
    case some.pointer => exact ⟨_, _, .pointer hd h⟩
    case some.array => exact ⟨_, _, .array hd h⟩

/-- **Names end, and last.** Of a catalogue made by calls that pass no element but
what is listed by then, while fields may refer to anything:

* the descent that writes a name ends at every identifier, listed or not, and
  each identifier it visits is smaller than those before it;
* what it writes for a listed type is written by the same descent after any
  further calls, of whatever kind and with whatever they pass. -/
theorem names_end (hc : c.Built) (i : TypeId) :
    ∃ trail, (∀ trail' text, c.Names i trail' text ↔ trail' = trail ∧ text = c.nameOf i) ∧
      trail.Pairwise (fun j k => k.index < j.index) ∧
      ((c.get? i).isSome → ∀ calls,
        (c.runAll calls).Names i trail (c.nameOf i) ∧
          (c.runAll calls).nameOf i = c.nameOf i) := by
  have hdesc := hc.descending
  obtain ⟨trail, text, h⟩ := hdesc.exists_names i
  obtain rfl := h.nameOf_eq hdesc
  refine ⟨trail, fun trail' text => ⟨h.unique, ?_⟩, h.pairwise hdesc, fun hi calls => ?_⟩
  · rintro ⟨rfl, rfl⟩
    exact h
  · have hlater : (c.runAll calls).Names i trail (c.nameOf i) := by
      refine h.of_heading hdesc hi fun j d hd => ?_
      obtain ⟨d', hd', hheading, -⟩ := get?_runAll hd calls
      exact ⟨d', hd', hheading⟩
    -- by then elements may be listed late, so the bound is that of the old catalogue
    have hlength : trail.length ≤ (c.runAll calls).size + 1 :=
      Nat.le_trans (h.length_le hdesc) (Nat.succ_le_succ (c.size_le_runAll calls))
    exact ⟨hlater, hlater.nameBelow_eq hlength⟩

/-- An array of pointers to a composite that points to itself: its name goes down
to the composite and is not changed by other fields, nor by a pointer to what is
not listed. -/
theorem names_end_node :
    let calls : List Call := [.forward "Node", .pointer ⟨11⟩, .define ⟨11⟩ [⟨"next", ⟨12⟩⟩],
      .array ⟨12⟩ 3]
    let c := scalars.runAll calls
    c.Built ∧ c.Names ⟨13⟩ [⟨13⟩, ⟨12⟩, ⟨11⟩] "deviceptr<Node>[3]" ∧
      c.nameOf ⟨13⟩ = "deviceptr<Node>[3]" ∧
      (c.runAll [.define ⟨11⟩ [], .pointer ⟨90⟩]).nameOf ⟨13⟩ = "deviceptr<Node>[3]" := by
  intro calls c
  have hc : c.Built := by
    refine (((Built.scalars.run (.forward "Node") ?_).run (.pointer ⟨11⟩) ?_).run
      (.define ⟨11⟩ [⟨"next", ⟨12⟩⟩]) ?_).run (.array ⟨12⟩ 3) ?_
    all_goals
      intro e he
      cases he
    · decide +kernel
    · decide +kernel
  have hname : c.nameOf ⟨13⟩ = "deviceptr<Node>[3]" := by decide +kernel
  obtain ⟨trail, -, -, hlasts⟩ := names_end hc ⟨13⟩
  have hnode : c.Names ⟨11⟩ [⟨11⟩] "Node" :=
    .composite (show c.get? ⟨11⟩ = some (.composite ⟨"Node", none, [⟨"next", ⟨12⟩⟩]⟩) by
      decide +kernel)
  have hpointer : c.get? ⟨12⟩ = some (.pointer ⟨11⟩) := by decide +kernel
  have harray : c.get? ⟨13⟩ = some (.array ⟨12⟩ 3) := by decide +kernel
  refine ⟨hc, .array harray (.pointer hpointer hnode), hname, ?_⟩
  rw [(hlasts (by decide +kernel) _).2, hname]

end Catalog

end DeviceTypes.Source
