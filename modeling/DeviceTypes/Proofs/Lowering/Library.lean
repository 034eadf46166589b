import DeviceTypes.Lowering.Session
import DeviceTypes.Proofs.Tree.Accepted
/-!
# What a source type is meant to become

A library is a catalogue with rules of the two common kinds, each under
some key. It says of every source type by which plan it is lowered: the
rule in charge of the type takes it over or leaves it to the built-in
mapping. Following the plans all the way down gives the tree that a type
is meant to become, if it has one (`Intends`). A type that contains itself
has none.
-/

namespace DeviceTypes.Lowering

open Source (Catalog Field TypeId)

/-- A rule that lowers from declared fields, or from a list of its own. -/
inductive Form where
  | declared (serial : Nat) (key : Key) (policy : Policy)
  | listed (serial : Nat) (target : TypeId) (fields : List Field) (policy : Policy)

namespace Form

/-- The rule of the form. -/
def rule : Form → Rule
  | declared serial key policy => .declared serial key policy
  | listed serial target fields policy => .listed serial target fields policy

/-- The fields and the policy by which the rule takes over a type. -/
def claim? (catalog : Catalog) (i : TypeId) : Form → Option (List Field × Policy)
  | declared _ key policy =>
    if key.matches? catalog i then (catalog.composite? i).map fun c => (c.fields, policy)
    else none
  | listed _ target fields policy => if i = target then some (fields, policy) else none

/-- **A rule assembles what it claims** and declines the rest. -/
theorem body_rule (catalog : Catalog) (i : TypeId) (form : Form) :
    form.rule.body catalog i =
      match form.claim? catalog i with
      | some (fields, policy) => some <$> assemble catalog i fields policy
      | none => pure none := by
  cases form with
  | declared serial key policy =>
    change Rule.Body.declared key policy catalog i = _
    rw [Rule.Body.declared, claim?]
    split
    · cases catalog.composite? i <;> rfl
    · rfl
  | listed serial target fields policy =>
    change Rule.Body.listed target fields policy catalog i = _
    rw [Rule.Body.listed, claim?]
    split <;> rfl

end Form

/-- How a source type is lowered, one level down. -/
inductive Plan where
  | primitive (p : Primitive)
  | pointer (element : TypeId)
  | array (element : TypeId) (length : UInt64)
  | aggregate (fields : List Field) (policy : Policy)
  /-- Nothing lowers the type. -/
  | unsupported

namespace Plan

/-- The source types that a plan asks for, in order. -/
def deps : Plan → List TypeId
  | primitive _ | unsupported => []
  | pointer element | array element _ => [element]
  | aggregate fields _ => fields.map Field.type

/-- The plan of the built-in mapping. -/
def builtIn (catalog : Catalog) (i : TypeId) : Plan :=
  match catalog.get? i with
  | some (.scalar s) => .primitive s.primitive
  | some (.pointer element) => .pointer element
  | some (.array element length) => .array element length
  | some (.composite c) => .aggregate c.fields {}
  | some (.external _) | none => .unsupported

end Plan

/-- A catalogue with rules for some of its types. -/
structure Library where
  catalog : Catalog
  /-- The rules by key. -/
  entries : List (Key × Form)

namespace Library

/-- The setting of a session that lowers by the library. -/
def setting (L : Library) : Setting :=
  ⟨L.catalog, ⟨L.entries.map fun e => (e.1, e.2.rule)⟩⟩

/-- The rule in charge of a type: its own, or else that of its family. -/
def formFor? (L : Library) (i : TypeId) : Option Form :=
  L.entries.lookup (.exact i) <|>
    (L.catalog.family? i).bind fun name => L.entries.lookup (.family name)

/-- **The plan of a type**: what the rule in charge of it claims, or else the
built-in mapping. -/
def plan (L : Library) (i : TypeId) : Plan :=
  match (L.formFor? i).bind (Form.claim? L.catalog i) with
  | some (fields, policy) => .aggregate fields policy
  | none => .builtIn L.catalog i

/-- The source types that the plan of a type asks for. -/
def deps (L : Library) (i : TypeId) : List TypeId := (L.plan i).deps

theorem lookup_map {α β γ : Type} [BEq α] (f : β → γ) (entries : List (α × β)) (a : α) :
    (entries.map fun e => (e.1, f e.2)).lookup a = (entries.lookup a).map f := by
  induction entries with
  | nil => rfl
  | cons e rest ih =>
    rw [List.map_cons, List.lookup_cons, List.lookup_cons]
    cases a == e.1 with
    | true => rfl
    | false => exact ih

/-- What is in charge of a type is among the entries, under the type itself or under
its family. -/
theorem exists_mem_of_lookup {α : Type} {entries : List (Key × α)} {catalog : Catalog} {i : TypeId}
    {a : α} (h : (entries.lookup (.exact i) <|>
      (catalog.family? i).bind fun name => entries.lookup (.family name)) = some a) :
    ∃ e ∈ entries, e.2 = a := by
  have hlookup : ∀ key, entries.lookup key = some a → ∃ e ∈ entries, e.2 = a := by
    intro key hkey
    obtain ⟨before, after, hentries, -⟩ := List.lookup_eq_some_iff.1 hkey
    exact ⟨(key, a), by rw [hentries]; simp, rfl⟩
  rcases hexact : entries.lookup (.exact i) with - | a'
  · rw [hexact] at h
    obtain ⟨name, -, hname⟩ := Option.bind_eq_some_iff.1 h
    exact hlookup _ hname
  · rw [hexact] at h
    exact hlookup _ (hexact.trans h)

theorem ruleFor?_setting (L : Library) (i : TypeId) :
    L.setting.registry.ruleFor? L.setting.catalog i = (L.formFor? i).map Form.rule := by
  change ((L.entries.map fun e => (e.1, e.2.rule)).lookup (.exact i) <|>
    (L.catalog.family? i).bind fun name =>
      (L.entries.map fun e => (e.1, e.2.rule)).lookup (.family name)) = _
  rw [formFor?]
  simp only [lookup_map]
  cases L.entries.lookup (.exact i) with
  | some form => rfl
  | none =>
    cases L.catalog.family? i with
    | none => rfl
    | some name => rfl

/-- **What a type is meant to become**: the tree that its plan and those of the
types below it describe. -/
inductive Intends (L : Library) : TypeId → Tree → Prop
  | primitive {i : TypeId} {p : Primitive} :
      L.plan i = .primitive p → Intends L i (.primitive p)
  | pointer {i e : TypeId} {T : Tree} :
      L.plan i = .pointer e → Intends L e T → Intends L i (.pointer T .global)
  | array {i e : TypeId} {length : UInt64} {T : Tree} :
      L.plan i = .array e length → Intends L e T → Intends L i (.array T length)
  | aggregate {i : TypeId} {fields : List Field} {policy : Policy}
      {members : List (String × Tree)} :
      L.plan i = .aggregate fields policy →
      members.map Prod.fst = fields.map Field.name →
      (∀ x ∈ fields.zip members, Intends L x.1.type x.2.2) →
      Intends L i (.ofPolicy policy members)

variable {L : Library} {i : TypeId} {T T' : Tree}

theorem members_unique {fields : List Field} {ms ms' : List (String × Tree)}
    {P : TypeId → Tree → Prop} (hnames : ms.map Prod.fst = fields.map Field.name)
    (hnames' : ms'.map Prod.fst = fields.map Field.name)
    (h' : ∀ x ∈ fields.zip ms', P x.1.type x.2.2)
    (h : ∀ x ∈ fields.zip ms, ∀ T', P x.1.type T' → x.2.2 = T') : ms = ms' := by
  induction fields generalizing ms ms' with
  | nil =>
    rw [List.map_eq_nil_iff.1 hnames, List.map_eq_nil_iff.1 hnames']
  | cons f rest ih =>
    obtain ⟨⟨n, T⟩, ms, rfl, hn, hns⟩ := List.map_eq_cons_iff.1 hnames
    obtain ⟨⟨n', T'⟩, ms', rfl, hn', hns'⟩ := List.map_eq_cons_iff.1 hnames'
    rw [List.zip_cons_cons, List.forall_mem_cons] at h h'
    simp only at hn hn'
    have hT : T = T' := h.1 T' h'.1
    rw [hn, hn', hT, ih hns hns' h'.2 h.2]

/-- **A type is meant to become one tree at most.** -/
theorem Intends.functional (h : L.Intends i T) (h' : L.Intends i T') : T = T' := by
  induction h generalizing T' with
  | primitive hp =>
    cases h' with
    | primitive hp' =>
      cases hp.symm.trans hp'
      rfl
    | pointer hp' _ | array hp' _ | aggregate hp' _ _ => cases hp.symm.trans hp'
  | pointer hp _ ih =>
    cases h' with
    | pointer hp' h' =>
      cases hp.symm.trans hp'
      rw [ih h']
    | primitive hp' | array hp' _ | aggregate hp' _ _ => cases hp.symm.trans hp'
  | array hp _ ih =>
    cases h' with
    | array hp' h' =>
      cases hp.symm.trans hp'
      rw [ih h']
    | primitive hp' | pointer hp' _ | aggregate hp' _ _ => cases hp.symm.trans hp'
  | aggregate hp hnames _ ih =>
    cases h' with
    | aggregate hp' hnames' hall' =>
      cases hp.symm.trans hp'
      rw [members_unique hnames hnames' hall' fun x hx T' hT' => ih x hx hT']
    | primitive hp' | pointer hp' _ | array hp' _ => cases hp.symm.trans hp'

theorem length_of_names {fields : List Field} {ms : List (String × Tree)}
    (hnames : ms.map Prod.fst = fields.map Field.name) : fields.length = ms.length := by
  simpa only [List.length_map] using (congrArg List.length hnames).symm

theorem exists_zip_of_mem {fields : List Field} {ms : List (String × Tree)}
    (hnames : ms.map Prod.fst = fields.map Field.name) {f : Field} (hf : f ∈ fields) :
    ∃ m, (f, m) ∈ fields.zip ms := by
  have hmap := List.map_fst_zip (Nat.le_of_eq (length_of_names hnames))
  rw [← hmap] at hf
  obtain ⟨⟨f', m⟩, hx, rfl⟩ := List.mem_map.1 hf
  exact ⟨m, hx⟩

theorem exists_zip_of_mem_right {fields : List Field} {ms : List (String × Tree)}
    (hnames : ms.map Prod.fst = fields.map Field.name) {m : String × Tree} (hm : m ∈ ms) :
    ∃ f, (f, m) ∈ fields.zip ms := by
  have hmap := List.map_snd_zip (Nat.le_of_eq (length_of_names hnames).symm)
  rw [← hmap] at hm
  obtain ⟨⟨f, m'⟩, hx, rfl⟩ := List.mem_map.1 hm
  exact ⟨f, hx⟩

/-- **The types a plan asks for are meant to become smaller trees.** -/
theorem Intends.dep (h : L.Intends i T) {e : TypeId} (he : e ∈ L.deps i) :
    ∃ S, L.Intends e S ∧ sizeOf S < sizeOf T := by
  cases h with
  | primitive hp => simp [deps, hp, Plan.deps] at he
  | @pointer _ e' T hp hT =>
    obtain rfl : e = e' := by simpa [deps, hp, Plan.deps] using he
    exact ⟨T, hT, by simp only [Tree.pointer.sizeOf_spec]; omega⟩
  | @array _ e' length T hp hT =>
    obtain rfl : e = e' := by simpa [deps, hp, Plan.deps] using he
    exact ⟨T, hT, by simp only [Tree.array.sizeOf_spec]; omega⟩
  | @aggregate _ fields policy members hp hnames hall =>
    obtain ⟨f, hf, rfl⟩ : ∃ f ∈ fields, f.type = e := by simpa [deps, hp, Plan.deps] using he
    obtain ⟨⟨name, S⟩, hx⟩ := exists_zip_of_mem hnames hf
    -- `S` is in a pair in the list of members, so it is smaller than the aggregate
    have hlt := List.sizeOf_lt_of_mem (List.of_mem_zip hx).2
    refine ⟨S, hall _ hx, ?_⟩
    simp only [Prod.mk.sizeOf_spec] at hlt
    simp only [Tree.ofPolicy, Tree.aggregate.sizeOf_spec]
    omega

end Library

end DeviceTypes.Lowering
