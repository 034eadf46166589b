import Mathlib.Data.List.Nodup
import Mathlib.Data.List.Perm.Subperm
import DeviceTypes.Proofs.Lowering.Library
/-!
# Lowering without a session

A source type lowered into a tree, with no table to put it in and nothing
kept from one type to the next. All that goes along are the types around
the one at hand, so the outcome is a function of the library and the
target. Sessions are measured against it.

It answers what a type is meant to become, if the target accepts that
(`expandUpTo_sound`), and it answers whenever there is such a tree
(`Intends.expandUpTo`). The types around never stand in the way: if they
are meant to become anything, that is larger than the type at hand
(`Above`). Nor does the depth: types around are all different, and there
are fewer of them than levels.
-/

namespace DeviceTypes.Lowering

open Source (Catalog Field TypeId)

/-- What came of lowering without a session. -/
structure Expansion (α : Type) where
  /-- The types lowered on the way, with their trees, in the order they were done. -/
  finished : List (TypeId × Tree)
  answer : Except Error α

namespace Expansion

variable {α β : Type}

def done (a : α) : Expansion α := ⟨[], .ok a⟩

def fail (e : Error) : Expansion α := ⟨[], .error e⟩

/-- One after the other; a failure ends it. -/
def bind (x : Expansion α) (f : α → Expansion β) : Expansion β :=
  match x.answer with
  | .error e => ⟨x.finished, .error e⟩
  | .ok a => ⟨x.finished ++ (f a).finished, (f a).answer⟩

/-- The same with its failure put in other words. -/
def reword (f : Error → Error) (x : Expansion α) : Expansion α :=
  ⟨x.finished, x.answer.mapError f⟩

/-- The same with the answer, if there is one, counted as that of `i`. -/
def finish (i : TypeId) (x : Expansion Tree) : Expansion Tree :=
  match x.answer with
  | .error e => ⟨x.finished, .error e⟩
  | .ok T => ⟨x.finished ++ [(i, T)], .ok T⟩

variable {x : Expansion α} {f : α → Expansion β} {b : β} {e : TypeId × Tree}

theorem answer_bind_eq_ok :
    (x.bind f).answer = .ok b ↔ ∃ a, x.answer = .ok a ∧ (f a).answer = .ok b := by
  rw [bind]
  cases x.answer <;> simp

theorem bind_of_ok {a : α} (h : x.answer = .ok a) :
    x.bind f = ⟨x.finished ++ (f a).finished, (f a).answer⟩ := by
  rw [bind, h]

theorem bind_of_error {err : Error} (h : x.answer = .error err) :
    x.bind f = ⟨x.finished, .error err⟩ := by
  rw [bind, h]

theorem answer_reword_eq_ok {g : Error → Error} {a : α} :
    (x.reword g).answer = .ok a ↔ x.answer = .ok a := by
  rw [reword]
  cases x.answer <;> simp [Except.mapError]

theorem answer_finish (i : TypeId) (x : Expansion Tree) : (x.finish i).answer = x.answer := by
  rw [finish]
  cases x.answer <;> rfl

theorem mem_finished_finish {i : TypeId} {x : Expansion Tree} :
    e ∈ (x.finish i).finished ↔ e ∈ x.finished ∨ e.1 = i ∧ x.answer = .ok e.2 := by
  rw [finish]
  rcases x.answer with err | T
  · simp
  · obtain ⟨j, S⟩ := e
    simp [eq_comm]

end Expansion

namespace Library

variable (L : Library) (target : Target)

/-- A tree whose parts are done, if the target admits it. -/
def admitted (i : TypeId) (T : Tree) : Expansion Tree :=
  match T.verdict target with
  | .ok () => .done T
  | .error r => .fail (.rejected (L.catalog.nameOf i) r)

/-- The members that `fields` of `owner` are meant to become, in order. -/
def expandMembers (nested : TypeId → Expansion Tree) (owner : TypeId) :
    List Field → Expansion (List (String × Tree))
  | [] => .done []
  | f :: rest =>
    ((nested f.type).reword (.field (L.catalog.nameOf owner) f.name)).bind fun T =>
      (expandMembers nested owner rest).bind fun ms => .done ((f.name, T) :: ms)

/-- The aggregate of `owner` with the given fields under a policy. -/
def expandAssembly (nested : TypeId → Expansion Tree) (owner : TypeId) (fields : List Field)
    (policy : Policy) : Expansion Tree :=
  (L.expandMembers nested owner fields).bind fun ms =>
    L.admitted target owner (.ofPolicy policy ms)

/-- A type by its plan, given how the types it asks for come out. -/
def expandPlan (nested : TypeId → Expansion Tree) (i : TypeId) : Plan → Expansion Tree
  | .primitive p => .done (.primitive p)
  | .pointer e => (nested e).bind fun T => L.admitted target i (.pointer T .global)
  | .array e length => (nested e).bind fun T => L.admitted target i (.array T length)
  | .aggregate fields policy => L.expandAssembly target nested i fields policy
  | .unsupported => .fail (.unsupported (L.catalog.nameOf i))

/-- A type inside the types `around` it, going down at most so many levels. -/
def expandUpTo : Nat → List TypeId → TypeId → Expansion Tree
  | 0, _, i => .fail (.recursive (L.catalog.nameOf i))
  | depth + 1, around, i =>
    if i ∈ around then .fail (.recursive (L.catalog.nameOf i))
    else (L.expandPlan target (expandUpTo depth (i :: around)) i (L.plan i)).finish i

/-- The tree is what the type is meant to become, and the target accepts it. -/
def Meets (i : TypeId) (T : Tree) : Prop := L.Intends i T ∧ T.Accepted target

variable {L target} {nested : TypeId → Expansion Tree} {i : TypeId} {T : Tree}

section Admitted

variable {α : Type} {x : Expansion α} {g : α → Tree}

theorem finished_bind_admitted :
    (x.bind fun a => L.admitted target i (g a)).finished = x.finished := by
  have hadmitted : ∀ S, (L.admitted target i S).finished = [] := by
    intro S
    rw [admitted]
    rcases S.verdict target with r | ⟨⟩ <;> rfl
  rcases ha : x.answer with err | a
  · rw [Expansion.bind_of_error ha]
  · rw [Expansion.bind_of_ok ha]
    simp only [hadmitted, List.append_nil]

theorem answer_bind_admitted_eq_ok :
    (x.bind fun a => L.admitted target i (g a)).answer = .ok T ↔
      ∃ a, x.answer = .ok a ∧ (g a).verdict target = .ok () ∧ g a = T := by
  have hadmitted : ∀ S, (L.admitted target i S).answer = .ok T ↔
      S.verdict target = .ok () ∧ S = T := by
    intro S
    rw [admitted]
    rcases S.verdict target with r | ⟨⟩ <;> simp [Expansion.done, Expansion.fail]
  simp only [Expansion.answer_bind_eq_ok, hadmitted]

end Admitted

theorem finished_expandMembers_cons {owner : TypeId} {f : Field} {rest : List Field}
    (hT : (nested f.type).answer = .ok T) :
    (L.expandMembers nested owner (f :: rest)).finished =
      (nested f.type).finished ++ (L.expandMembers nested owner rest).finished := by
  rw [expandMembers, Expansion.bind_of_ok (Expansion.answer_reword_eq_ok.2 hT)]
  rcases hms : (L.expandMembers nested owner rest).answer with err | ms
  · rw [Expansion.bind_of_error hms]
    rfl
  · rw [Expansion.bind_of_ok hms]
    simp only [Expansion.done, List.append_nil]
    rfl

theorem mem_finished_expandMembers_cons {owner : TypeId} {f : Field} {rest : List Field}
    {e : TypeId × Tree} (he : e ∈ (L.expandMembers nested owner (f :: rest)).finished) :
    e ∈ (nested f.type).finished ∨ e ∈ (L.expandMembers nested owner rest).finished := by
  rcases hT : (nested f.type).answer with err | T
  · have herr : ((nested f.type).reword (.field (L.catalog.nameOf owner) f.name)).answer =
        .error (.field (L.catalog.nameOf owner) f.name err) := by
      rw [Expansion.reword, hT]
      rfl
    rw [expandMembers, Expansion.bind_of_error herr] at he
    exact Or.inl he
  · rw [finished_expandMembers_cons hT] at he
    exact List.mem_append.1 he

theorem expandMembers_cons_eq_ok {owner : TypeId} {f : Field} {rest : List Field}
    {ms : List (String × Tree)} :
    (L.expandMembers nested owner (f :: rest)).answer = .ok ms ↔
      ∃ T ms', (nested f.type).answer = .ok T ∧
        (L.expandMembers nested owner rest).answer = .ok ms' ∧ ms = (f.name, T) :: ms' := by
  simp only [expandMembers, Expansion.answer_bind_eq_ok, Expansion.answer_reword_eq_ok,
    Expansion.done, Except.ok.injEq]
  constructor
  · rintro ⟨T, hT, ms', hms', rfl⟩
    exact ⟨T, ms', hT, hms', rfl⟩
  · rintro ⟨T, ms', hT, hms', rfl⟩
    exact ⟨T, hT, ms', hms', rfl⟩

/-! ## What is finished comes from nested types -/

theorem expandMembers_forall {P : TypeId × Tree → Prop} {owner : TypeId} {fields : List Field}
    (hn : ∀ j ∈ fields.map Field.type, ∀ e ∈ (nested j).finished, P e) :
    ∀ e ∈ (L.expandMembers nested owner fields).finished, P e := by
  induction fields with
  | nil => exact fun e he => absurd he List.not_mem_nil
  | cons f rest ih =>
    intro e he
    rw [List.map_cons, List.forall_mem_cons] at hn
    rcases mem_finished_expandMembers_cons he with he | he
    · exact hn.1 e he
    · exact ih hn.2 e he

theorem expandPlan_forall {P : TypeId × Tree → Prop} {plan : Plan}
    (hn : ∀ j ∈ plan.deps, ∀ e ∈ (nested j).finished, P e) :
    ∀ e ∈ (L.expandPlan target nested i plan).finished, P e := by
  rcases plan with p | j | ⟨j, length⟩ | ⟨fields, policy⟩ | -
  · exact fun e he => absurd he List.not_mem_nil
  · rw [expandPlan, finished_bind_admitted]
    exact hn j (List.mem_singleton.2 rfl)
  · rw [expandPlan, finished_bind_admitted]
    exact hn j (List.mem_singleton.2 rfl)
  · rw [expandPlan, expandAssembly, finished_bind_admitted]
    exact expandMembers_forall hn
  · exact fun e he => absurd he List.not_mem_nil

/-! ## What is finished is right -/

/-- Everything finished meets its type, and an answer for `i` is finished. -/
structure Correct (L : Library) (target : Target) (i : TypeId) (x : Expansion Tree) : Prop where
  meets : ∀ e ∈ x.finished, L.Meets target e.1 e.2
  finished : ∀ T, x.answer = .ok T → (i, T) ∈ x.finished

/-- Members that come out are finished, each under its own type. -/
theorem expandMembers_finished (hn : ∀ e, L.Correct target e (nested e)) {owner : TypeId}
    {fields : List Field} {ms : List (String × Tree)}
    (hms : (L.expandMembers nested owner fields).answer = .ok ms) :
    ms.map Prod.fst = fields.map Field.name ∧
      ∀ x ∈ fields.zip ms, (x.1.type, x.2.2) ∈ (L.expandMembers nested owner fields).finished := by
  induction fields generalizing ms with
  | nil =>
    obtain rfl := Except.ok.inj hms
    exact ⟨rfl, fun x hx => absurd hx List.not_mem_nil⟩
  | cons f rest ih =>
    obtain ⟨T, ms', hT, hms', rfl⟩ := expandMembers_cons_eq_ok.1 hms
    obtain ⟨hnames, hall⟩ := ih hms'
    rw [finished_expandMembers_cons hT, List.zip_cons_cons, List.forall_mem_cons]
    refine ⟨by rw [List.map_cons, List.map_cons, hnames], ?_, fun x hx => ?_⟩
    · exact List.mem_append_left _ ((hn f.type).finished T hT)
    · exact List.mem_append_right _ (hall x hx)

/-- **An answer to a plan** meets the type, and all that the plan asks for is
finished. -/
theorem expandPlan_answer (hn : ∀ e, L.Correct target e (nested e))
    (hT : (L.expandPlan target nested i (L.plan i)).answer = .ok T) :
    L.Meets target i T ∧
      ∀ e ∈ L.deps i, ∃ S, (e, S) ∈ (L.expandPlan target nested i (L.plan i)).finished := by
  rw [deps]
  -- what the plan asks for is finished and accepted; the verdict adds the type itself
  rcases hp : L.plan i with p | e | ⟨e, length⟩ | ⟨fields, policy⟩ | -
  all_goals rw [hp, expandPlan] at hT
  · obtain rfl := Except.ok.inj hT
    exact ⟨⟨.primitive hp, .primitive p⟩, fun e he => absurd he List.not_mem_nil⟩
  · obtain ⟨S, hS, -, rfl⟩ := answer_bind_admitted_eq_ok.1 hT
    have hfin := (hn e).finished S hS
    obtain ⟨hint, hacc⟩ := (hn e).meets _ hfin
    refine ⟨⟨.pointer hp hint, .pointer _ hacc⟩, fun e' he' => ⟨S, ?_⟩⟩
    rw [List.mem_singleton.1 he', expandPlan, finished_bind_admitted]
    exact hfin
  · obtain ⟨S, hS, hverdict, rfl⟩ := answer_bind_admitted_eq_ok.1 hT
    have hfin := (hn e).finished S hS
    obtain ⟨hint, hacc⟩ := (hn e).meets _ hfin
    refine ⟨⟨.array hp hint, (Tree.accepted_array_iff hacc).2 hverdict⟩, fun e' he' => ⟨S, ?_⟩⟩
    rw [List.mem_singleton.1 he', expandPlan, finished_bind_admitted]
    exact hfin
  · obtain ⟨ms, hms, hverdict, rfl⟩ := answer_bind_admitted_eq_ok.1 hT
    obtain ⟨hnames, hfin⟩ := expandMembers_finished hn hms
    have hmeets : ∀ e ∈ (L.expandMembers nested i fields).finished, L.Meets target e.1 e.2 :=
      expandMembers_forall fun j _ => (hn j).meets
    refine ⟨⟨.aggregate hp hnames fun x hx => (hmeets _ (hfin x hx)).1, ?_⟩, fun e he => ?_⟩
    · refine (Tree.accepted_aggregate_iff fun m hm => ?_).2 hverdict
      obtain ⟨f, hx⟩ := exists_zip_of_mem_right hnames hm
      exact (hmeets _ (hfin _ hx)).2
    · obtain ⟨f, hf, rfl⟩ := List.mem_map.1 he
      obtain ⟨m, hx⟩ := exists_zip_of_mem hnames hf
      rw [expandPlan, expandAssembly, finished_bind_admitted]
      exact ⟨m.2, hfin _ hx⟩
  · simp [Expansion.fail] at hT

/-- **Whatever is finished is right**, at any depth and inside any types. -/
theorem expandUpTo_correct (depth : Nat) (around : List TypeId) (i : TypeId) :
    L.Correct target i (L.expandUpTo target depth around i) := by
  induction depth generalizing around i with
  | zero => exact ⟨fun e he => absurd he List.not_mem_nil, fun T hT => by cases hT⟩
  | succ depth ih =>
    rw [expandUpTo]
    split
    · exact ⟨fun e he => absurd he List.not_mem_nil, fun T hT => by cases hT⟩
    · have hn := fun e => ih (i :: around) e
      refine ⟨fun e he => ?_, fun T hT => ?_⟩
      · rcases Expansion.mem_finished_finish.1 he with he | ⟨hei, hans⟩
        · exact expandPlan_forall (fun j _ => (hn j).meets) e he
        · rw [hei]
          exact (expandPlan_answer hn hans).1
      · rw [Expansion.answer_finish] at hT
        exact Expansion.mem_finished_finish.2 (Or.inr ⟨rfl, hT⟩)

/-- An answer is what its type is meant to become, and accepted. -/
theorem expandUpTo_sound {depth : Nat} {around : List TypeId}
    (hT : (L.expandUpTo target depth around i).answer = .ok T) : L.Meets target i T :=
  (L.expandUpTo_correct depth around i).meets _ ((expandUpTo_correct depth around i).finished T hT)

/-! ## What is finished was asked for -/

/-- **Nothing is finished but what the type leads to**: where a property passes
from a type to those its plan asks for, it holds of everything finished. -/
theorem expandUpTo_finished {C : TypeId → Prop} (hC : ∀ j, C j → ∀ e ∈ L.deps j, C e)
    (depth : Nat) (around : List TypeId) (hi : C i) :
    ∀ e ∈ (L.expandUpTo target depth around i).finished, C e.1 := by
  induction depth generalizing around i with
  | zero => exact fun e he => absurd he List.not_mem_nil
  | succ depth ih =>
    intro e he
    rw [expandUpTo] at he
    split at he
    · exact absurd he List.not_mem_nil
    rcases Expansion.mem_finished_finish.1 he with he | ⟨rfl, -⟩
    · exact expandPlan_forall (fun j hj => ih (i :: around) (hC i hi j hj)) e he
    · exact hi

/-! ## What is meant to become something does -/

/-- The types `around` do not stand in the way of `i`: one that is meant to
become a tree contains that of `i`. -/
def Above (L : Library) (around : List TypeId) (i : TypeId) : Prop :=
  ∀ j ∈ around, ∀ S, L.Intends j S → ∃ T, L.Intends i T ∧ sizeOf T < sizeOf S

theorem above_nil (L : Library) (i : TypeId) : L.Above [] i :=
  fun _ hj => absurd hj List.not_mem_nil

variable {around : List TypeId}

theorem Above.fresh (h : L.Above around i) (hT : L.Intends i T) : i ∉ around := by
  intro hi
  -- one of the types around would be meant to become a tree larger than itself
  obtain ⟨T', hT', hlt⟩ := h i hi T hT
  rw [hT.functional hT'] at hlt
  exact Nat.lt_irrefl _ hlt

/-- Going down one level keeps the types around out of the way. -/
theorem Above.dep (h : L.Above around i) {e : TypeId} (he : e ∈ L.deps i) :
    L.Above (i :: around) e := by
  intro j hj S hS
  rcases List.mem_cons.1 hj with rfl | hj
  · exact hS.dep he
  · obtain ⟨T, hT, hlt⟩ := h j hj S hS
    obtain ⟨T', hT', hlt'⟩ := hT.dep he
    exact ⟨T', hT', Nat.lt_trans hlt' hlt⟩

/-- There are no more different types than identifiers. -/
theorem length_le_of_nodup (h : around.Nodup) : around.length ≤ UInt32.size := by
  have hinj : Function.Injective TypeId.index := by
    intro i j hij
    rw [← TypeId.ofIndex_index i, hij, TypeId.ofIndex_index]
  have hsub : around.map TypeId.index ⊆ List.range UInt32.size := by
    intro n hn
    obtain ⟨i, -, rfl⟩ := List.mem_map.1 hn
    exact List.mem_range.2 i.number.toNat_lt
  have hle := (List.subperm_of_subset (List.Nodup.map hinj h) hsub).length_le
  rwa [List.length_map, List.length_range] at hle

theorem expandMembers_answer {owner : TypeId} {fields : List Field} {ms : List (String × Tree)}
    (hnames : ms.map Prod.fst = fields.map Field.name)
    (hall : ∀ x ∈ fields.zip ms, (nested x.1.type).answer = .ok x.2.2) :
    (L.expandMembers nested owner fields).answer = .ok ms := by
  induction fields generalizing ms with
  | nil =>
    rw [List.map_eq_nil_iff.1 hnames]
    rfl
  | cons f rest ih =>
    obtain ⟨⟨n, T⟩, ms, rfl, hn, hns⟩ := List.map_eq_cons_iff.1 hnames
    rw [List.zip_cons_cons, List.forall_mem_cons] at hall
    simp only at hn
    exact expandMembers_cons_eq_ok.2 ⟨T, ms, hall.1, ih hns hall.2, by rw [hn]⟩

/-- **A type that is meant to become an accepted tree does**, as long as there
are levels left for all types not yet around. -/
theorem Intends.expandUpTo {depth : Nat} (hT : L.Intends i T) (hacc : T.Accepted target)
    (habove : L.Above around i) (hnodup : around.Nodup)
    (hdepth : UInt32.size < depth + around.length) :
    (L.expandUpTo target depth around i).answer = .ok T := by
  induction depth generalizing around i T with
  | zero =>
    -- with no level left there would be more types around than there are types
    have := length_le_of_nodup hnodup
    omega
  | succ depth ih =>
    have hfresh := habove.fresh hT
    have hnested : ∀ e ∈ L.deps i, ∀ S, L.Intends e S → S.Accepted target →
        (L.expandUpTo target depth (i :: around) e).answer = .ok S := by
      intro e he S hS hSacc
      refine ih hS hSacc (habove.dep he) (List.nodup_cons.2 ⟨hfresh, hnodup⟩) ?_
      rw [List.length_cons]
      omega
    rw [Library.expandUpTo, if_neg hfresh, Expansion.answer_finish]
    rw [deps] at hnested
    cases hT with
    | primitive hp =>
      rw [hp]
      rfl
    | @pointer _ e S hp hS =>
      rw [hp] at hnested ⊢
      cases hacc with
      | pointer _ hSacc =>
        exact answer_bind_admitted_eq_ok.2
          ⟨S, hnested e (List.mem_singleton.2 rfl) S hS hSacc, rfl, rfl⟩
    | @array _ e length S hp hS =>
      rw [hp] at hnested ⊢
      have hSacc : S.Accepted target := by
        cases hacc
        assumption
      exact answer_bind_admitted_eq_ok.2 ⟨S, hnested e (List.mem_singleton.2 rfl) S hS hSacc,
        (Tree.accepted_array_iff hSacc).1 hacc, rfl⟩
    | @aggregate _ fields policy ms hp hnames hall =>
      rw [hp] at hnested ⊢
      have hms : ∀ m ∈ ms, m.2.Accepted target := by
        cases hacc
        assumption
      refine answer_bind_admitted_eq_ok.2
        ⟨ms, expandMembers_answer hnames fun x hx => ?_,
          (Tree.accepted_aggregate_iff hms).1 hacc, rfl⟩
      obtain ⟨hf, hm⟩ := List.of_mem_zip hx
      exact hnested x.1.type (List.mem_map_of_mem hf) x.2.2 (hall x hx) (hms x.2 hm)

end Library

end DeviceTypes.Lowering
