import DeviceTypes.Proofs.Lowering.Asking
import DeviceTypes.Proofs.Lowering.Course
import DeviceTypes.Proofs.Lowering.Meaning
import DeviceTypes.Proofs.Source.Catalog
/-!
# How deep lowering nests

A library may have circles in it, through fields that a rule adds as well
as through declared ones. Lowering ends all the same: each type that is
lowered inside another is one that was ahead and is now in progress, so
the types ahead become fewer with every level (`ncard_ahead_lt`). Nothing
is assumed of the session, whatever it keeps and is in the middle of.

That measure bounds two things. No more types are ever asked for and not
yet answered than there are ahead, and one that ends the descent
(`nestsWithin_lowerUpTo`). And levels beyond it are not felt
(`lowerUpTo_eq`), so lowering satisfies its own equation with no limit.

A session that keeps types does not hide a circle either. What leads to
one is meant to become nothing, so it is never lowered
(`Intends.not_transGen`).
-/

namespace DeviceTypes.Lowering

open Source (TypeId)
open Relation (ReflTransGen TransGen)

/-- What a moment adds to the number of types that are asked for and not yet
answered. -/
def Moment.opens : Moment → Int
  | asked .. => 1
  | answered .. => -1
  | ran .. | mapped .. | invoked .. => 0

/-- How many types are asked for in a listing and not answered in it. -/
def nesting : List Moment → Int
  | [] => 0
  | m :: ms => m.opens + nesting ms

@[simp] theorem nesting_nil : nesting [] = 0 := rfl

@[simp] theorem nesting_cons (m : Moment) (ms : List Moment) :
    nesting (m :: ms) = m.opens + nesting ms := rfl

@[simp] theorem nesting_append (ms ms' : List Moment) :
    nesting (ms ++ ms') = nesting ms + nesting ms' := by
  induction ms with
  | nil => exact (Int.zero_add _).symm
  | cons m rest ih => rw [List.cons_append, nesting_cons, nesting_cons, ih, Int.add_assoc]

/-- On the way from `p` to `q` all types asked for are answered, and at no time are
there more than `k` that wait for their answers. -/
structure NestsWithin (k : Nat) (p : Progress) (ms : List Moment) (q : Progress) : Prop where
  resolving_eq : q.resolving = p.resolving
  balanced : nesting ms = 0
  bounded : ∀ before, before <+: ms → nesting before ≤ k

namespace NestsWithin

variable {k k' : Nat} {p q r : Progress} {ms ms' : List Moment} {i : TypeId}

theorem mono (h : NestsWithin k p ms q) (hk : k ≤ k') : NestsWithin k' p ms q :=
  ⟨h.resolving_eq, h.balanced, fun before hb =>
    Int.le_trans (h.bounded before hb) (Int.ofNat_le.2 hk)⟩

theorem still (k : Nat) (hr : q.resolving = p.resolving) : NestsWithin k p [] q := by
  refine ⟨hr, rfl, fun before hb => ?_⟩
  rw [List.prefix_nil.1 hb]
  exact Int.natCast_nonneg k

theorem single (k : Nat) {m : Moment} (hm : m.opens = 0) : NestsWithin k p [m] p := by
  refine ⟨rfl, by simp [hm], fun before hb => ?_⟩
  have hzero : nesting before = 0 := by
    rcases List.prefix_cons_iff.1 hb with rfl | ⟨rest, rfl, hrest⟩
    · rfl
    · rw [List.prefix_nil.1 hrest, nesting_cons, hm]
      rfl
  rw [hzero]
  exact Int.natCast_nonneg k

theorem trans (h : NestsWithin k p ms q) (h' : NestsWithin k q ms' r) :
    NestsWithin k p (ms ++ ms') r where
  resolving_eq := h'.resolving_eq.trans h.resolving_eq
  balanced := by rw [nesting_append, h.balanced, h'.balanced, Int.add_zero]
  bounded before hb := by
    rcases List.prefix_or_prefix_of_prefix hb (List.prefix_append ms ms') with hb' | ⟨rest, rfl⟩
    · exact h.bounded before hb'
    · -- in the second stretch all of the first is answered
      rw [nesting_append, h.balanced, Int.zero_add]
      exact h'.bounded rest ((List.prefix_append_right_inj ms).1 hb)

theorem cumulative (k : Nat) : Cumulative (NestsWithin k) where
  resolving_eq h := h.resolving_eq
  still hr _ := .still k hr
  ran _ _ _ := .single k rfl
  mapped _ _ := .single k rfl
  trans := trans

/-- **A type from its request to its answer** nests by one more than what happens
meanwhile. -/
theorem enclose {p' q' : Progress} (h : NestsWithin k p' ms q') (hr : q.resolving = p.resolving)
    (a : Except Error Handle) (p₀ p₁ q₁ : Progress) :
    NestsWithin (k + 1) p (.asked i p₀ :: (ms ++ [.answered i p₁ a q₁])) q where
  resolving_eq := hr
  balanced := by
    rw [nesting_cons, nesting_append, h.balanced]
    rfl
  bounded before hb := by
    rcases List.prefix_cons_iff.1 hb with rfl | ⟨rest, rfl, hrest⟩
    · exact Int.natCast_nonneg _
    have hinside : nesting rest ≤ k := by
      rcases List.prefix_concat_iff.1 hrest with rfl | hrest
      · -- the answer waits for nothing
        rw [nesting_append, h.balanced, nesting_cons, Moment.opens]
        exact Int.le_trans (by decide) (Int.natCast_nonneg k)
      · exact h.bounded rest hrest
    rw [nesting_cons, Moment.opens, Int.natCast_add]
    omega

end NestsWithin

/-! ## The types ahead -/

namespace Library

variable {L : Library} {i j e : TypeId} {T : Tree} {around ids : List TypeId}

/-- The plan of `i` asks for `j`. -/
def Edge (L : Library) (i j : TypeId) : Prop := j ∈ L.deps i

/-- Going by what plans ask for, `i` leads to `j`. -/
def Reaches (L : Library) : TypeId → TypeId → Prop := ReflTransGen L.Edge

/-- The types that `i` leads to can be listed. -/
theorem exists_reachable (L : Library) (i : TypeId) :
    ∃ ids : List TypeId, ids.Nodup ∧ ∀ j, j ∈ ids ↔ L.Reaches i j := by
  classical
  refine ⟨TypeId.all.filter fun j => L.Reaches i j, TypeId.nodup_all.filter _, fun j => ?_⟩
  rw [List.mem_filter, decide_eq_true_iff]
  exact and_iff_right (TypeId.mem_all j)

/-- How many of the types listed are not in progress. -/
def ahead (ids around : List TypeId) : Nat := (ids.filter (· ∉ around)).length

theorem ahead_le (ids around : List TypeId) : ahead ids around ≤ ids.length :=
  List.length_filter_le _ _

/-- **A level down there are fewer types ahead**: the one at hand is in progress. -/
theorem ahead_cons_lt (hids : i ∈ ids) (hi : i ∉ around) :
    ahead ids (i :: around) < ahead ids around := by
  have hfilter : ids.filter (· ∉ i :: around) = (ids.filter (· ∉ around)).filter (· ≠ i) := by
    rw [List.filter_filter]
    refine List.filter_congr fun j _ => ?_
    simp only [List.mem_cons, not_or, Bool.decide_and]
  rw [ahead, hfilter]
  refine List.length_filter_lt_length_iff_exists.2 ⟨i, List.mem_filter.2 ⟨hids, ?_⟩, ?_⟩
  · exact decide_eq_true hi
  · simp

/-- **At most the types ahead, and one more, wait for their answers at a time**, in
any session. -/
theorem nestsWithin_lowerUpTo (L : Library) (hids : ∀ j ∈ ids, ∀ e ∈ L.deps j, e ∈ ids)
    (depth : Nat) (hi : i ∈ ids) (p : Progress) :
    NestsWithin (ahead ids p.resolving + 1) p (L.setting.momentsUpTo depth i p)
      ((L.setting.lowerUpTo depth i).run p).2 := by
  have hstill : ∀ k, NestsWithin k p [] p := fun k => .still k rfl
  induction depth generalizing i p with
  | zero => exact (hstill _).enclose rfl _ _ _ _
  | succ depth ih =>
    rw [Setting.momentsUpTo, Setting.lowerUpTo_succ, Setting.run_visit]
    rcases hs : (p.record (.requested i)).status i with h | - | - <;> simp only [hs]
    · have hfound : ((p.record (.requested i)).record (.found h)).resolving = p.resolving := rfl
      exact (hstill _).enclose hfound _ _ _ _
    · have hasked : (p.record (.requested i)).resolving = p.resolving := rfl
      exact (hstill _).enclose hasked _ _ _ _
    have hfresh : i ∉ p.resolving := (Progress.of_status_fresh hs).2
    have hnested : ∀ j, j ∈ L.deps i → ∀ q : Progress, q.resolving = i :: p.resolving →
        NestsWithin (ahead ids p.resolving) q (L.setting.momentsUpTo depth j q)
          ((L.setting.lowerUpTo depth j).run q).2 := by
      intro j hj q hq
      refine (ih (hids i hi j hj) q fun k => .still k rfl).mono ?_
      rw [hq]
      exact ahead_cons_lt hi hfresh
    have hanew := (NestsWithin.cumulative _).lowerAnew (L.asks_deps i) hnested
      (p := (p.record (.requested i)).enter i) rfl
    generalize (L.setting.lowerAnew (L.setting.lowerUpTo depth) i).run
      ((p.record (.requested i)).enter i) = r at hanew ⊢
    have hresolving : ((r.2.leave i).keepAnswer i r.1).resolving = p.resolving :=
      Progress.resolving_leave hanew.resolving_eq r.1
    exact hanew.enclose hresolving _ _ _ _

/-- **Levels beyond the types ahead are not felt.** -/
theorem lowerUpTo_eq (L : Library) (hids : ∀ j ∈ ids, ∀ e ∈ L.deps j, e ∈ ids)
    {depth depth' : Nat} (hi : i ∈ ids) {p : Progress} (hdepth : ahead ids p.resolving < depth)
    (hdepth' : ahead ids p.resolving < depth') :
    (L.setting.lowerUpTo depth i).run p = (L.setting.lowerUpTo depth' i).run p := by
  induction depth generalizing i depth' p with
  | zero => exact absurd hdepth (Nat.not_lt_zero _)
  | succ depth ih =>
    obtain ⟨depth', rfl⟩ : ∃ n, depth' = n + 1 := ⟨depth' - 1, by omega⟩
    rw [Setting.lowerUpTo_succ, Setting.lowerUpTo_succ, Setting.run_visit, Setting.run_visit]
    rcases hs : (p.record (.requested i)).status i with h | - | - <;> simp only [hs]
    have hlt : ahead ids (i :: p.resolving) < ahead ids p.resolving :=
      ahead_cons_lt hi (Progress.of_status_fresh hs).2
    have hnested : ∀ j, j ∈ L.deps i → AgreeAt (i :: p.resolving) (L.setting.lowerUpTo depth)
        (L.setting.lowerUpTo depth') j := by
      intro j hj q hq
      have hj' := hids i hi j hj
      refine ⟨ih hj' ?_ ?_, (nestsWithin_lowerUpTo L hids depth hj' q).resolving_eq⟩
      all_goals
        rw [hq]
        omega
    have hanew := Setting.lowerAnew_congr (L.asks_deps i) hnested
      (p := (p.record (.requested i)).enter i) rfl
    rw [hanew]

/-! ## Circles -/

/-- What a type leads to is meant to become something when the type is. -/
theorem Intends.reaches (hT : L.Intends i T) (hj : L.Reaches i j) : ∃ S, L.Intends j S := by
  induction hj with
  | refl => exact ⟨T, hT⟩
  | tail _ he ih =>
    obtain ⟨S, hS⟩ := ih
    obtain ⟨S', hS', -⟩ := hS.dep he
    exact ⟨S', hS'⟩

/-- **What leads to itself is meant to become nothing**: it would contain itself. -/
theorem Intends.not_transGen (hT : L.Intends i T) : ¬ TransGen L.Edge i i := by
  have hsmaller : ∀ j, TransGen L.Edge i j → ∃ S, L.Intends j S ∧ sizeOf S < sizeOf T := by
    intro j hj
    induction hj with
    | single he => exact hT.dep he
    | tail _ he ih =>
      obtain ⟨S, hS, hlt⟩ := ih
      obtain ⟨S', hS', hlt'⟩ := hS.dep he
      exact ⟨S', hS', Nat.lt_trans hlt' hlt⟩
  intro hi
  obtain ⟨S, hS, hlt⟩ := hsmaller i hi
  rw [hS.functional hT] at hlt
  exact Nat.lt_irrefl _ hlt

/-- **A type that leads to a circle is never lowered**, whatever a session keeps. -/
theorem lower_ne_ok_of_circle {target : Target} {p : Progress} (hp : p.Inside L target [])
    (hj : L.Reaches i j) (hcircle : TransGen L.Edge j j) (h : Handle) :
    ((L.setting.lower i).run p).1 ≠ .ok h := by
  intro hok
  have hagrees := (lower_follows hp i).agrees
  rw [hok] at hagrees
  obtain ⟨T, hT, -⟩ := hagrees.of_right
  obtain ⟨S, hS⟩ := (expandUpTo_sound hT).1.reaches hj
  exact hS.not_transGen hcircle

/-- **Lowering ends, circles included.** Let pointers and arrays alone make no
circle, so that every name is found within the levels of the catalogue; other
circles may be there, and identifiers that are not listed. Let `ids` be the
types that one leads to, itself included. Then in a session in any state,
lowering it does what its own equation says, with no limit to go by, and does
the same with any limit above the number of `ids`. At no time do more types
wait for their answers than one more than that number. And in any session
that comes about, a type that leads to one which leads to itself is never
lowered. -/
theorem lower_terminates (L : Library) (hL : L.catalog.Grounded) :
    (∀ i depth, L.catalog.size < depth → L.catalog.nameBelow depth i = L.catalog.nameOf i) ∧
    (∀ i, ∃ ids : List TypeId, ids.Nodup ∧ (∀ j, j ∈ ids ↔ L.Reaches i j) ∧
      ∀ p : Progress,
        (L.setting.lower i).run p = (L.setting.visit L.setting.lower i).run p ∧
        (∀ depth, ids.length < depth →
          (L.setting.lowerUpTo depth i).run p = (L.setting.lower i).run p) ∧
        ∀ before, before <+: L.setting.moments i p → nesting before ≤ ids.length + 1) ∧
    ∀ (w : World) (context : Nat) (u : Universe), w.Reachable → w.universe? context = some u →
      ∀ (calls : List Call) (i j : TypeId), L.Reaches i j → TransGen L.Edge j j →
        ∀ h, ((L.setting.lower i).run (L.session u calls)).1 ≠ .ok h := by
  refine ⟨fun i depth hdepth => hL.nameBelow_eq_nameOf hdepth i, fun i => ?_, ?_⟩
  · obtain ⟨ids, hnodup, hmem⟩ := L.exists_reachable i
    have hi : i ∈ ids := (hmem i).2 .refl
    have hids : ∀ j ∈ ids, ∀ e ∈ L.deps j, e ∈ ids :=
      fun j hj e he => (hmem e).2 (((hmem j).1 hj).tail he)
    refine ⟨ids, hnodup, hmem, fun p => ?_⟩
    have hahead : ahead ids p.resolving ≤ ids.length := ahead_le ids p.resolving
    have hlimit : ids.length < Setting.depthLimit := Nat.lt_succ_of_le (length_le_of_nodup hnodup)
    have hends : ∀ depth, ids.length < depth →
        (L.setting.lowerUpTo depth i).run p = (L.setting.lower i).run p := by
      intro depth hdepth
      exact lowerUpTo_eq L hids hi (Nat.lt_of_le_of_lt hahead hdepth)
        (Nat.lt_of_le_of_lt hahead hlimit)
    refine ⟨(hends (Setting.depthLimit + 1) (Nat.lt_succ_of_lt hlimit)).symm, hends, ?_⟩
    intro before hb
    have hnests := (nestsWithin_lowerUpTo L hids Setting.depthLimit hi p).bounded before hb
    have hsum : ahead ids p.resolving + 1 ≤ ids.length + 1 := Nat.add_le_add_right hahead 1
    exact Int.le_trans hnests (Int.ofNat_le.2 hsum)
  · intro w context u hw hu calls i j hj hcircle
    exact lower_ne_ok_of_circle (inside_session L (hw.universe hu) calls) hj hcircle

/-- In the catalogue with the composite that refers to itself through a pointer,
pointers and arrays make no circle, and the pointer is never lowered, not
even after another composite was. -/
theorem lower_terminates_linked :
    linked.catalog.Grounded ∧ linked.Reaches ⟨16⟩ ⟨15⟩ ∧ TransGen linked.Edge ⟨15⟩ ⟨15⟩ ∧
      ∃ (w : World) (u : Universe), w.Reachable ∧ w.universe? 0 = some u ∧
        ∀ h, ((linked.setting.lower ⟨16⟩).run (linked.session u [.lower ⟨14⟩])).1 ≠ .ok h := by
  -- no pointer or array is the element of another
  have hflat : ∀ d ∈ linked.catalog.descriptors, ∀ e ∈ d.element?,
      (linked.catalog.get? e).bind Source.Descriptor.element? = none := by decide
  have hlast : ∀ i e, linked.catalog.HasElement i e → ∀ x, ¬ linked.catalog.HasElement e x := by
    intro i e he x hx
    obtain ⟨d, hd, hde⟩ := Option.bind_eq_some_iff.1 he
    have hnone := hflat d (List.mem_of_getElem? hd) e hde
    cases hnone.symm.trans hx
  have hgrounded : linked.catalog.Grounded := by
    intro i hi
    obtain ⟨e, he, hrest⟩ := TransGen.head'_iff.1 hi
    rcases hrest.cases_head with rfl | ⟨x, hx, -⟩
    · exact hlast e e he e he
    · exact hlast i e he x hx
  have hedge : linked.Edge ⟨16⟩ ⟨15⟩ := by
    change ⟨15⟩ ∈ linked.deps ⟨16⟩
    decide
  have hback : linked.Edge ⟨15⟩ ⟨16⟩ := by
    change ⟨16⟩ ∈ linked.deps ⟨15⟩
    decide
  have hcircle : TransGen linked.Edge ⟨15⟩ ⟨15⟩ := .tail (.single hback) hedge
  have hrun : ((World.empty.replay [.newTable, .newContext 0 .device64]).bind fun w =>
      w.universe? 0).isSome = true := by decide +kernel
  obtain ⟨u, huw⟩ := Option.isSome_iff_exists.1 hrun
  obtain ⟨w, hreplay, hu⟩ := Option.bind_eq_some_iff.1 huw
  have hw : w.Reachable := World.leads_of_replay hreplay
  obtain ⟨-, -, hnever⟩ := lower_terminates linked hgrounded
  exact ⟨hgrounded, .single hedge, hcircle, w, u, hw, hu,
    hnever w 0 u hw hu [.lower ⟨14⟩] ⟨16⟩ ⟨15⟩ (.single hedge) hcircle⟩

end Library

end DeviceTypes.Lowering
