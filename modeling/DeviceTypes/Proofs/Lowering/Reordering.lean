import Mathlib.Control.Monad.Basic
import DeviceTypes.Proofs.Lowering.Meaning
import DeviceTypes.Proofs.Lowering.Workshop
import DeviceTypes.Proofs.Tree.Renaming
/-!
# The order of orders

Sessions that share a table write it in turn, and each finds what the
others have left there. Which handle a type is given depends on that, and
nothing else does. The trees that an order finishes are its own, so some
orders plant the same trees however they are arranged, and the tables that
come of it hold the same trees. Such tables differ by a renaming of
handles, and the answers differ by that same renaming
(`performAll_perm`).
-/

namespace DeviceTypes.Lowering

open Source (Scalar TypeId)

namespace Workshop

variable {L : Library} {targets : Nat → Target} {t t' : Table}

/-- Two answers to one order, read in the tables of their runs, are the same
failure or handles of one tree. -/
theorem agrees_of_expand {o : Order} {a a' : Except Error Handle}
    (h : Agrees (IsTree t) (expand L targets o).answer a)
    (h' : Agrees (IsTree t') (expand L targets o).answer a') :
    Agrees (fun x x' => t.contains x = true ∧ t.unfold x = t'.unfold x') a a' := by
  generalize (expand L targets o).answer = answer at h h'
  cases h with
  | error e =>
    cases h' with
    | error e => exact .error e
  | ok hr =>
    cases h' with
    | ok hr' => exact .ok ⟨hr.contains, hr.unfold_eq.trans hr'.unfold_eq.symm⟩

/-- **One type, one handle**: orders for one type that succeed are answered
alike, for whatever targets they are carried out. -/
theorem handle_eq_of_type_eq (ho : t.Ordered) {o o' : Order} {h h' : Handle}
    (htype : o.type = o'.type) (ha : Agrees (IsTree t) (expand L targets o).answer (.ok h))
    (ha' : Agrees (IsTree t) (expand L targets o').answer (.ok h')) : h = h' := by
  obtain ⟨T, hT, hr⟩ : ∃ T, (expand L targets o).answer = .ok T ∧ t.Reads h T := by
    generalize (expand L targets o).answer = answer at ha
    cases ha with
    | ok hr => exact ⟨_, rfl, hr⟩
  obtain ⟨T', hT', hr'⟩ : ∃ T, (expand L targets o').answer = .ok T ∧ t.Reads h' T := by
    generalize (expand L targets o').answer = answer at ha'
    cases ha' with
    | ok hr => exact ⟨_, rfl, hr⟩
  -- what a type is meant to become does not depend on the target
  have hint := (Library.expandUpTo_sound hT).1
  have hint' := (Library.expandUpTo_sound hT').1
  rw [htype] at hint
  rw [hint.functional hint'] at hr
  exact hr.inj hr' ho

/-- **The order of orders does not matter.** Let sessions be opened over one
table, in universes of any targets. However the same orders are arranged,
the table comes out equally large and the same up to a renaming of handles
that keeps those the table had before. An order is answered with the same
failure, or with handles that have equal trees and are renamed into each
other. And within one run, orders for one type that succeed are answered
with one handle. -/
theorem performAll_perm (L : Library) {w : World} (hw : w.Reachable) {n : Nat} {t₀ : Table}
    (ht : w.workspace.tables[n]? = some t₀) {universes : List Nat}
    (hu : ∀ m ∈ universes, ∃ u, w.workspace.universe? m = some u ∧ u.table.number = n)
    {orders orders' : List Order} (ho : ∀ o ∈ orders, o.session < universes.length)
    (hp : orders.Perm orders') :
    let r := (opened L w.workspace universes).performAll orders
    let r' := (opened L w.workspace universes).performAll orders'
    ∃ (t t' : Table) (ρ : Equiv.Perm Handle),
      r.2.workspace.tables[n]? = some t ∧ r'.2.workspace.tables[n]? = some t' ∧
      t.size = t'.size ∧ (∀ h, t'.get? (ρ h) = (t.get? h).map (Shape.rename ρ)) ∧
      (∀ h, t₀.contains h = true → ρ h = h) ∧
      (∀ (j j' : Nat) (o : Order), orders[j]? = some o → orders'[j']? = some o →
        ∃ a a', r.1[j]? = some (some a) ∧ r'.1[j']? = some (some a') ∧
          Agrees (fun h h' => (t.contains h = true ∧ t.unfold h = t'.unfold h') ∧ ρ h = h') a a') ∧
      ∀ (j k : Nat) (o o' : Order) (h h' : Handle), orders[j]? = some o → orders[k]? = some o' →
        o.type = o'.type → r.1[j]? = some (some (.ok h)) → r.1[k]? = some (some (.ok h')) →
        h = h' := by
  intro r r'
  obtain ⟨targets, hready⟩ := ready_opened L hw.sound ht hu
  have hlen : (opened L w.workspace universes).sessions.length = universes.length :=
    List.length_map _
  rw [← hlen] at ho
  have ho' : ∀ o ∈ orders', o.session < (opened L w.workspace universes).sessions.length :=
    fun o h => ho o (hp.mem_iff.2 h)
  obtain ⟨hr, hanswers⟩ := hready.performAll ho
  obtain ⟨hr', hanswers'⟩ := hready.performAll ho'
  have hord := hr.sound.ordered n _ hr.table
  have hord' := hr'.sound.ordered n _ hr'.table
  -- both runs plant the same trees, in different order
  have hknown : ∀ T ∈ orders.flatMap (trees L targets), T.Known := by
    intro T hT
    obtain ⟨o, -, hT⟩ := List.mem_flatMap.1 hT
    exact known_of_mem_trees hT
  have hsame : ∀ T, T ∈ orders.flatMap (trees L targets) ↔ T ∈ orders'.flatMap (trees L targets) :=
    fun T => (hp.flatMap_right _).mem_iff
  have ht₀ := hw.sound.ordered n t₀ ht
  have hholds : ∀ T, (t₀.plantAll (orders.flatMap (trees L targets))).Holds T ↔
      (t₀.plantAll (orders'.flatMap (trees L targets))).Holds T :=
    fun T => ht₀.holds_plantAll_congr hknown hsame
  have hle := (ht₀.plants_plantAll hknown).le
  have hle' := (ht₀.plants_plantAll fun T hT => hknown T ((hsame T).2 hT)).le
  have hnum := (Table.number_of_le hle').trans (Table.number_of_le hle).symm
  obtain ⟨ρ, hρ, hget⟩ := hord.exists_renaming hord' hnum hholds
  refine ⟨_, _, ρ, hr.table, hr'.table, hord.size_eq hord' hholds, hget, ?_, ?_, ?_⟩
  · intro h hc
    -- a handle of the old table reads the same in both, so the renaming keeps it
    have hread : t₀.Reads h (t₀.unfold h) := ⟨hc, rfl⟩
    refine hord'.unfold_injective ?_
    rw [hρ, (hread.of_le ht₀ hord hle).unfold_eq, (hread.of_le ht₀ hord' hle').unfold_eq]
  · intro j j' o hj hj'
    obtain ⟨a, ha, hagrees⟩ := hanswers j o hj
    obtain ⟨a', ha', hagrees'⟩ := hanswers' j' o hj'
    refine ⟨a, a', ha, ha', (agrees_of_expand hagrees hagrees').mono fun h h' hh => ⟨hh, ?_⟩⟩
    exact hord'.unfold_injective ((hρ h).trans hh.2)
  · intro j k o o' h h' hj hk htype hh hh'
    obtain ⟨a, ha, hagrees⟩ := hanswers j o hj
    obtain ⟨a', ha', hagrees'⟩ := hanswers k o' hk
    obtain rfl := Option.some.inj (Option.some.inj (ha.symm.trans hh))
    obtain rfl := Option.some.inj (Option.some.inj (ha'.symm.trans hh'))
    exact handle_eq_of_type_eq hord htype hagrees hagrees'

/-- Two arrays, and a composite of both that is aligned to 512 bytes. -/
def pages : Library where
  catalog := ⟨Scalar.all.map .scalar ++ [
    .array ⟨5⟩ 3,
    .array ⟨6⟩ 3,
    .composite ⟨"Page", none, [⟨"bytes", ⟨11⟩⟩, ⟨"words", ⟨12⟩⟩]⟩]⟩
  entries := [(.exact ⟨13⟩, .declared 0 (.exact ⟨13⟩) { alignment := some (.explicit ⟨9⟩) })]

/-- Of two sessions one admits the composite and the other does not. Once the
refused order comes last, the arrays change places in the table, and all
is the same but for that. -/
theorem performAll_perm_pages :
    ∃ (w : World) (t t' : Table) (ρ : Equiv.Perm Handle), w.Reachable ∧
      let r := (opened pages w.workspace [0, 1]).performAll [⟨0, ⟨13⟩⟩, ⟨1, ⟨12⟩⟩, ⟨1, ⟨13⟩⟩]
      let r' := (opened pages w.workspace [0, 1]).performAll [⟨1, ⟨12⟩⟩, ⟨1, ⟨13⟩⟩, ⟨0, ⟨13⟩⟩]
      r.1[1]? = some (some (.ok (.minted 0 1))) ∧ r'.1[0]? = some (some (.ok (.minted 0 0))) ∧
      r.2.workspace.tables[0]? = some t ∧ r'.2.workspace.tables[0]? = some t' ∧
      t.size = t'.size ∧ ρ (.minted 0 1) = .minted 0 0 ∧
      t'.get? (.minted 0 0) = (t.get? (.minted 0 1)).map (Shape.rename ρ) := by
  let calls : List World.Call := [.newTable, .newContext 0 .device64,
    .newContext 0 { Target.device64 with maxAlignment := 512 }]
  have hworld : (World.empty.replay calls).map (fun w => (w.workspace.tables.length,
      [0, 1].map fun m => (w.workspace.universe? m).map fun u => u.table.number)) =
      some (1, [some 0, some 0]) := by decide +kernel
  have hrun : (World.empty.replay calls).map (fun w => [
      ((opened pages w.workspace [0, 1]).performAll
        [⟨0, ⟨13⟩⟩, ⟨1, ⟨12⟩⟩, ⟨1, ⟨13⟩⟩]).1[1]?,
      ((opened pages w.workspace [0, 1]).performAll
        [⟨1, ⟨12⟩⟩, ⟨1, ⟨13⟩⟩, ⟨0, ⟨13⟩⟩]).1[0]?]) =
      some [some (some (.ok (.minted 0 1))), some (some (.ok (.minted 0 0)))] := by
    decide +kernel
  obtain ⟨w, hreplay, hw⟩ := Option.map_eq_some_iff.1 hworld
  rw [hreplay] at hrun
  simp only [Option.map_some, Option.some.injEq, List.cons.injEq, and_true] at hrun
  simp only [Prod.mk.injEq, List.map_cons, List.map_nil, List.cons.injEq, and_true,
    Option.map_eq_some_iff] at hw
  obtain ⟨hlen, hu₀, hu₁⟩ := hw
  obtain ⟨hfirst, hsecond⟩ := hrun
  have hreach : w.Reachable := World.leads_of_replay hreplay
  have hu : ∀ m ∈ [0, 1], ∃ u, w.workspace.universe? m = some u ∧ u.table.number = 0 := by
    simp only [List.forall_mem_cons]
    exact ⟨hu₀, hu₁, fun m hm => absurd hm List.not_mem_nil⟩
  have hperm : ([⟨0, ⟨13⟩⟩, ⟨1, ⟨12⟩⟩, ⟨1, ⟨13⟩⟩] : List Order).Perm
      [⟨1, ⟨12⟩⟩, ⟨1, ⟨13⟩⟩, ⟨0, ⟨13⟩⟩] := by decide
  obtain ⟨t, t', ρ, ht, ht', hsize, hget, -, hsame, -⟩ :=
    performAll_perm pages hreach (List.getElem?_eq_getElem (by omega)) hu (by decide) hperm
  have hρ : ρ (.minted 0 1) = .minted 0 0 := by
    obtain ⟨a, a', ha, ha', hagrees⟩ := hsame 1 0 ⟨1, ⟨12⟩⟩ rfl rfl
    obtain rfl := Option.some.inj (Option.some.inj (ha.symm.trans hfirst))
    obtain rfl := Option.some.inj (Option.some.inj (ha'.symm.trans hsecond))
    cases hagrees with
    | ok h => exact h.2
  refine ⟨w, t, t', ρ, hreach, hfirst, hsecond, ht, ht', hsize, hρ, ?_⟩
  rw [← hρ, hget]

end Workshop

end DeviceTypes.Lowering
