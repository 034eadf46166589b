import DeviceTypes.Proofs.Lowering.Meaning
import DeviceTypes.Proofs.Tree.Spelling
/-!
# Only the structure shows

Two universes with one target may be over different tables, with unrelated
histories and caches. Handles of theirs that unfold to one tree are written,
laid out and passed alike. Sessions in both lower a source type along one
expansion, so they fail with one error or answer with handles of one tree,
which are then described alike as well (`indistinct_of_unfold_eq`).
-/

namespace DeviceTypes.Lowering

open Source (TypeId)

namespace Library

variable {L : Library} {target : Target} {p q : Progress}

/-- **Two sessions lower to one tree**, or fail with one error, whatever they
keep and whatever their tables hold. -/
theorem lower_unfold_eq (hp : p.Inside L target []) (hq : q.Inside L target []) (i : TypeId) :
    let r := (L.setting.lower i).run p
    let r' := (L.setting.lower i).run q
    Agrees (fun h k => r'.2.minter.table.unfold k = r.2.minter.table.unfold h) r.1 r'.1 := by
  intro r r'
  have hr : Follows L target [] IsTree (L.expandUpTo target Setting.depthLimit [] i) p r :=
    lower_follows hp i
  have hr' : Follows L target [] IsTree (L.expandUpTo target Setting.depthLimit [] i) q r' :=
    lower_follows hq i
  -- the expansion that both follow knows nothing of either session
  exact hr.agrees.join hr'.agrees fun T h k hT hT' => hT'.unfold_eq.trans hT.unfold_eq.symm

/-- **What a type prints and occupies depends only on its structure.** Let two
contexts have equal targets, over one table or two, after any histories. Two
handles that unfold to one tree, each in its own context, have the same text,
the same layout or rejection, and the same passing. A source type lowered in a
session on each, after any calls, fails with the same error in both, or gives
handles that unfold to one tree and so are described alike. -/
theorem indistinct_of_unfold_eq {w w' : World} (hw : w.Reachable) (hw' : w'.Reachable)
    {context context' : Nat} {u u' : Universe} (hu : w.universe? context = some u)
    (hu' : w'.universe? context' = some u') (ht : u'.target = u.target) :
    (∀ h, u.table.unfold h =
      match u.table.get? h with
      | none => .unknown h
      | some s => s.tree u.table.unfold) ∧
    (∀ h, u'.table.unfold h =
      match u'.table.get? h with
      | none => .unknown h
      | some s => s.tree u'.table.unfold) ∧
    (∀ h k, u'.table.unfold k = u.table.unfold h → u.Indistinct h u' k) ∧
    ∀ (L : Library) (calls calls' : List Call) (i : TypeId),
      let r := (L.setting.lower i).run (L.session u calls)
      let r' := (L.setting.lower i).run (L.session u' calls')
      (∀ e, r.1 = .error e ↔ r'.1 = .error e) ∧
      ∀ h k, r.1 = .ok h → r'.1 = .ok k →
        r'.2.minter.table.unfold k = r.2.minter.table.unfold h ∧
          r.2.minter.Indistinct h r'.2.minter k := by
  have hsound := hw.universe hu
  have hsound' := hw'.universe hu'
  refine ⟨hsound.ordered.unfold_eq, hsound'.ordered.unfold_eq,
    fun h k he => .of_unfold hsound hsound' ht he, fun L calls calls' i => ?_⟩
  intro r r'
  have hp := inside_session L hsound calls
  have hq : (L.session u' calls').Inside L u.target [] := ht ▸ inside_session L hsound' calls'
  have hr : r.2.Inside L u.target [] := (lower_follows hp i).steps.inside
  have hr' : r'.2.Inside L u.target [] := (lower_follows hq i).steps.inside
  have hagrees : Agrees (fun h k => r'.2.minter.table.unfold k = r.2.minter.table.unfold h)
    r.1 r'.1 := lower_unfold_eq hp hq i
  refine ⟨hagrees.error_iff, fun h k hh hk => ?_⟩
  rw [hh, hk] at hagrees
  cases hagrees with
  | ok he => exact ⟨he, .of_unfold hr.sound hr'.sound (hr'.target_eq.trans hr.target_eq.symm) he⟩

/-- One table got the array first and the other got it second, so its handles
differ, and so do those of a type lowered into both, after another one was
refused in the first. Either way the two are described alike. -/
theorem indistinct_of_unfold_eq_linked :
    ∃ (w : World) (u u' : Universe), w.Reachable ∧ w.universe? 0 = some u ∧
      w.universe? 1 = some u' ∧ u'.target = u.target ∧
      u'.table.unfold (.minted 1 1) = u.table.unfold (.minted 0 0) ∧
      u.Indistinct (.minted 0 0) u' (.minted 1 1) ∧
      let r := (linked.setting.lower ⟨14⟩).run (linked.session u [.lower ⟨15⟩])
      let r' := (linked.setting.lower ⟨14⟩).run (linked.session u' [])
      r.1 = .ok (.minted 0 4) ∧ r'.1 = .ok (.minted 1 5) ∧
        r.2.minter.Indistinct (.minted 0 4) r'.2.minter (.minted 1 5) := by
  let history : List World.Call := [.newTable, .newTable, .newContext 0 .device64,
    .newContext 1 .device64, .ask 0 (.array (.primitive .u16) 3),
    .ask 1 (.array (.primitive .u8) 2), .ask 1 (.array (.primitive .u16) 3)]
  obtain ⟨w, hreplay⟩ : ∃ w, World.empty.replay history = some w := ⟨_, rfl⟩
  have hw : w.Reachable := World.leads_of_replay hreplay
  obtain ⟨u, u', hu, hu'⟩ : ∃ u u', w.universe? 0 = some u ∧ w.universe? 1 = some u' := by
    cases hreplay
    exact ⟨_, _, rfl, rfl⟩
  have ht : u'.target = u.target := by
    cases hreplay
    cases hu
    cases hu'
    rfl
  have he : u'.table.unfold (.minted 1 1) = u.table.unfold (.minted 0 0) := by
    cases hreplay
    cases hu
    cases hu'
    rfl
  obtain ⟨-, -, hsame, hlower⟩ := indistinct_of_unfold_eq hw hw hu hu' ht
  have hans : Outcome.answer? ((linked.setting.lower ⟨14⟩).run
      (linked.session u [.lower ⟨15⟩])) = some (.minted 0 4) := by
    cases hreplay
    cases hu
    decide +kernel
  have hans' : Outcome.answer? ((linked.setting.lower ⟨14⟩).run (linked.session u' [])) =
      some (.minted 1 5) := by
    cases hreplay
    cases hu'
    decide +kernel
  rw [Outcome.answer?_eq_some_iff] at hans hans'
  have hboth := (hlower linked [.lower ⟨15⟩] [] ⟨14⟩).2 _ _ hans hans'
  exact ⟨w, u, u', hw, hu, hu', ht, he, hsame _ _ he, hans, hans', hboth.2⟩

end Library

end DeviceTypes.Lowering
