import DeviceTypes.Proofs.Lowering.Calls
import DeviceTypes.Proofs.Workspace.History
/-!
# Lowering keeps the meaning

A source type is lowered to a handle of the very tree it is meant to
become, and it is lowered whenever there is such a tree and the target
accepts it (`lower_eq_ok_iff`). What the session was called for before,
what it kept of that, which types refer to each other and which rules
decline make no difference.
-/

namespace DeviceTypes.Lowering

open Source (Catalog Field Scalar TypeId)

namespace Library

/-- **Lowering preserves meaning**, soundly and completely. In every session on
every context, a type is lowered to a handle whose tree is `T` exactly when
`T` is what the type is meant to become and the target accepts it. The tree
of a handle is that of its shape, with the trees of the handles in it. -/
theorem lower_eq_ok_iff (L : Library) {w : World} (hw : w.Reachable) {context : Nat} {u : Universe}
    (hu : w.universe? context = some u) (calls : List Call) (i : TypeId) :
    let r := (L.setting.lower i).run (L.session u calls)
    (∀ h, r.2.minter.table.unfold h =
      match r.2.minter.table.get? h with
      | none => .unknown h
      | some s => s.tree r.2.minter.table.unfold) ∧
    ∀ T, (∃ h, r.1 = .ok h ∧ r.2.minter.table.unfold h = T) ↔
      L.Intends i T ∧ T.Accepted u.target := by
  intro r
  have hinside := inside_session L (hw.universe hu) calls
  have hfollows : Follows L u.target [] IsTree
      (L.expandUpTo u.target Setting.depthLimit [] i) (L.session u calls) r :=
    lower_follows hinside i
  obtain ⟨hsteps, hagrees⟩ := hfollows
  refine ⟨hsteps.inside.sound.ordered.unfold_eq, fun T => ⟨?_, ?_⟩⟩
  · rintro ⟨h, hr, rfl⟩
    -- a handle comes of an expansion that answered, and what it answers is right
    rw [hr] at hagrees
    obtain ⟨S, hS, hreads⟩ := hagrees.of_right
    rw [hreads.unfold_eq]
    exact expandUpTo_sound hS
  · rintro ⟨hint, hacc⟩
    -- nothing is around at the start, so nothing stands in the way of `T`
    have hT : (L.expandUpTo u.target Setting.depthLimit [] i).answer = .ok T :=
      hint.expandUpTo hacc (above_nil L i) List.nodup_nil (Nat.lt_succ_self _)
    rw [hT] at hagrees
    obtain ⟨h, hr, hreads⟩ := hagrees.of_left
    exact ⟨h, hr, hreads.unfold_eq⟩

/-- A family of packed composites, a composite that holds one and points to
it, and a composite that points to itself. -/
def linked : Library where
  catalog := ⟨Scalar.all.map .scalar ++ [
    .array ⟨5⟩ 3,
    .composite ⟨"Tail", some "tail", [⟨"len", ⟨7⟩⟩, ⟨"bytes", ⟨11⟩⟩]⟩,
    .pointer ⟨12⟩,
    .composite ⟨"Node", none, [⟨"next", ⟨13⟩⟩, ⟨"tail", ⟨12⟩⟩]⟩,
    .composite ⟨"Loop", none, [⟨"tail", ⟨12⟩⟩, ⟨"again", ⟨16⟩⟩]⟩,
    .pointer ⟨15⟩]⟩
  entries := [(.family "tail", .declared 0 (.family "tail") { packing := some .packed })]

/-- After a type that refers to itself was refused, the composite is lowered to
the tree it is meant to become. -/
theorem lower_eq_ok_iff_linked :
    ∃ (w : World) (u : Universe), w.Reachable ∧ w.universe? 0 = some u ∧
      let tail := Tree.aggregate .struct
        [("len", .primitive .u32), ("bytes", .array (.primitive .u8) 3)]
        .natural .packed .targetDefault
      let r := (linked.setting.lower ⟨14⟩).run (linked.session u [.lower ⟨15⟩])
      ∃ h, r.1 = .ok h ∧ r.2.minter.table.unfold h =
        .aggregate .struct [("next", .pointer tail .global), ("tail", tail)]
          .natural .sequential .targetDefault := by
  have hrun : ((World.empty.replay [.newTable, .newContext 0 .device64]).bind fun w =>
      w.universe? 0).map Universe.target = some .device64 := by decide +kernel
  obtain ⟨u, huw, htarget⟩ := Option.map_eq_some_iff.1 hrun
  obtain ⟨w, hreplay, hu⟩ := Option.bind_eq_some_iff.1 huw
  have hw : w.Reachable := World.leads_of_replay hreplay
  have hbytes : linked.Intends ⟨11⟩ (.array (.primitive .u8) 3) :=
    .array (e := ⟨5⟩) rfl (.primitive rfl)
  have htail : linked.Intends ⟨12⟩ (.ofPolicy { packing := some .packed }
      [("len", .primitive .u32), ("bytes", .array (.primitive .u8) 3)]) := by
    have hplan : linked.plan ⟨12⟩ = .aggregate [⟨"len", ⟨7⟩⟩, ⟨"bytes", ⟨11⟩⟩]
        { packing := some .packed } := rfl
    refine .aggregate hplan rfl ?_
    simp only [List.zip_cons_cons, List.zip_nil_right, List.forall_mem_cons]
    exact ⟨.primitive rfl, hbytes, fun x hx => absurd hx List.not_mem_nil⟩
  refine ⟨w, u, hw, hu, ?_⟩
  refine ((lower_eq_ok_iff linked hw hu [.lower ⟨15⟩] ⟨14⟩).2 _).2 ⟨?_, ?_⟩
  · have hplan : linked.plan ⟨14⟩ = .aggregate [⟨"next", ⟨13⟩⟩, ⟨"tail", ⟨12⟩⟩] {} := rfl
    refine .aggregate hplan rfl ?_
    simp only [List.zip_cons_cons, List.zip_nil_right, List.forall_mem_cons]
    exact ⟨.pointer (e := ⟨12⟩) rfl htail, htail, fun x hx => absurd hx List.not_mem_nil⟩
  · rw [htarget]
    have hacc : (Tree.ofPolicy { packing := some .packed }
        [("len", .primitive .u32), ("bytes", .array (.primitive .u8) 3)]).Accepted .device64 := by
      refine .aggregate (l := ⟨7, 1, [0, 4]⟩) ?_ (fun h => by simp at h) (by decide) (by decide)
        (fun a h => by simp at h) rfl
      simp only [List.forall_mem_cons]
      exact ⟨.primitive _, .array (l := ⟨3, 1, []⟩) (.primitive _) rfl,
        fun x hx => absurd hx List.not_mem_nil⟩
    refine .aggregate (l := ⟨16, 8, [0, 8]⟩) ?_ (fun h => by simp at h) (by decide) (by decide)
      (fun a h => by simp at h) rfl
    simp only [List.forall_mem_cons]
    exact ⟨.pointer _ hacc, hacc, fun x hx => absurd hx List.not_mem_nil⟩

end Library

end DeviceTypes.Lowering
