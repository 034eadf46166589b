import DeviceTypes.Proofs.Layout.Least
import DeviceTypes.Proofs.Workspace.Exact
/-!
# Contexts waste no memory

Whatever aggregate a context lays out, its layout is tight for what the
context answers for the members (`layouts_tight`). The widths of pointers
do not matter here, so alignments may be any positive numbers.
-/

namespace DeviceTypes

namespace World

variable {w : World} {context : Nat}

/-- What a context lays out, it lays out in a universe of its own. -/
theorem LaysOut.universe? {h : Handle} {l : Layout} (hl : w.LaysOut context h l) :
    ∃ u, w.universe? context = some u := by
  obtain ⟨u, hu, -⟩ := Option.map_eq_some_iff.1 hl
  exact ⟨u, hu⟩

/-- **Layouts of aggregates are tight.** In any context, whatever its target, let `h`
be a handle of an aggregate for which the context answers with a layout. Then it
answers with layouts for the members too, and given these:

* there is one offset for each member, and all are zero in a union;
* packed members lie at the sums of the sizes before them;
* the members of any other struct are aligned and follow one another, and no
  other placement of which that holds has any of them sooner;
* the alignment is the explicit one, or else the largest of the members', which
  is one where they are packed or there are none;
* the size is the least multiple of the alignment that covers every member. -/
theorem layouts_tight (hw : w.Reachable) {h : Handle} {a : Aggregate} {l : Layout}
    (ha : w.answer context (.shapeOf h) = some (Except.ok (.compound (.aggregate a))))
    (hl : w.LaysOut context h l) :
    ∃ ls, List.Forall₂ (fun m lm => w.LaysOut context m.type lm) a.members ls ∧ a.Tight ls l := by
  obtain ⟨u, hu⟩ := hl.universe?
  have hordered := (hw.universe hu).ordered
  rw [answer_eq hu] at ha
  rw [hw.laysOut_iff hu] at hl
  obtain ⟨s, hs, hin⟩ := hordered.get?_of_layoutAnew hl
  obtain rfl : s = .compound (.aggregate a) :=
    Option.some.inj (hs.symm.trans (Universe.shapeOf_eq_ok.1 (Option.some.inj ha)))
  have hpos : ∀ m ∈ a.members, ∀ lm, u.layoutAnew m.type = .ok lm → 0 < lm.align :=
    fun m _ lm hlm => hordered.align_pos_layoutAnew hlm
  obtain ⟨ls, hls, -, rfl⟩ := Aggregate.exact_of_layoutIn hin hpos
  refine ⟨ls, ?_, Aggregate.exact_tight fun lm hlm => ?_⟩
  · simp only [hw.laysOut_iff hu]
    exact map_eq_map_iff_forall₂.1 hls
  · have hmem : .ok lm ∈ (a.members.map fun m => u.layoutAnew m.type) :=
      hls ▸ List.mem_map_of_mem hlm
    exact Aggregate.align_pos_of_mem_map hpos lm hmem

/-- Where pointers to shared memory are three bytes wide, a struct of a byte, such a
pointer and two bytes more lies tight in nine bytes. -/
theorem layouts_tight_odd :
    ∃ (w : World) (a : Aggregate) (l : Layout), w.Reachable ∧
      w.answer 0 (.shapeOf (.minted 0 1)) = some (Except.ok (.compound (.aggregate a))) ∧
      w.LaysOut 0 (.minted 0 1) l ∧ l = ⟨9, 3, [0, 3, 6]⟩ ∧
      ∃ ls, List.Forall₂ (fun m lm => w.LaysOut 0 m.type lm) a.members ls ∧ a.Tight ls l := by
  let calls : List Call := [.newTable, .newContext 0 (Target.device64.withPointerWidth .shared 3),
    .ask 0 (.pointer (.primitive .u8) .shared), .ask 0 (.aggregate {}
      [⟨"tag", .primitive .u8⟩, ⟨"at", .minted 0 0⟩, ⟨"count", .primitive .u16⟩])]
  obtain ⟨w, hreplay⟩ : ∃ w, World.empty.replay calls = some w := ⟨_, rfl⟩
  have hw : w.Reachable := leads_of_replay hreplay
  have ha : w.answer 0 (.shapeOf (.minted 0 1)) = some (Except.ok (.compound (.aggregate
      (Policy.aggregate {}
        [⟨"tag", .primitive .u8⟩, ⟨"at", .minted 0 0⟩, ⟨"count", .primitive .u16⟩])))) := by
    cases hreplay
    rfl
  have hl : w.LaysOut 0 (.minted 0 1) ⟨9, 3, [0, 3, 6]⟩ := by
    cases hreplay
    rfl
  exact ⟨w, _, _, hw, ha, hl, rfl, layouts_tight hw ha hl⟩

end World

end DeviceTypes
