import DeviceTypes.Proofs.Layout.Whole
import DeviceTypes.Proofs.Workspace.Coherence
/-!
# Contexts lay out exactly

A context checks each rounding, each sum and each product of a layout, and
refuses the type where a check fails. Where pointer widths are powers of
two the checks are no stricter than the question whether the size itself
can be an address: an array or an aggregate has the layout that the rules
give over unbounded numbers if its size is in range, and is refused for its
size if not (`layouts_exact`).
-/

namespace DeviceTypes

namespace Universe

variable {u : Universe} {c : Compound} {E : Layout}

/-- **A universe lays out exactly.** -/
theorem Sound.layoutIn_eq_bounded (hu : u.Sound) (ht : u.target.Regular)
    (hE : c.HasExact (fun x l => u.layoutAnew x = .ok l) E) :
    c.layoutIn u.target u.layoutAnew = E.bounded :=
  Compound.layoutIn_eq_bounded (fun _ _ hl => hu.ordered.whole_layoutAnew ht hl) hE

/-- The parts of what has an exact layout are settled. -/
theorem Sound.settled_of_hasExact (hu : u.Sound)
    (hE : c.HasExact (fun x l => u.layoutAnew x = .ok l) E) :
    ∀ x ∈ c.parts, u.table.Settled x := by
  intro x hx
  obtain ⟨l, hl⟩ := hE.laid x hx
  obtain ⟨s, hs, -⟩ := hu.ordered.get?_of_layoutAnew hl
  exact Table.settled_of_get? hs

/-- Minting a compound of exact size out of range is refused for it. -/
theorem Sound.run_mint_of_large (hu : u.Sound) (ht : u.target.Regular)
    (hE : c.HasExact (fun x l => u.layoutAnew x = .ok l) E) (hsize : addressLimit ≤ E.size) :
    ((Universe.mint c).run u).1 = .error .sizeOverflow := by
  have hl := hu.layoutIn_eq_bounded ht hE
  rw [Layout.bounded, if_neg (Nat.not_lt.2 hsize)] at hl
  obtain ⟨layouts, -, hr⟩ := hu.run_mint_of_error hl
  rw [hr]

/-- Minting a compound of exact size in range gives a handle with that layout. -/
theorem Sound.run_mint_of_small (hu : u.Sound) (ht : u.target.Regular)
    (hE : c.HasExact (fun x l => u.layoutAnew x = .ok l) E) (hsize : E.size < addressLimit) :
    ((Universe.mint c).run u).1 = .ok (u.table.handleOf c) ∧
      ((Universe.mint c).run u).2.table.layoutAnew u.target (u.table.handleOf c) = .ok E := by
  have hsettled := hu.settled_of_hasExact hE
  have hl := hu.layoutIn_eq_bounded ht hE
  rw [Layout.bounded, if_pos hsize] at hl
  obtain ⟨layouts, -, hr⟩ := hu.run_mint_of_ok hsettled hl
  rw [hr]
  exact ⟨rfl, hu.layoutAnew_handleOf hsettled hl⟩

end Universe

namespace World

variable {w : World} {context : Nat} {u : Universe}

/-- The context answers that the handle has this layout. -/
def LaysOut (w : World) (context : Nat) (h : Handle) (l : Layout) : Prop :=
  w.answer context (.layoutOf h) = some (Except.ok l)

/-- The answer to a request for a type of exact layout `E`: a handle that has that
layout from then on, if the size is in range, and else that it is not. -/
def MintsExactly (w' : World) (context : Nat) (E : Layout)
    (answer : Option (Except Rejection Handle)) : Prop :=
  (E.size < addressLimit → ∃ h, answer = some (.ok h) ∧ w'.LaysOut context h E) ∧
    (addressLimit ≤ E.size → answer = some (.error .sizeOverflow))

theorem Reachable.laysOut_iff (hw : w.Reachable) (hu : w.universe? context = some u) {h : Handle}
    {l : Layout} : w.LaysOut context h l ↔ u.layoutAnew h = .ok l := by
  rw [LaysOut, hw.answer_layoutOf hu]
  exact Option.some_inj

/-- A request that comes to minting a compound mints it exactly. -/
theorem Reachable.mintsExactly (hw : w.Reachable) (hu : w.universe? context = some u)
    (ht : u.target.Regular) {c : Compound} {E : Layout}
    (hE : c.HasExact (fun x l => u.layoutAnew x = .ok l) E) {r : Request}
    (hr : r.handles = c.parts) (hrun : (u.perform r).2.2 = ((Universe.mint c).run u).2) :
    (w.run (.ask context r)).MintsExactly context E (some ((Universe.mint c).run u).1) := by
  have hsound := hw.universe hu
  refine ⟨fun hsize => ?_, fun hsize => congrArg some (hsound.run_mint_of_large ht hE hsize)⟩
  obtain ⟨hok, hlayout⟩ := hsound.run_mint_of_small ht hE hsize
  obtain ⟨u', hu', hle, hsound', htable⟩ :=
    hw.universe?_run_ask hu (hr ▸ hsound.settled_of_hasExact hE)
  refine ⟨u.table.handleOf c, congrArg some hok, ?_⟩
  rw [LaysOut, answer_eq hu', hsound'.perform_layoutOf, Universe.layoutAnew, htable, hrun,
    Universe.target_of_le hle]
  exact congrArg some hlayout

/-- **Checked layouts are exact.** In a context whose pointer widths are zero or
powers of two, let `E` be the layout of an array or an aggregate by the rules
over unbounded numbers, its parts being laid out by the context, and its
explicit alignment, if it has one, not below the natural one:

* a handle that stands for it has the layout `E` if that is in range, and is
  refused for its size if not;
* so is a request to mint it;
* hence any layout that the context ever gives has a positive alignment that
  divides the size, and the size is also the stride. -/
theorem layouts_exact (hw : w.Reachable) (hu : w.universe? context = some u)
    (ht : u.target.Regular) :
    (∀ c E, c.HasExact (w.LaysOut context) E →
      ∀ h, w.answer context (.shapeOf h) = some (Except.ok (.compound c)) →
        w.answer context (.layoutOf h) =
          some (if E.size < addressLimit then .ok E else .error .sizeOverflow)) ∧
    (∀ element length E, Compound.HasExact (w.LaysOut context) (.array element length) E →
      (w.run (.ask context (.array element length))).MintsExactly context E
        (w.answer context (.array element length))) ∧
    (∀ policy members E,
      Compound.HasExact (w.LaysOut context) (.aggregate (policy.aggregate members)) E →
      (policy.aggregate members).check u.target = .ok () →
      (w.run (.ask context (.aggregate policy members))).MintsExactly context E
        (w.answer context (.aggregate policy members))) ∧
    ∀ h l, w.LaysOut context h l →
      1 ≤ l.align ∧ l.align ∣ l.size ∧ l.stride? = some l.size := by
  have hsound := hw.universe hu
  have hlays : w.LaysOut context = fun x l => u.layoutAnew x = .ok l :=
    funext fun x => funext fun l => propext (hw.laysOut_iff hu)
  rw [hlays]
  refine ⟨fun c E hE h hh => ?_, fun element length E hE => ?_,
    fun policy members E hE hcheck => ?_, fun h l hl => ?_⟩
  · rw [answer_eq hu] at hh
    have hget := Universe.shapeOf_eq_ok.1 (Option.some.inj hh)
    rw [hw.answer_layoutOf hu, Universe.layoutAnew, hsound.ordered.layoutAnew_eq, hget]
    exact congrArg some (hsound.layoutIn_eq_bounded ht hE)
  · rw [answer_eq hu]
    exact hw.mintsExactly hu ht hE rfl rfl
  · have hrun : (Universe.aggregate policy members).run u =
        (Universe.mint (.aggregate (policy.aggregate members))).run u := by
      rw [Universe.run_aggregate, hcheck]
    have hanswer : (u.perform (.aggregate policy members)).1 =
        ((Universe.mint (.aggregate (policy.aggregate members))).run u).1 :=
      congrArg Prod.fst hrun
    rw [answer_eq hu, hanswer]
    exact hw.mintsExactly hu ht hE rfl (congrArg Prod.snd hrun)
  · have hl := hsound.ordered.whole_layoutAnew ht hl
    exact ⟨hl.regular.align_pos, hl.align_dvd, hl.stride?_eq⟩

/-- Behind eight bytes less than the address range, an aligned member of no size ends
a struct just in range; behind seven less it does not, though the struct's size
before rounding is in range. -/
theorem layouts_exact_trailing :
    ∃ (w : World) (u : Universe), w.Reachable ∧ w.universe? 0 = some u ∧ u.target.Regular ∧
      (w.run (.ask 0 (.aggregate {} [⟨"bytes", .minted 0 0⟩, ⟨"tail", .minted 0 2⟩]))).MintsExactly
        0 ⟨0xFFFFFFFFFFFFFFF8, 8, [0, 0xFFFFFFFFFFFFFFF8]⟩
        (w.answer 0 (.aggregate {} [⟨"bytes", .minted 0 0⟩, ⟨"tail", .minted 0 2⟩])) ∧
      w.answer 0 (.aggregate {} [⟨"bytes", .minted 0 1⟩, ⟨"tail", .minted 0 2⟩]) =
        some (Except.error .sizeOverflow) := by
  let calls : List Call := [.newTable, .newContext 0 .device64,
    .intern 0 (.compound (.array (.primitive .u8) 0xFFFFFFFFFFFFFFF8)),
    .intern 0 (.compound (.array (.primitive .u8) 0xFFFFFFFFFFFFFFF9)),
    .intern 0 (.compound (.array (.primitive .u64) 0))]
  let t : Table := ⟨0, [.array (.primitive .u8) 0xFFFFFFFFFFFFFFF8,
    .array (.primitive .u8) 0xFFFFFFFFFFFFFFF9, .array (.primitive .u64) 0], by decide⟩
  let w : World := ⟨⟨[t], [⟨0, .device64, .empty⟩]⟩, [0]⟩
  have hreplay : World.empty.replay calls = some w := rfl
  have hw : w.Reachable := leads_of_replay hreplay
  let u : Universe := ⟨0, t, .device64, .empty⟩
  have hu : w.universe? 0 = some u := rfl
  have ht : u.target.Regular := Target.regular_device64
  obtain ⟨-, -, haggregate, -⟩ := layouts_exact hw hu ht
  have hbytes : w.LaysOut 0 (.minted 0 0) ⟨0xFFFFFFFFFFFFFFF8, 1, []⟩ := rfl
  have hmore : w.LaysOut 0 (.minted 0 1) ⟨0xFFFFFFFFFFFFFFF9, 1, []⟩ := rfl
  have htail : w.LaysOut 0 (.minted 0 2) ⟨0, 8, []⟩ := rfl
  have hexact : ∀ (slot bytes : Nat), w.LaysOut 0 (.minted 0 slot) ⟨bytes, 1, []⟩ →
      Compound.HasExact (w.LaysOut 0) (.aggregate (Policy.aggregate {}
        [⟨"bytes", .minted 0 slot⟩, ⟨"tail", .minted 0 2⟩]))
        (Aggregate.exact (Policy.aggregate {} []) [⟨bytes, 1, []⟩, ⟨0, 8, []⟩]) := by
    intro slot bytes h
    refine .aggregate (.cons h (.cons htail .nil)) fun x hx => ?_
    cases hx
  have hsmall : Aggregate.exact (Policy.aggregate {} [])
      [⟨0xFFFFFFFFFFFFFFF8, 1, []⟩, ⟨0, 8, []⟩] =
      ⟨0xFFFFFFFFFFFFFFF8, 8, [0, 0xFFFFFFFFFFFFFFF8]⟩ := by decide
  have hfits := haggregate {} _ _ (hexact 0 _ hbytes) rfl
  have hlarge := haggregate {} _ _ (hexact 1 _ hmore) rfl
  rw [hsmall] at hfits
  exact ⟨w, u, hw, hu, ht, hfits, hlarge.2 (by decide)⟩

end World

end DeviceTypes
