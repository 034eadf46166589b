import DeviceTypes.Proofs.Layout.Placed
import DeviceTypes.Proofs.Workspace.History
/-!
# Layouts as memory maps

A layout says only where the parts of a type lie one level down. A walk
goes all the way: from a type through the fields of structs, the elements
of arrays and one chosen member of each union, to a primitive or a
pointer. It misses none of these parts (`Sound.exists_step_element`,
`Sound.exists_step_member`). What one step of a walk does to the bytes is
said once (`Step.inside`, `Step.apart`), and by induction the leaves of a
whole type lie inside it, apart from each other, and aligned
(`leaves_inside_apart_aligned`).

Alignment passes down a walk because alignments divide one another: the
alignment of a part divides that of the whole and the place of the part,
unless the whole is packed.
-/

namespace DeviceTypes

/-- A primitive or a pointer at the end of a walk. -/
structure Leaf where
  /-- The position of the part taken at each step. -/
  path : List Nat
  offset : Nat
  layout : Layout
  /-- Whether the walk went through a packed aggregate. -/
  packed : Bool

/-- The first byte past the leaf. -/
def Leaf.stop (leaf : Leaf) : Nat := leaf.offset + leaf.layout.size

namespace Universe

/-- What the universe answers for the layout of a handle. -/
def layoutAt (u : Universe) (h : Handle) : Except Rejection Layout := ((layoutOf h).run u).1

/-- The handle stands for a type without parts in memory. -/
def Undivided (u : Universe) (h : Handle) : Prop :=
  (∃ p, u.shapeOf h = .ok (.primitive p)) ∨
    ∃ pointee space, u.shapeOf h = .ok (.compound (.pointer pointee space))

/-- A step from a type to the part at position `k`, so many bytes in; of a
union, only to the chosen member. The flag tells that the type is packed. -/
inductive Step (u : Universe) (choice : Nat) (h : Handle) : Nat → Nat → Bool → Handle → Prop
  | element {e : Handle} {n : UInt64} {l : Layout} {stride k : Nat} :
      u.shapeOf h = .ok (.compound (.array e n)) → k < n.toNat → u.layoutAt e = .ok l →
      l.stride? = some stride → Step u choice h k (k * stride) false e
  | field {a : Aggregate} {l : Layout} {k o : Nat} {m : Member} :
      u.shapeOf h = .ok (.compound (.aggregate a)) → a.kind = .struct → u.layoutAt h = .ok l →
      a.members[k]? = some m → l.offsets[k]? = some o → Step u choice h k o a.isPacked m.type
  | active {a : Aggregate} {m : Member} :
      u.shapeOf h = .ok (.compound (.aggregate a)) → a.kind = .union →
      a.members[choice]? = some m → Step u choice h choice 0 a.isPacked m.type

/-- A walk from a type at an offset to a leaf, with the active member of a
union chosen by the path to it. -/
inductive Walk (u : Universe) (active : List Nat → Nat) :
    List Nat → Nat → Bool → Handle → Leaf → Prop
  | leaf {path : List Nat} {offset : Nat} {packed : Bool} {h : Handle} {l : Layout} :
      u.Undivided h → u.layoutAt h = .ok l → Walk u active path offset packed h
        ⟨path, offset, l, packed⟩
  | step {path : List Nat} {offset k o : Nat} {packed isPacked : Bool} {h h' : Handle}
      {leaf : Leaf} :
      u.Step (active path) h k o isPacked h' →
      Walk u active (path ++ [k]) (offset + o) (packed || isPacked) h' leaf →
      Walk u active path offset packed h leaf

variable {u : Universe} {choice : Nat} {h h' : Handle} {k o : Nat} {isPacked : Bool} {l : Layout}

theorem Sound.layoutAt_eq (hu : u.Sound) (h : Handle) : u.layoutAt h = u.layoutAnew h := by
  obtain ⟨layouts, -, hr⟩ := hu.run_layoutOf h
  rw [layoutAt, hr]

/-! ## One step -/

/-- What the layout of an aggregate says of its members. -/
theorem Sound.layoutAt_aggregate (hu : u.Sound) (ht : u.target.Regular) {a : Aggregate}
    (hs : u.shapeOf h = .ok (.compound (.aggregate a))) (hl : u.layoutAt h = .ok l) :
    ∃ ls p, (a.members.map fun m => u.layoutAt m.type) = ls.map Except.ok ∧
      Placement.Holds a.kind a.isPacked ls p ∧ l.offsets = p.offsets ∧ p.stop ≤ l.size ∧
      p.natural ∣ l.align := by
  rw [shapeOf_eq_ok] at hs
  rw [hu.layoutAt_eq] at hl
  obtain ⟨s, hs', hin⟩ := hu.ordered.get?_of_layoutAnew hl
  obtain rfl := Option.some.inj (hs.symm.trans hs')
  obtain ⟨ls, p, hls, hholds, hoff, hstop, -, hdvd⟩ := Aggregate.layoutIn_eq_ok hin
    fun _ _ _ hl' => hu.ordered.regular_layoutAnew ht hl'
  refine ⟨ls, p, ?_, hholds, hoff, hstop, hdvd⟩
  simp only [hu.layoutAt_eq]
  exact hls

/-- The layout of a member by its position. -/
theorem layoutAt_member {a : Aggregate} {ls : List Layout}
    (hls : (a.members.map fun m => u.layoutAt m.type) = ls.map Except.ok) {m : Member}
    (hm : a.members[k]? = some m) : ∃ lm, ls[k]? = some lm ∧ u.layoutAt m.type = .ok lm := by
  have hk : (ls.map Except.ok)[k]? = some (u.layoutAt m.type) := by
    rw [← hls, List.getElem?_map, hm, Option.map_some]
  rw [List.getElem?_map, Option.map_eq_some_iff] at hk
  obtain ⟨lm, hlm, he⟩ := hk
  exact ⟨lm, hlm, he.symm⟩

/-- What the layout of an array says of its elements. -/
theorem Sound.layoutAt_array (hu : u.Sound) {e : Handle} {n : UInt64}
    (hs : u.shapeOf h = .ok (.compound (.array e n))) (hl : u.layoutAt h = .ok l) :
    ∃ le stride, u.layoutAt e = .ok le ∧ le.stride? = some stride ∧ l.size = stride * n.toNat ∧
      l.align = le.align := by
  rw [shapeOf_eq_ok] at hs
  rw [hu.layoutAt_eq] at hl ⊢
  obtain ⟨s, hs', hin⟩ := hu.ordered.get?_of_layoutAnew hl
  obtain rfl := Option.some.inj (hs.symm.trans hs')
  change (Compound.array e n).layoutIn u.target u.layoutAnew = .ok l at hin
  exact Compound.layoutIn_array_eq_ok hin

theorem Sound.regular (hu : u.Sound) (ht : u.target.Regular) (hl : u.layoutAt h = .ok l) :
    l.Regular := by
  rw [hu.layoutAt_eq] at hl
  exact hu.ordered.regular_layoutAnew ht hl

/-- **Every element of an array is a step away.** -/
theorem Sound.exists_step_element (hu : u.Sound) {e : Handle} {n : UInt64}
    (hs : u.shapeOf h = .ok (.compound (.array e n))) (hl : u.layoutAt h = .ok l)
    (hk : k < n.toNat) : ∃ o, u.Step choice h k o false e := by
  obtain ⟨le, stride, hle, hstride, -, -⟩ := hu.layoutAt_array hs hl
  exact ⟨k * stride, .element hs hk hle hstride⟩

/-- **So is every member of a struct**, and of a union the chosen one. -/
theorem Sound.exists_step_member (hu : u.Sound) (ht : u.target.Regular) {a : Aggregate}
    (hs : u.shapeOf h = .ok (.compound (.aggregate a))) (hl : u.layoutAt h = .ok l) {m : Member}
    (hm : a.members[k]? = some m) (hchosen : a.kind = .union → k = choice) :
    ∃ o, u.Step choice h k o a.isPacked m.type := by
  cases hkind : a.kind with
  | struct =>
    obtain ⟨ls, p, hls, hp, hoff, -, -⟩ := hu.layoutAt_aggregate ht hs hl
    obtain ⟨lm, hlm, -⟩ := layoutAt_member hls hm
    have hlt : k < l.offsets.length := by
      rw [hoff, hp.length_eq]
      exact (List.getElem?_eq_some_iff.1 hlm).1
    exact ⟨l.offsets[k], .field hs hkind hl hm (List.getElem?_eq_getElem hlt)⟩
  | union =>
    obtain rfl := hchosen hkind
    exact ⟨0, .active hs hkind hm⟩

/-- An element ends before any later one starts. -/
theorem element_apart {size stride k' : Nat} (hfit : size ≤ stride) (hlt : k < k') :
    k * stride + size ≤ k' * stride := by
  have hle : (k + 1) * stride ≤ k' * stride := Nat.mul_le_mul_right stride hlt
  rw [Nat.succ_mul] at hle
  omega

/-- **A part lies inside the whole**, and unless the whole is packed, the
part's alignment divides that of the whole and the offset of the part. -/
theorem Step.inside (hstep : u.Step choice h k o isPacked h') (hu : u.Sound)
    (ht : u.target.Regular) (hl : u.layoutAt h = .ok l) :
    ∃ l', u.layoutAt h' = .ok l' ∧ o + l'.size ≤ l.size ∧
      (isPacked = false → l'.align ∣ l.align ∧ l'.align ∣ o) := by
  rcases hstep with @⟨e, n, le, stride, k, hs, hk, hle, hstride⟩ |
    @⟨a, lh, k, o, m, hs, hkind, hlh, hm, ho⟩ | @⟨a, m, hs, hkind, hm⟩
  · obtain ⟨le', stride', hle', hstride', hsize, halign⟩ := hu.layoutAt_array hs hl
    obtain rfl := Except.ok.inj (hle.symm.trans hle')
    obtain rfl := Option.some.inj (hstride.symm.trans hstride')
    obtain ⟨hfit, hdvd⟩ := (hu.regular ht hle).stride hstride
    refine ⟨le, hle, ?_, fun _ => ⟨halign ▸ Nat.dvd_refl _, Nat.dvd_mul_left_of_dvd hdvd k⟩⟩
    rw [hsize, Nat.mul_comm stride]
    exact element_apart hfit hk
  · obtain rfl := Except.ok.inj (hl.symm.trans hlh)
    obtain ⟨ls, p, hls, hp, hoff, hstop, hdvd⟩ := hu.layoutAt_aggregate ht hs hl
    obtain ⟨lm, hlm, he⟩ := layoutAt_member hls hm
    rw [hoff] at ho
    have hfit := hp.fits k lm o hlm ho
    refine ⟨lm, he, by omega, fun hpk => ⟨?_, hp.aligned hpk k lm o hlm ho⟩⟩
    exact Nat.dvd_trans (hp.natural_dvd hpk lm (List.mem_of_getElem? hlm)) hdvd
  · obtain ⟨ls, p, hls, hp, hoff, hstop, hdvd⟩ := hu.layoutAt_aggregate ht hs hl
    obtain ⟨lm, hlm, he⟩ := layoutAt_member hls hm
    have hlt : choice < p.offsets.length := by
      rw [hp.length_eq]
      exact (List.getElem?_eq_some_iff.1 hlm).1
    have hfit := hp.fits choice lm _ hlm (List.getElem?_eq_getElem hlt)
    refine ⟨lm, he, by omega, fun hpk => ⟨?_, Nat.dvd_zero _⟩⟩
    exact Nat.dvd_trans (hp.natural_dvd hpk lm (List.mem_of_getElem? hlm)) hdvd

/-- **Two steps from a type agree or part**: they take the same part, or the
one at the smaller position ends before the other starts. -/
theorem Step.apart {k' o' : Nat} {isPacked' : Bool} {h'' : Handle}
    (hstep : u.Step choice h k o isPacked h') (hstep' : u.Step choice h k' o' isPacked' h'')
    (hu : u.Sound) (ht : u.target.Regular) {l' l'' : Layout} (hl : u.layoutAt h = .ok l)
    (hl' : u.layoutAt h' = .ok l') (hl'' : u.layoutAt h'' = .ok l'') :
    k = k' ∧ o = o' ∧ isPacked = isPacked' ∧ h' = h'' ∨
      o + l'.size ≤ o' ∨ o' + l''.size ≤ o := by
  cases hstep with
  | @element e n le stride _ hs hk hle hstride =>
    cases hstep' with
    | @element _ _ le' stride' _ hs' hk' hle' hstride' =>
      cases hs.symm.trans hs'
      obtain rfl := Except.ok.inj (hle.symm.trans hle')
      obtain rfl := Option.some.inj (hstride.symm.trans hstride')
      obtain rfl := Except.ok.inj (hle.symm.trans hl')
      obtain rfl := Except.ok.inj (hle.symm.trans hl'')
      have hfit := ((hu.regular ht hle).stride hstride).1
      rcases Nat.lt_trichotomy k k' with hlt | rfl | hlt
      · exact Or.inr (Or.inl (element_apart hfit hlt))
      · exact Or.inl ⟨rfl, rfl, rfl, rfl⟩
      · exact Or.inr (Or.inr (element_apart hfit hlt))
    | field hs' | active hs' => cases hs.symm.trans hs'
  | @field a lh _ _ m hs hkind hlh hm ho =>
    cases hstep' with
    | @field a' lh' _ _ m' hs' hkind' hlh' hm' ho' =>
      cases hs.symm.trans hs'
      obtain rfl := Except.ok.inj (hl.symm.trans hlh)
      obtain rfl := Except.ok.inj (hl.symm.trans hlh')
      obtain ⟨ls, p, hls, hp, hoff, -, -⟩ := hu.layoutAt_aggregate ht hs hl
      obtain ⟨lm, hlm, he⟩ := layoutAt_member hls hm
      obtain ⟨lm', hlm', he'⟩ := layoutAt_member hls hm'
      obtain rfl := Except.ok.inj (he.symm.trans hl')
      obtain rfl := Except.ok.inj (he'.symm.trans hl'')
      rw [hoff] at ho ho'
      rcases Nat.lt_trichotomy k k' with hlt | rfl | hlt
      · exact Or.inr (Or.inl (hp.apart hkind k k' _ o o' hlt hlm ho ho'))
      · cases hm.symm.trans hm'
        cases ho.symm.trans ho'
        exact Or.inl ⟨rfl, rfl, rfl, rfl⟩
      · exact Or.inr (Or.inr (hp.apart hkind k' k _ o' o hlt hlm' ho' ho))
    | element hs' => cases hs.symm.trans hs'
    | active hs' hkind' =>
      cases hs.symm.trans hs'
      cases hkind.symm.trans hkind'
  | @active a m hs hkind hm =>
    cases hstep' with
    | @active a' m' hs' hkind' hm' =>
      cases hs.symm.trans hs'
      cases hm.symm.trans hm'
      exact Or.inl ⟨rfl, rfl, rfl, rfl⟩
    | element hs' => cases hs.symm.trans hs'
    | field hs' hkind' =>
      cases hs.symm.trans hs'
      cases hkind.symm.trans hkind'

theorem Undivided.not_step (hund : u.Undivided h) : ¬ u.Step choice h k o isPacked h' := by
  intro hstep
  rcases hund with ⟨p, hp⟩ | ⟨pointee, space, hp⟩
  · cases hstep with
    | element hs | field hs | active hs => cases hs.symm.trans hp
  · cases hstep with
    | element hs | field hs | active hs => cases hs.symm.trans hp

/-! ## Whole walks -/

variable {active : List Nat → Nat} {path : List Nat} {offset : Nat} {packed : Bool} {leaf : Leaf}

/-- **A leaf lies inside the type it is reached from.** -/
theorem Walk.inside (hw : u.Walk active path offset packed h leaf) (hu : u.Sound)
    (ht : u.target.Regular) (hl : u.layoutAt h = .ok l) :
    offset ≤ leaf.offset ∧ leaf.stop ≤ offset + l.size := by
  induction hw generalizing l with
  | leaf _ hleaf =>
    obtain rfl := Except.ok.inj (hl.symm.trans hleaf)
    exact ⟨Nat.le_refl _, Nat.le_refl _⟩
  | step hstep _ ih =>
    obtain ⟨l', hl', hfit, -⟩ := hstep.inside hu ht hl
    obtain ⟨hle, hstop⟩ := ih hl'
    omega

/-- A walk that ends unpacked was so from the start. -/
theorem Walk.packed_le (hw : u.Walk active path offset packed h leaf) (hp : leaf.packed = false) :
    packed = false := by
  induction hw with
  | leaf _ _ => exact hp
  | step _ _ ih => exact (Bool.or_eq_false_iff.1 (ih hp)).1

/-- **A leaf is aligned**, where the type it is reached from is and no packed
aggregate comes between. -/
theorem Walk.aligned (hw : u.Walk active path offset packed h leaf) (hu : u.Sound)
    (ht : u.target.Regular) (hl : u.layoutAt h = .ok l) (hoff : l.align ∣ offset)
    (hp : leaf.packed = false) : leaf.layout.align ∣ leaf.offset := by
  induction hw generalizing l with
  | leaf _ hleaf =>
    obtain rfl := Except.ok.inj (hl.symm.trans hleaf)
    exact hoff
  | step hstep hw ih =>
    obtain ⟨l', hl', -, hdvd⟩ := hstep.inside hu ht hl
    -- the walk ends unpacked, so neither this step is packed nor any other
    obtain ⟨hwhole, hplace⟩ := hdvd (Bool.or_eq_false_iff.1 (hw.packed_le hp)).2
    exact ih hl' (Nat.dvd_add (Nat.dvd_trans hwhole hoff) hplace) hp

/-- **Two leaves of a type are the same or apart.** -/
theorem Walk.apart {leaf' : Leaf} (hw : u.Walk active path offset packed h leaf)
    (hw' : u.Walk active path offset packed h leaf') (hu : u.Sound) (ht : u.target.Regular)
    (hl : u.layoutAt h = .ok l) :
    leaf = leaf' ∨ leaf.stop ≤ leaf'.offset ∨ leaf'.stop ≤ leaf.offset := by
  induction hw generalizing l with
  | leaf hund hleaf =>
    cases hw' with
    | leaf _ hleaf' =>
      obtain rfl := Except.ok.inj (hleaf.symm.trans hleaf')
      exact Or.inl rfl
    | step hstep' _ => exact absurd hstep' hund.not_step
  | step hstep hw ih =>
    cases hw' with
    | leaf hund _ => exact absurd hstep hund.not_step
    | step hstep' hw' =>
      obtain ⟨l', hl', -, -⟩ := hstep.inside hu ht hl
      obtain ⟨l'', hl'', -, -⟩ := hstep'.inside hu ht hl
      rcases hstep.apart hstep' hu ht hl hl' hl'' with ⟨rfl, rfl, rfl, rfl⟩ | hlt | hlt
      · exact ih hw' hl'
      -- different parts of the type are apart, and each leaf lies in its part
      · have := hw.inside hu ht hl'
        have := hw'.inside hu ht hl''
        omega
      · have := hw.inside hu ht hl'
        have := hw'.inside hu ht hl''
        omega

end Universe

namespace World

open Universe

/-- **Layouts are sound memory maps at every depth.** Walk a type that has a
layout from offset zero, however the active members of its unions are
chosen. Every leaf ends within the size of the type, any two leaves are
apart, and a leaf that lies in no packed aggregate is at a multiple of its
alignment. A layout has one offset for each member, and unless packed an
alignment that each member's divides. A walk misses nothing: from a type
that has a layout there is a step to each element of an array, to each
member of a struct, and to the chosen member of a union. -/
theorem leaves_inside_apart_aligned {w : World} (hw : w.Reachable) {context : Nat} {u : Universe}
    (hu : w.universe? context = some u) (ht : u.target.Regular) :
    (∀ h l active, u.layoutAt h = .ok l →
      (∀ leaf, u.Walk active [] 0 false h leaf →
        leaf.stop ≤ l.size ∧ (leaf.packed = false → leaf.layout.align ∣ leaf.offset)) ∧
      ∀ leaf leaf', u.Walk active [] 0 false h leaf → u.Walk active [] 0 false h leaf' →
        leaf ≠ leaf' → leaf.stop ≤ leaf'.offset ∨ leaf'.stop ≤ leaf.offset) ∧
    (∀ h a l, u.shapeOf h = .ok (.compound (.aggregate a)) → u.layoutAt h = .ok l →
      l.offsets.length = a.members.length ∧
      (a.isPacked = false → ∀ m ∈ a.members, ∃ lm, u.layoutAt m.type = .ok lm ∧
        lm.align ∣ l.align)) ∧
    ∀ h l choice, u.layoutAt h = .ok l →
      (∀ e n k, u.shapeOf h = .ok (.compound (.array e n)) → k < n.toNat →
        ∃ o, u.Step choice h k o false e) ∧
      ∀ a k m, u.shapeOf h = .ok (.compound (.aggregate a)) → a.members[k]? = some m →
        (a.kind = .union → k = choice) → ∃ o, u.Step choice h k o a.isPacked m.type := by
  have hsound := hw.universe hu
  refine ⟨fun h l active hl => ⟨fun leaf hleaf => ⟨?_, ?_⟩, ?_⟩, ?_, fun h l choice hl =>
    ⟨fun e n k hs => hsound.exists_step_element hs hl,
      fun a k m hs => hsound.exists_step_member ht hs hl⟩⟩
  · have hin := hleaf.inside hsound ht hl
    omega
  · exact hleaf.aligned hsound ht hl (Nat.dvd_zero _)
  · intro leaf leaf' hleaf hleaf' hne
    rcases hleaf.apart hleaf' hsound ht hl with heq | hapart
    · exact absurd heq hne
    · exact hapart
  · intro h a l hs hl
    obtain ⟨ls, p, hls, hp, hoff, -, hdvd⟩ := hsound.layoutAt_aggregate ht hs hl
    constructor
    · have hlen := congrArg List.length hls
      rw [List.length_map, List.length_map] at hlen
      rw [hoff, hp.length_eq, hlen]
    · intro hpk m hm
      obtain ⟨k, hk⟩ := List.mem_iff_getElem?.1 hm
      obtain ⟨lm, hlm, he⟩ := layoutAt_member hls hk
      exact ⟨lm, he, Nat.dvd_trans (hp.natural_dvd hpk lm (List.mem_of_getElem? hlm)) hdvd⟩

theorem toOption_eq_some_iff {ε α : Type} {x : Except ε α} {a : α} :
    x.toOption = some a ↔ x = .ok a := by
  cases x <;> simp [Except.toOption]

/-- Two of the leaves of a struct that holds an array of unions: the byte in
front, and the wide member of the second union. -/
theorem leaves_inside_apart_aligned_array :
    ∃ (w : World) (u : Universe) (active : List Nat → Nat) (byte wide : Leaf),
      w.Reachable ∧ w.universe? 0 = some u ∧ u.target.Regular ∧
      u.layoutAt (.minted 0 2) = .ok ⟨24, 8, [0, 8]⟩ ∧
      u.Walk active [] 0 false (.minted 0 2) byte ∧
      u.Walk active [] 0 false (.minted 0 2) wide ∧
      byte.stop = 1 ∧ wide.offset = 16 ∧
      wide.stop ≤ 24 ∧ wide.layout.align ∣ wide.offset ∧
      (byte.stop ≤ wide.offset ∨ wide.stop ≤ byte.offset) := by
  have hrun : ((empty.replay [.newTable, .newContext 0 .device64,
      .ask 0 (.aggregate .union [⟨"lo", .primitive .u32⟩, ⟨"all", .primitive .f64⟩]),
      .ask 0 (.array (.minted 0 0) 2),
      .ask 0 (.aggregate {} [⟨"tag", .primitive .u8⟩, ⟨"slots", .minted 0 1⟩])]).bind fun w =>
        w.universe? 0).map (fun u => (u.target, [0, 1, 2].map fun i => u.table.get? (.minted 0 i),
          [.primitive .u8, .primitive .f64, .minted 0 0, .minted 0 2].map fun h =>
            (u.layoutAt h).toOption)) = some (.device64,
          [some (.compound (.aggregate ⟨.union, [⟨"lo", .primitive .u32⟩, ⟨"all", .primitive .f64⟩],
            .natural, .sequential, .targetDefault⟩)), some (.compound (.array (.minted 0 0) 2)),
            some (.compound (.aggregate ⟨.struct, [⟨"tag", .primitive .u8⟩,
              ⟨"slots", .minted 0 1⟩], .natural, .sequential, .targetDefault⟩))],
          [some (.scalar 1), some (.scalar 8), some ⟨8, 8, [0, 0]⟩, some ⟨24, 8, [0, 8]⟩]) := by
    decide +kernel
  obtain ⟨u, huw, hread⟩ := Option.map_eq_some_iff.1 hrun
  obtain ⟨w, hreplay, hu⟩ := Option.bind_eq_some_iff.1 huw
  simp only [List.map_cons, List.map_nil, Prod.mk.injEq, List.cons.injEq, and_true,
    toOption_eq_some_iff, ← shapeOf_eq_ok] at hread
  obtain ⟨htarget, ⟨hunion, harray, hstruct⟩, hu8, hf64, hlunion, hlstruct⟩ := hread
  have hw : w.Reachable := leads_of_replay hreplay
  have ht : u.target.Regular := htarget ▸ Target.regular_device64
  have hbyte : u.Walk (fun _ => 1) [] 0 false (.minted 0 2) ⟨[0], 0, .scalar 1, false⟩ :=
    .step (k := 0) (.field hstruct rfl hlstruct rfl rfl) (.leaf (Or.inl ⟨.u8, rfl⟩) hu8)
  have hwide : u.Walk (fun _ => 1) [] 0 false (.minted 0 2) ⟨[1, 1, 1], 16, .scalar 8, false⟩ :=
    .step (k := 1) (.field hstruct rfl hlstruct rfl rfl)
      (.step (k := 1) (.element harray (by decide) hlunion rfl)
        (.step (.active hunion rfl rfl) (.leaf (Or.inl ⟨.f64, rfl⟩) hf64)))
  obtain ⟨hall, happart⟩ :=
    (leaves_inside_apart_aligned hw hu ht).1 (.minted 0 2) _ (fun _ => 1) hlstruct
  refine ⟨w, u, _, _, _, hw, hu, ht, hlstruct, hbyte, hwide, rfl, rfl, (hall _ hwide).1,
    (hall _ hwide).2 rfl, happart _ _ hbyte hwide ?_⟩
  exact fun heq => by cases heq

end World

end DeviceTypes
