import DeviceTypes.Proofs.Table.WellFormed
/-!
# Texts without a fallback

The text of a handle has a fallback for what it cannot write out: a handle
that the table does not know, a handle that reads as a primitive without
being one, and a descent that runs out of levels. `spell?` writes the same
text and answers nothing where any of these comes up, at any depth. In a
well-formed table it always answers (`WellFormed.spell?_eq`).
-/

namespace DeviceTypes

theorem Aggregate.spellMembers_congr {f g : Handle → String} {members : List Member}
    (h : ∀ m ∈ members, f m.type = g m.type) : spellMembers f members = spellMembers g members := by
  have hmap : members.map (Member.spell f) = members.map (Member.spell g) := by
    refine List.map_congr_left fun m hm => ?_
    rw [Member.spell, Member.spell, h m hm]
  cases members with
  | nil => rfl
  | cons m rest => rw [spellMembers, spellMembers, hmap] <;> simp

/-- The text of a compound is made from the texts of its parts. -/
theorem Compound.spell_congr {f g : Handle → String} {c : Compound}
    (h : ∀ x ∈ c.parts, f x = g x) : c.spell f = c.spell g := by
  cases c with
  | pointer pointee space =>
    have hp := h pointee (List.mem_singleton.2 rfl)
    cases space <;> simp only [spell, hp]
  | array element length => simp only [spell, h element (List.mem_singleton.2 rfl)]
  | aggregate a =>
    have hm : ∀ m ∈ a.members, f m.type = g m.type :=
      fun m hm => h m.type (List.mem_map_of_mem hm)
    simp only [spell, Aggregate.spellMembers_congr hm]

/-- The text of a compound, nothing where a part has none. -/
def Compound.spell? (inner : Handle → Option String) (c : Compound) : Option String :=
  if ∀ h ∈ c.parts, (inner h).isSome then some (c.spell fun h => (inner h).getD "") else none

theorem Compound.spell?_eq {inner : Handle → Option String} {f : Handle → String} {c : Compound}
    (h : ∀ x ∈ c.parts, inner x = some (f x)) : c.spell? inner = some (c.spell f) := by
  have hsome : ∀ x ∈ c.parts, (inner x).isSome := by
    intro x hx
    rw [h x hx]
    rfl
  have hsame : c.spell (fun x => (inner x).getD "") = c.spell f := by
    refine Compound.spell_congr fun x hx => ?_
    rw [h x hx]
    rfl
  rw [spell?, if_pos hsome, hsame]

namespace Table

/-- The text of a handle, nothing where a fallback would be written or where it
goes down more levels than these. -/
def spellBelow? (t : Table) : Nat → Handle → Option String
  | 0, _ => none
  | depth + 1, h =>
    match h.primitive? with
    | some p => some p.name
    | none =>
      match t.get? h with
      | some (.compound c) => c.spell? (spellBelow? t depth)
      | some (.primitive _) | none => none

/-- The text of a handle, nothing where a fallback would be written. -/
def spell? (t : Table) (h : Handle) : Option String := t.spellBelow? t.depth h

variable {t : Table} {widths : Vector UInt32 5}

/-- Where all entries mention known handles, no level of the text falls back. -/
theorem WellFormed.spellBelow?_eq (hw : t.WellFormed widths) (ho : t.Ordered) {depth : Nat}
    {h : Handle} (hc : t.contains h = true) (hd : t.rank h < depth) :
    t.spellBelow? depth h = some (t.spellBelow depth h) := by
  induction depth generalizing h with
  | zero => omega
  | succ depth ih =>
    rw [spellBelow?, spellBelow]
    cases h with
    | primitive p => rfl
    | loose w => cases hc
    | minted n i =>
      obtain ⟨s, hs⟩ : ∃ s, t.get? (.minted n i) = some s := by
        rw [contains_eq_isSome_get?, Option.isSome_iff_exists] at hc
        exact hc
      have hcompound : ∃ c, s = .compound c := by
        simp only [get?, Option.ite_none_right_eq_some, Option.map_eq_some_iff] at hs
        obtain ⟨-, c, -, rfl⟩ := hs
        exact ⟨c, rfl⟩
      obtain ⟨c, rfl⟩ := hcompound
      simp only [Handle.primitive?, hs]
      refine Compound.spell?_eq fun x hx => ih ?_ ?_
      · exact hw.parts c (mem_entries_of_get? hs) x hx
      · have := ho.rank_lt hs hx
        omega

/-- **Every known handle is written out in full** in a well-formed table. -/
theorem WellFormed.spell?_eq (hw : t.WellFormed widths) (ho : t.Ordered) {h : Handle}
    (hc : t.contains h = true) : t.spell? h = some (t.spell h) :=
  hw.spellBelow?_eq ho hc (rank_lt_depth t h)

end Table

end DeviceTypes
