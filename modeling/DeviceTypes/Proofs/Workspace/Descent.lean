import DeviceTypes.Proofs.Layout.Levels
import DeviceTypes.Proofs.Table.Descent
import DeviceTypes.Proofs.Tree.Basic
import DeviceTypes.Proofs.Workspace.History
/-!
# Parts come before wholes

Interning checks nothing, so a table may be given shapes that mention any
handle a program can have: bare words, handles of other tables, and its
own. Of its own handles there are only those it has minted. What a call
does to the tables is said once (`tables_run`). It adds one entry to a
table at most, of handles that exist by then (`Reachable.gains_run`), so
whatever of its own an entry mentions was minted at an earlier time, when
the entry was not there (`Reachable.exists_before`).

That is all that keeps types from containing themselves. Layouts and texts
are worked out by descents that look neither for a circle nor at their
depth, and that end because mentions do (`parts_minted_before`).
-/

namespace DeviceTypes

/-- The table gains one compound at most, of parts that are settled before. -/
inductive Table.Gains (t : Table) : Table → Prop
  | none : t.Gains t
  | one {c : Compound} : (∀ x ∈ c.parts, t.Settled x) → t.Gains (t.adding c)

theorem Table.gains_intern {t : Table} {s : Shape} (hs : ∀ x ∈ s.parts, t.Settled x) :
    t.Gains (t.intern s).2 := by
  cases s with
  | primitive p => exact .none
  | compound c => exact .one hs

namespace Universe

variable {u : Universe}

theorem Sound.gains_mint (hu : u.Sound) {c : Compound} (hc : ∀ x ∈ c.parts, u.table.Settled x) :
    u.table.Gains ((Universe.mint c).run u).2.table := by
  rcases hl : c.layoutIn u.target u.layoutAnew with e | l
  · obtain ⟨layouts, -, hr⟩ := hu.run_mint_of_error hl
    rw [hr]
    exact .none
  · obtain ⟨layouts, -, hr⟩ := hu.run_mint_of_ok hc hl
    rw [hr]
    exact .one hc

/-- **A request adds at most one compound to the table**, of settled parts. -/
theorem Sound.gains_perform (hu : u.Sound) {r : Request}
    (hr : ∀ h ∈ r.handles, u.table.Settled h) : u.table.Gains (u.perform r).2.2.table := by
  cases r with
  | pointer pointee space =>
    change u.table.Gains ((Universe.pointer pointee space).run u).2.table
    rw [run_pointer]
    split
    · exact .one (c := .pointer pointee space) hr
    · exact .none
  | array element length => exact hu.gains_mint (c := .array element length) hr
  | aggregate policy members =>
    change u.table.Gains ((Universe.aggregate policy members).run u).2.table
    rw [run_aggregate]
    split
    · exact hu.gains_mint (c := .aggregate (policy.aggregate members)) hr
    · exact .none
  | layoutOf h =>
    obtain ⟨layouts, -, hrun⟩ := hu.run_layoutOf h
    change u.table.Gains ((Universe.layoutOf h).run u).2.table
    rw [hrun]
    exact .none
  | intern s => exact Table.gains_intern hr
  | shapeOf h | passedByReference h | spell h | contains h | find? s => exact .none

end Universe

namespace Workspace.Sound

variable {w w' : Workspace} {n : Nat}

/-- Interning puts in the place of a table what it grows to. -/
theorem tables_intern (hw : w.Sound) {s : Shape} {h : Handle} (hs : ∀ x ∈ s.parts, w.Issued x)
    (hi : w.intern n s = some (h, w')) :
    ∃ t t', w.tables[n]? = some t ∧ t.Gains t' ∧ w'.tables = w.tables.set n t' := by
  obtain ⟨t, ht, heq⟩ := Option.map_eq_some_iff.1 hi
  obtain ⟨-, rfl⟩ := Prod.ext_iff.1 heq
  exact ⟨t, _, ht, Table.gains_intern fun x hx => hw.settled (hs x hx) ht, rfl⟩

/-- So does a request, of the table of the universe that it is put to. -/
theorem tables_ask (hw : w.Sound) {r : Request} {a : r.Answer} {events : List MintEvent}
    (hr : ∀ x ∈ r.handles, w.Issued x) (ha : w.ask n r = some (a, events, w')) :
    ∃ m t t', w.tables[m]? = some t ∧ t.Gains t' ∧ w'.tables = w.tables.set m t' := by
  obtain ⟨u, hu, heq⟩ := Option.map_eq_some_iff.1 ha
  have hw' : w' = w.put (u.perform r).2.2 := by
    simp only [Prod.mk.injEq] at heq
    exact heq.2.2.symm
  have hsound := hw.universe hu
  have htable := hw.table_eq hu rfl
  have hsettled : ∀ x ∈ r.handles, u.table.Settled x := fun x hx => hw.settled (hr x hx) htable
  have hnumber : (u.perform r).2.2.table.number = u.table.number :=
    Table.number_of_le (Universe.table_of_le (hsound.perform hsettled).2)
  refine ⟨u.table.number, u.table, _, htable, hsound.gains_perform hsettled, ?_⟩
  rw [hw', Workspace.put, hnumber]

end Workspace.Sound

namespace World

variable {w w' : World} {n : Nat} {t : Table}

/-- **What a call does to the tables of a program**: nothing, or it adds an empty
one, or it puts in the place of one what that gains. -/
theorem tables_run (hw : w.workspace.Sound) {call : Call}
    (hc : ∀ h ∈ call.handles, w.workspace.Issued h) :
    (w.run call).workspace.tables = w.workspace.tables ∨
    (w.run call).workspace.tables = w.workspace.tables ++ [.empty w.workspace.tables.length] ∨
    ∃ n t t', w.workspace.tables[n]? = some t ∧ t.Gains t' ∧
      (w.run call).workspace.tables = w.workspace.tables.set n t' := by
  cases call with
  | newTable => exact Or.inr (Or.inl rfl)
  | newContext table target =>
    rw [run]
    split <;> exact Or.inl rfl
  | clone context =>
    rw [run]
    split <;> exact Or.inl rfl
  | intern table s =>
    rw [run]
    split
    · rename_i h workspace hi
      exact Or.inr (Or.inr ⟨table, hw.tables_intern hc hi⟩)
    · exact Or.inl rfl
  | ask context r =>
    rw [run]
    split
    · rename_i a events workspace hask
      obtain ⟨m, -, ha⟩ := Option.bind_eq_some_iff.1 hask
      exact Or.inr (Or.inr (hw.tables_ask hc ha))
    · exact Or.inl rfl

/-- **A call adds at most one compound to a table**, and none to one it makes; the
parts of what it adds are settled before. -/
theorem Reachable.gains_run (hw : w.Reachable) {call : Call}
    (hc : ∀ h ∈ call.handles, w.workspace.Issued h)
    (ht : (w.run call).workspace.tables[n]? = some t) :
    t.entries = [] ∨ ∃ t₀, w.workspace.tables[n]? = some t₀ ∧ t₀.Gains t := by
  rcases tables_run hw.sound hc with heq | heq | ⟨m, t₀, t', ht₀, hg, heq⟩
  · rw [heq] at ht
    exact Or.inr ⟨t, ht, .none⟩
  · rw [heq] at ht
    rcases Nat.lt_or_ge n w.workspace.tables.length with hn | hn
    · rw [List.getElem?_append_left hn] at ht
      exact Or.inr ⟨t, ht, .none⟩
    · rw [List.getElem?_append_right hn] at ht
      rw [List.mem_singleton.1 (List.mem_of_getElem? ht)]
      exact Or.inl rfl
  · rw [heq, Workspace.getElem?_set_table ht₀] at ht
    split at ht
    · rename_i hm
      obtain rfl := Option.some.inj ht
      exact Or.inr ⟨t₀, hm ▸ ht₀, hg⟩
    · exact Or.inr ⟨t, ht, .none⟩

/-- **An entry came when its parts were there.** -/
theorem Reachable.exists_before (hw : w.Reachable) (ht : w.workspace.tables[n]? = some t)
    {c : Compound} (hc : c ∈ t.entries) :
    ∃ (w₀ : World) (t₀ : Table), w₀.Reachable ∧ w₀.Leads w ∧
      w₀.workspace.tables[n]? = some t₀ ∧ c ∉ t₀.entries ∧ ∀ x ∈ c.parts, t₀.Settled x := by
  induction hw generalizing t with
  | refl => cases ht
  | call call hl hissued ih =>
    rename_i w₁
    rcases Reachable.gains_run hl hissued ht with hempty | ⟨t₁, ht₁, hgains⟩
    · rw [hempty] at hc
      cases hc
    cases hgains with
    | none =>
      obtain ⟨w₀, t₀, hw₀, hl₀, hbefore⟩ := ih ht₁ hc
      exact ⟨w₀, t₀, hw₀, hl₀.call call hissued, hbefore⟩
    | one hd =>
      -- the entry was there before this call, or this call has added it
      by_cases hc₁ : c ∈ t₁.entries
      · obtain ⟨w₀, t₀, hw₀, hl₀, hbefore⟩ := ih ht₁ hc₁
        exact ⟨w₀, t₀, hw₀, hl₀.call call hissued, hbefore⟩
      · obtain rfl := (Table.mem_entries_adding.1 hc).resolve_left hc₁
        exact ⟨w₁, t₁, hl, Leads.refl.call call hissued, ht₁, hc₁, hd⟩

/-- **Parts are minted before the types they are in, so every descent ends.** However
many tables there are and whatever was interned in them, of the table numbered
`n`:

* what an entry mentions of the table's own handles comes before it, and was
  minted at a time when the entry was not there;
* no type contains itself, and there is no endless descent; from any handle a
  descent takes no more steps than the table has compounds, and the handle
  unfolds into the tree of its parts;
* the text of every handle, and its layout under any target whatever the cache
  holds, are worked out with no more calls under way at once than the table has
  compounds and one. -/
theorem parts_minted_before (hw : w.Reachable) (ht : w.workspace.tables[n]? = some t) :
    (∀ (i : Nat) (c : Compound), t.entries[i]? = some c →
      ∀ j, Handle.minted t.number j ∈ c.parts → j < i ∧
        ∃ (w₀ : World) (t₀ : Table), w₀.Reachable ∧ w₀.Leads w ∧
          w₀.workspace.tables[n]? = some t₀ ∧ t₀.contains (.minted t.number j) = true ∧
          c ∉ t₀.entries) ∧
    ((∀ h, ¬ Relation.TransGen t.Mentions h h) ∧ (WellFounded fun x h => t.Mentions h x) ∧
      ∀ h, (∀ xs, List.IsChain t.Mentions (h :: xs) → xs.length ≤ t.entries.length) ∧
        t.unfold h =
          match t.get? h with
          | none => .unknown h
          | some s => s.tree t.unfold) ∧
    ∀ h levels, t.entries.length + 1 ≤ levels →
      t.spellWithin levels h = some (t.spell h) ∧
      ∀ target cache, (t.layoutWithin target levels h).run.run cache =
        some ((t.layoutOf target h).run.run cache) := by
  have ho : t.Ordered := hw.sound.ordered n t ht
  refine ⟨fun i c hi j hj => ⟨ho i c hi _ hj j rfl, ?_⟩, ⟨ho.not_transGen_mentions,
    ho.wellFounded_mentions, fun h => ⟨fun xs => ho.length_le_of_isChain, ho.unfold_eq h⟩⟩,
    fun h levels hl => ⟨ho.spellWithin_eq h hl, fun target => ho.layoutWithin_eq target h hl⟩⟩
  obtain ⟨w₀, t₀, hw₀, hl₀, ht₀, hc₀, hsettled⟩ := hw.exists_before ht (List.mem_of_getElem? hi)
  refine ⟨w₀, t₀, hw₀, hl₀, ht₀, ?_, hc₀⟩
  have hnumber : t.number = t₀.number :=
    (hw.sound.number_eq n t ht).trans (hw₀.sound.number_eq n t₀ ht₀).symm
  rw [hnumber] at hj ⊢
  exact decide_eq_true ⟨rfl, hsettled _ hj j rfl⟩

/-- A union of an array, of a handle of another table and of a bare word is interned
unchecked, and a pointer to it. Its text takes all the levels that the bound
allows, and no fewer will do. -/
theorem parts_minted_before_mixed :
    ∃ (w : World) (t : Table), w.Reachable ∧ w.workspace.tables[0]? = some t ∧
      t.entries.length = 3 ∧ t.Mentions (.minted 0 2) (.minted 0 1) ∧
      (∃ (w₀ : World) (t₀ : Table), w₀.Leads w ∧ w₀.workspace.tables[0]? = some t₀ ∧
        t₀.contains (.minted 0 1) = true ∧ .pointer (.minted 0 1) .shared ∉ t₀.entries) ∧
      ¬ Relation.TransGen t.Mentions (.minted 0 2) (.minted 0 2) ∧
      t.spellWithin 4 (.minted 0 2) = some (t.spell (.minted 0 2)) ∧
      t.spellWithin 3 (.minted 0 2) = none := by
  let word : LooseWord := ⟨0x60000012, by decide⟩
  let calls : List Call := [.newTable, .newTable,
    .intern 0 (.compound (.array (.primitive .u16) 3)),
    .intern 1 (.compound (.pointer (.minted 0 0) .generic)),
    .intern 0 (.compound (.aggregate ⟨.union,
      [⟨"own", .minted 0 0⟩, ⟨"far", .minted 1 0⟩, ⟨"word", .loose word⟩], .natural, .sequential,
      .targetDefault⟩)),
    .intern 0 (.compound (.pointer (.minted 0 1) .shared))]
  obtain ⟨w, hreplay⟩ : ∃ w, World.empty.replay calls = some w := ⟨_, rfl⟩
  have hw : w.Reachable := leads_of_replay hreplay
  obtain ⟨t, ht⟩ : ∃ t, w.workspace.tables[0]? = some t := by
    cases hreplay
    exact ⟨_, rfl⟩
  obtain ⟨hbefore, ⟨hcircle, -⟩, hends⟩ := parts_minted_before hw ht
  have hnumber : t.number = 0 := hw.sound.number_eq 0 t ht
  have hlength : t.entries.length = 3 := by
    cases hreplay
    cases ht
    rfl
  have hentry : t.entries[2]? = some (.pointer (.minted 0 1) .shared) := by
    cases hreplay
    cases ht
    rfl
  obtain ⟨-, w₀, t₀, -, hl₀, ht₀, hc₀, hnew⟩ := hbefore 2 _ hentry 1 (by
    rw [hnumber]
    exact List.mem_singleton.2 rfl)
  rw [hnumber] at hc₀
  refine ⟨w, t, hw, ht, hlength, ?_, ⟨w₀, t₀, hl₀, ht₀, hc₀, hnew⟩, hcircle _, (hends _ 4 ?_).1, ?_⟩
  · refine ⟨.compound (.pointer (.minted 0 1) .shared), ?_, List.mem_singleton.2 rfl⟩
    cases hreplay
    cases ht
    rfl
  · rw [hlength]
  · cases hreplay
    cases ht
    rfl

end World

end DeviceTypes
