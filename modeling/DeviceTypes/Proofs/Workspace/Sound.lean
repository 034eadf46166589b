import DeviceTypes.Proofs.Universe.Sound
import DeviceTypes.Workspace
/-!
# Sound workspaces

A workspace is sound when each table knows its number and is ordered, and
each layout cache is coherent with the table and the target it belongs to.
Every operation keeps it so and lets tables only grow (`Sound.ask`,
`Sound.intern`), provided that it is passed none but issued handles:
primitives, bare words, and what some table of the workspace has minted.
The caches of all universes over a table stay coherent when one of them
makes it grow (`Sound.setTable`).
-/

namespace DeviceTypes

namespace Workspace

/-- A handle a program can have: whatever is minted was minted by a table of
the workspace. -/
def Issued (w : Workspace) (h : Handle) : Prop :=
  ∀ n i, h = .minted n i → ∃ t, w.tables[n]? = some t ∧ i < t.entries.length

instance (w : Workspace) (h : Handle) : Decidable (w.Issued h) :=
  match h with
  | .primitive _ => isTrue fun _ _ hi => by cases hi
  | .loose _ => isTrue fun _ _ hi => by cases hi
  | .minted n i =>
    decidable_of_iff (∃ t ∈ w.tables[n]?, i < t.entries.length)
      ⟨fun ⟨t, ht, hlt⟩ _ _ hi => by cases hi; exact ⟨t, ht, hlt⟩,
        fun hh => by obtain ⟨t, ht, hlt⟩ := hh n i rfl; exact ⟨t, ht, hlt⟩⟩

/-- What holds of every workspace a program can come to. -/
structure Sound (w : Workspace) : Prop where
  number_eq : ∀ (n : Nat) (t : Table), w.tables[n]? = some t → t.number = n
  ordered : ∀ (n : Nat) (t : Table), w.tables[n]? = some t → t.Ordered
  coherent : ∀ (n : Nat) (s : Site), w.sites[n]? = some s →
    ∃ t, w.tables[s.table]? = some t ∧ s.layouts.Coherent t s.target

/-- One workspace is at most another when its tables have only grown and its
universes have kept their table and their target. -/
structure Grows (w w' : Workspace) : Prop where
  table : ∀ (n : Nat) (t : Table), w.tables[n]? = some t → ∃ t', w'.tables[n]? = some t' ∧ t ≤ t'
  site : ∀ (n : Nat) (s : Site), w.sites[n]? = some s →
    ∃ s', w'.sites[n]? = some s' ∧ s'.table = s.table ∧ s'.target = s.target

theorem Grows.refl (w : Workspace) : w.Grows w :=
  ⟨fun _ t ht => ⟨t, ht, le_refl t⟩, fun _ s hs => ⟨s, hs, rfl, rfl⟩⟩

theorem Grows.trans {w w' w'' : Workspace} (h : w.Grows w') (h' : w'.Grows w'') :
    w.Grows w'' where
  table n t ht := by
    obtain ⟨t', ht', hle⟩ := h.table n t ht
    obtain ⟨t'', ht'', hle'⟩ := h'.table n t' ht'
    exact ⟨t'', ht'', le_trans hle hle'⟩
  site n s hs := by
    obtain ⟨s', hs', htab, htar⟩ := h.site n s hs
    obtain ⟨s'', hs'', htab', htar'⟩ := h'.site n s' hs'
    exact ⟨s'', hs'', htab'.trans htab, htar'.trans htar⟩

variable {w : Workspace}

/-- A handle that was issued stays so. -/
theorem Grows.issued {w' : Workspace} (hg : w.Grows w') {h : Handle} (hh : w.Issued h) :
    w'.Issued h := by
  intro n i hi
  obtain ⟨t, ht, hlt⟩ := hh n i hi
  obtain ⟨t', ht', hle⟩ := hg.table n t ht
  exact ⟨t', ht', Nat.lt_of_lt_of_le hlt (Table.length_of_le hle)⟩

/-- A handle a program can have is settled in every table. -/
theorem Sound.settled (hw : w.Sound) {h : Handle} (hh : w.Issued h) {n : Nat} {t : Table}
    (ht : w.tables[n]? = some t) : t.Settled h := by
  intro i hi
  obtain ⟨t', ht', hlt⟩ := hh t.number i hi
  rw [hw.number_eq n t ht, ht] at ht'
  rw [Option.some.inj ht']
  exact hlt

/-! ## What the calls do to a workspace -/

theorem universe?_eq_some {n : Nat} {u : Universe} (hu : w.universe? n = some u) :
    ∃ s, w.sites[n]? = some s ∧ w.tables[s.table]? = some u.table ∧
      u = ⟨n, u.table, s.target, s.layouts⟩ := by
  rw [universe?] at hu
  rcases hs : w.sites[n]? with - | s
  · simp [hs] at hu
  · rcases ht : w.tables[s.table]? with - | t
    · simp [hs, ht] at hu
    · simp only [hs, ht, Option.bind_eq_bind, Option.bind_some, Option.pure_def,
        Option.some.injEq] at hu
      subst hu
      exact ⟨s, rfl, ht, rfl⟩

/-- **A universe of a sound workspace is sound.** -/
theorem Sound.universe (hw : w.Sound) {n : Nat} {u : Universe} (hu : w.universe? n = some u) :
    u.Sound := by
  obtain ⟨s, hs, ht, he⟩ := universe?_eq_some hu
  obtain ⟨t, ht', hc⟩ := hw.coherent n s hs
  rw [ht, Option.some.injEq] at ht'
  subst ht'
  refine ⟨hw.ordered s.table u.table ht, ?_⟩
  rw [he]
  exact hc

theorem sound_empty : empty.Sound where
  number_eq n t ht := by simp [empty] at ht
  ordered n t ht := by simp [empty] at ht
  coherent n s hs := by simp [empty] at hs

theorem Sound.addTable (hw : w.Sound) : w.addTable.2.Sound where
  number_eq n t ht := by
    rcases Nat.lt_or_ge n w.tables.length with hn | hn
    · exact hw.number_eq n t (by simpa [Workspace.addTable, List.getElem?_append_left hn] using ht)
    · have hlt := (List.getElem?_eq_some_iff.1 ht).1
      simp only [Workspace.addTable, List.length_append, List.length_singleton] at hlt
      obtain rfl : n = w.tables.length := by omega
      simp only [Workspace.addTable, List.getElem?_concat_length, Option.some.injEq] at ht
      rw [← ht]
      rfl
  ordered n t ht := by
    rcases List.mem_append.1 (List.mem_of_getElem? ht) with h | h
    · obtain ⟨m, hm⟩ := List.mem_iff_getElem?.1 h
      exact hw.ordered m t hm
    · rw [List.mem_singleton.1 h]
      exact Table.ordered_empty _
  coherent n s hs := by
    obtain ⟨t, ht, hc⟩ := hw.coherent n s hs
    refine ⟨t, ?_, hc⟩
    have hlt := (List.getElem?_eq_some_iff.1 ht).1
    simpa [Workspace.addTable, List.getElem?_append_left hlt] using ht

theorem grows_addTable (w : Workspace) : w.Grows w.addTable.2 where
  table n t ht := by
    have hlt := (List.getElem?_eq_some_iff.1 ht).1
    exact ⟨t, by simpa [addTable, List.getElem?_append_left hlt] using ht, le_refl t⟩
  site n s hs := ⟨s, hs, rfl, rfl⟩

theorem Sound.addUniverse (hw : w.Sound) {n : Nat} (hn : n < w.tables.length) (target : Target) :
    (w.addUniverse n target).2.Sound where
  number_eq := hw.number_eq
  ordered := hw.ordered
  coherent m s hs := by
    rcases List.mem_append.1 (List.mem_of_getElem? hs) with h | h
    · obtain ⟨k, hk⟩ := List.mem_iff_getElem?.1 h
      exact hw.coherent k s hk
    · rw [List.mem_singleton.1 h]
      exact ⟨w.tables[n], List.getElem?_eq_getElem hn, LayoutCache.coherent_empty _ _⟩

theorem grows_addUniverse (w : Workspace) (n : Nat) (target : Target) :
    w.Grows (w.addUniverse n target).2 where
  table n t ht := ⟨t, ht, le_refl t⟩
  site n s hs := by
    have hlt := (List.getElem?_eq_some_iff.1 hs).1
    exact ⟨s, by simpa [addUniverse, List.getElem?_append_left hlt] using hs, rfl, rfl⟩

theorem getElem?_set_table {n : Nat} {t : Table} (ht : w.tables[n]? = some t) (t' : Table)
    (m : Nat) : (w.tables.set n t')[m]? = if n = m then some t' else w.tables[m]? := by
  rw [List.getElem?_set]
  split
  · rw [if_pos (List.getElem?_eq_some_iff.1 ht).1]
  · rfl

/-- Putting a larger table in the place of one keeps a workspace sound: the
caches over it are coherent with whatever it grows to. -/
theorem Sound.setTable (hw : w.Sound) {n : Nat} {t t' : Table} (ht : w.tables[n]? = some t)
    (hle : t ≤ t') (ho : t'.Ordered) : Sound { w with tables := w.tables.set n t' } where
  number_eq m x hx := by
    rw [getElem?_set_table ht] at hx
    split at hx
    · rename_i hnm
      rw [← Option.some.inj hx, Table.number_of_le hle, hw.number_eq n t ht, hnm]
    · exact hw.number_eq m x hx
  ordered m x hx := by
    rw [getElem?_set_table ht] at hx
    split at hx
    · rw [← Option.some.inj hx]
      exact ho
    · exact hw.ordered m x hx
  coherent m s hs := by
    obtain ⟨x, hx, hc⟩ := hw.coherent m s hs
    -- the cache belongs to the table that grew, or to another one
    by_cases hn : n = s.table
    · subst hn
      obtain rfl : x = t := by rw [ht] at hx; exact (Option.some.inj hx).symm
      exact ⟨t', by rw [getElem?_set_table ht, if_pos rfl], hc.of_le (hw.ordered _ x ht) ho hle⟩
    · exact ⟨x, by rw [getElem?_set_table ht, if_neg hn, hx], hc⟩

theorem grows_setTable {n : Nat} {t t' : Table} (ht : w.tables[n]? = some t) (hle : t ≤ t') :
    w.Grows { w with tables := w.tables.set n t' } where
  table m x hx := by
    by_cases hn : n = m
    · subst hn
      obtain rfl : x = t := by rw [ht] at hx; exact (Option.some.inj hx).symm
      exact ⟨t', by rw [getElem?_set_table ht, if_pos rfl], hle⟩
    · exact ⟨x, by rw [getElem?_set_table ht, if_neg hn, hx], le_refl x⟩
  site m s hs := ⟨s, hs, rfl, rfl⟩

/-- So does giving one universe other coherent layouts. -/
theorem Sound.setLayouts (hw : w.Sound) {n : Nat} {s : Site} {t : Table} {layouts : LayoutCache}
    (hs : w.sites[n]? = some s) (ht : w.tables[s.table]? = some t)
    (hc : layouts.Coherent t s.target) :
    Sound { w with sites := w.sites.modify n fun site => { site with layouts } } where
  number_eq := hw.number_eq
  ordered := hw.ordered
  coherent m x hx := by
    rw [List.getElem?_modify, Option.map_eq_map, Option.map_eq_some_iff] at hx
    obtain ⟨y, hy, rfl⟩ := hx
    by_cases hn : n = m
    · subst hn
      obtain rfl : y = s := by rw [hs] at hy; exact (Option.some.inj hy).symm
      exact ⟨t, by simpa using ht, by simpa using hc⟩
    · simpa [hn] using hw.coherent m y hy

theorem grows_setLayouts (w : Workspace) (n : Nat) (layouts : LayoutCache) :
    w.Grows { w with sites := w.sites.modify n fun site => { site with layouts } } where
  table m t ht := ⟨t, ht, le_refl t⟩
  site m s hs := by
    refine ⟨if n = m then { s with layouts } else s, ?_, ?_, ?_⟩
    · rw [List.getElem?_modify, hs]
      rfl
    · split <;> rfl
    · split <;> rfl

/-- **Putting a universe back**: a workspace stays sound and only grows when
what is put back is what was taken, grown. -/
theorem Sound.put (hw : w.Sound) {n : Nat} {u u' : Universe} (hu : w.universe? n = some u)
    (hle : u ≤ u') (hs' : u'.Sound) : (w.put u').Sound ∧ w.Grows (w.put u') := by
  obtain ⟨s, hs, ht, he⟩ := universe?_eq_some hu
  -- `u'` still bears the numbers of `u`, so it goes back to where `u` came from
  have hnum : u'.table.number = s.table := by
    rw [Table.number_of_le (Universe.table_of_le hle), hw.number_eq s.table u.table ht]
  have htarget : u'.target = s.target := by
    rw [Universe.target_of_le hle, he]
  have hn : u'.number = n := by
    rw [hle.1, he]
  have hset := hw.setTable ht (Universe.table_of_le hle) hs'.ordered
  have ht' : (w.tables.set s.table u'.table)[s.table]? = some u'.table := by
    rw [getElem?_set_table ht, if_pos rfl]
  have hc : u'.layouts.Coherent u'.table s.target := htarget ▸ hs'.coherent
  rw [Workspace.put, hnum, hn]
  exact ⟨hset.setLayouts hs ht' hc,
    (grows_setTable ht (Universe.table_of_le hle)).trans (grows_setLayouts _ n u'.layouts)⟩

/-- A universe of a workspace that grows is there still, with its target and a
larger table. -/
theorem Grows.universe? {w' : Workspace} (hg : w.Grows w') {n : Nat} {u : Universe}
    (hu : w.universe? n = some u) : ∃ u', w'.universe? n = some u' ∧ u ≤ u' := by
  obtain ⟨s, hs, ht, he⟩ := universe?_eq_some hu
  obtain ⟨s', hs', htable, htarget⟩ := hg.site n s hs
  obtain ⟨t', ht', hle⟩ := hg.table s.table u.table ht
  refine ⟨⟨n, t', s'.target, s'.layouts⟩, ?_, ?_⟩
  · simp [Workspace.universe?, hs', htable, ht']
  · rw [he]
    exact ⟨rfl, htarget, hle⟩

/-- A universe over the table numbered `n` has that table. -/
theorem Sound.table_eq (hw : w.Sound) {m n : Nat} {u : Universe} (hu : w.universe? m = some u)
    (hn : u.table.number = n) : w.tables[n]? = some u.table := by
  obtain ⟨s, -, ht, -⟩ := universe?_eq_some hu
  have hs : s.table = n := (hw.number_eq s.table u.table ht).symm.trans hn
  rwa [hs] at ht

/-- A universe put back changes the table that bears its table's number, and no
other. -/
theorem Sound.tables_put (hw : w.Sound) {m : Nat} {u u' : Universe} (hu : w.universe? m = some u)
    (hle : u ≤ u') (n : Nat) :
    (w.put u').tables[n]? = if u.table.number = n then some u'.table else w.tables[n]? := by
  obtain ⟨s, -, ht, -⟩ := universe?_eq_some hu
  have hnum : u.table.number = s.table := hw.number_eq s.table u.table ht
  have hnum' : u'.table.number = s.table :=
    (Table.number_of_le (Universe.table_of_le hle)).trans hnum
  rw [Workspace.put, hnum', hnum, getElem?_set_table ht]

/-- **Every universe over a table sees it grow** when one of them is put back. -/
theorem Sound.universe?_put (hw : w.Sound) {m m' n : Nat} {u u' v : Universe}
    (hu : w.universe? m = some u) (hle : u ≤ u') (hu' : u'.Sound) (hv : w.universe? m' = some v)
    (hn : u.table.number = n) (hn' : v.table.number = n) :
    ∃ v', (w.put u').universe? m' = some v' ∧ v ≤ v' ∧ v'.Sound ∧ v'.table = u'.table := by
  obtain ⟨hsound, hgrows⟩ := hw.put hu hle hu'
  obtain ⟨v', hv', hvle⟩ := hgrows.universe? hv
  have hnum' : v'.table.number = n := (Table.number_of_le (Universe.table_of_le hvle)).trans hn'
  have ht : (w.put u').tables[n]? = some u'.table := by
    rw [hw.tables_put hu hle, if_pos hn]
  have ht' := hsound.table_eq hv' hnum'
  rw [ht] at ht'
  exact ⟨v', hv', hvle, hsound.universe hv', (Option.some.inj ht').symm⟩

/-- **A request to a universe** keeps a workspace sound. -/
theorem Sound.ask (hw : w.Sound) {n : Nat} {r : Request} (hr : ∀ h ∈ r.handles, w.Issued h)
    {a : r.Answer} {events : List MintEvent} {w' : Workspace}
    (hask : w.ask n r = some (a, events, w')) : w'.Sound ∧ w.Grows w' := by
  rw [Workspace.ask, Option.map_eq_some_iff] at hask
  obtain ⟨u, hu, he⟩ := hask
  obtain ⟨s, hs, ht, -⟩ := universe?_eq_some hu
  obtain ⟨hsound, hle⟩ := (hw.universe hu).perform fun h hh => hw.settled (hr h hh) ht
  have hw' : w' = w.put (u.perform r).2.2 := by
    simp only [Prod.mk.injEq] at he
    exact he.2.2.symm
  rw [hw']
  exact hw.put hu hle hsound

/-- **Interning a shape as it is** keeps a workspace sound. -/
theorem Sound.intern (hw : w.Sound) {n : Nat} {s : Shape} (hs : ∀ h ∈ s.parts, w.Issued h)
    {h : Handle} {w' : Workspace} (hi : w.intern n s = some (h, w')) : w'.Sound ∧ w.Grows w' := by
  rw [Workspace.intern, Option.map_eq_some_iff] at hi
  obtain ⟨t, ht, he⟩ := hi
  have hw' : w' = { w with tables := w.tables.set n (t.intern s).2 } := by
    simp only [Prod.mk.injEq] at he
    exact he.2.symm
  have hle := Table.le_intern t s
  rw [hw']
  exact ⟨hw.setTable ht hle ((hw.ordered n t ht).intern fun x hx => hw.settled (hs x hx) ht),
    grows_setTable ht hle⟩

end Workspace

end DeviceTypes
