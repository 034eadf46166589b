import DeviceTypes.Proofs.Workspace.History
/-!
# Layout caches along a history

A layout cache has several writers: minting an array or an aggregate,
asking for a layout, and every layout found on the way, also where the
request fails in the end. Clones of a context write into one cache, and
contexts over one table into different ones. None of this shows in an
answer. Every cache holds nothing but layouts worked out anew, so a
context answers as a context opened just now over the same table and
target would, and it never changes an answer (`layoutOf_eq_layoutAnew`).
-/

namespace DeviceTypes

namespace World

variable {w w' : World} {context : Nat} {u : Universe}

/-- A context answers with the layout worked out anew. -/
theorem Reachable.answer_layoutOf (hw : w.Reachable) (hu : w.universe? context = some u)
    (h : Handle) : w.answer context (.layoutOf h) = some (u.layoutAnew h) := by
  rw [answer_eq hu, (hw.universe hu).perform_layoutOf]
  rfl

/-- A context opened over a table has that table, its own target, and an empty
cache. -/
theorem universe?_run_newContext {n : Nat} {t : Table} (ht : w.workspace.tables[n]? = some t)
    (target : Target) :
    (w.run (.newContext n target)).universe? w.contexts.length =
      some ⟨w.workspace.sites.length, t, target, .empty⟩ := by
  have hlt : n < w.workspace.tables.length := (List.getElem?_eq_some_iff.1 ht).1
  rw [run, if_pos hlt]
  simp [universe?, Workspace.universe?, Workspace.addUniverse, ht]

/-- The same, over the table of another context. -/
theorem Reachable.universe?_newContext (hw : w.Reachable) (hu : w.universe? context = some u)
    (target : Target) :
    (w.run (.newContext u.table.number target)).universe? w.contexts.length =
      some ⟨w.workspace.sites.length, u.table, target, .empty⟩ := by
  obtain ⟨n, -, hn⟩ := Option.bind_eq_some_iff.1 hu
  exact universe?_run_newContext (hw.sound.table_eq hn rfl) target

/-- **Layout caches are coherent along every history.** Each entry of a
context's cache is the layout that the layout rule gives for the current
table and the context's target without any cache. Hence a context answers
for a handle as a new context over its table with its target does, and
however the history goes on, it answers so again. -/
theorem layoutOf_eq_layoutAnew (hw : w.Reachable) (hu : w.universe? context = some u) :
    (∀ h, u.layoutAnew h =
      match u.table.get? h with
      | none => .error (.unknownHandle h)
      | some s => s.layoutIn u.target u.layoutAnew) ∧
    (∀ h l, u.layouts.find? h = some l → u.layoutAnew h = .ok l) ∧
    ∀ h, w.workspace.Issued h →
      w.answer context (.layoutOf h) = some (u.layoutAnew h) ∧
      (w.run (.newContext u.table.number u.target)).answer w.contexts.length (.layoutOf h) =
        w.answer context (.layoutOf h) ∧
      ∀ w', w.Leads w' →
        w'.answer context (.layoutOf h) = w.answer context (.layoutOf h) := by
  have hsound := hw.universe hu
  refine ⟨hsound.ordered.layoutAnew_eq u.target, hsound.coherent, fun h hh => ⟨?_, ?_, ?_⟩⟩
  · exact hw.answer_layoutOf hu h
  · -- the new context starts with an empty cache over the very same table
    have hnew : (w.run (.newContext u.table.number u.target)).Reachable :=
      Leads.call _ hw fun x hx => absurd hx List.not_mem_nil
    rw [hnew.answer_layoutOf (hw.universe?_newContext hu u.target), hw.answer_layoutOf hu]
  · -- by then the table may have grown, which no settled handle notices
    intro w' hl
    obtain ⟨u', hu', hle⟩ := hl.universe? hw.sound hu
    have hw' : w'.Reachable := hw.trans hl
    rw [hw'.answer_layoutOf hu', hw.answer_layoutOf hu, Universe.layoutAnew,
      Universe.target_of_le hle, hsound.ordered.layoutAnew_of_le (hw'.universe hu').ordered
        (Universe.table_of_le hle) (hw.settled hu hh)]

/-- A clone of the context that minted an array answers for it as a new context
does, and still does once a pointer to it has been minted. -/
theorem layoutOf_eq_layoutAnew_array :
    ∃ w : World, w.Reachable ∧ w.workspace.Issued (.minted 0 0) ∧
      w.answer 1 (.layoutOf (.minted 0 0)) = some (Except.ok ⟨6, 2, []⟩) ∧
      (w.run (.newContext 0 .device64)).answer 2 (.layoutOf (.minted 0 0)) =
        w.answer 1 (.layoutOf (.minted 0 0)) ∧
      (w.run (.ask 0 (.pointer (.minted 0 0) .global))).answer 1 (.layoutOf (.minted 0 0)) =
        w.answer 1 (.layoutOf (.minted 0 0)) := by
  let w := (((empty.run .newTable).run (.newContext 0 .device64)).run
    (.ask 0 (.array (.primitive .u16) 3))).run (.clone 0)
  have hw : w.Reachable := by
    refine (((Leads.refl.call _ ?_).call _ ?_).call _ ?_).call _ ?_
    · exact fun h hh => absurd hh List.not_mem_nil
    · exact fun h hh => absurd hh List.not_mem_nil
    · intro h hh n i hi
      obtain rfl := List.mem_singleton.1 hh
      cases hi
    · exact fun h hh => absurd hh List.not_mem_nil
  obtain ⟨u, hu⟩ : ∃ u, w.universe? 1 = some u := ⟨_, rfl⟩
  have hissued : w.workspace.Issued (.minted 0 0) := by
    intro n i hi
    cases hi
    exact ⟨_, rfl, Nat.zero_lt_one⟩
  have hl : w.Leads (w.run (.ask 0 (.pointer (.minted 0 0) .global))) :=
    Leads.refl.call _ fun h hh => List.mem_singleton.1 hh ▸ hissued
  obtain ⟨hanew, hnew, hlater⟩ := (layoutOf_eq_layoutAnew hw hu).2.2 _ hissued
  refine ⟨w, hw, hissued, ?_, ?_, hlater _ hl⟩
  · rw [hanew]
    cases hu
    rfl
  · cases hu
    exact hnew

end World

end DeviceTypes
