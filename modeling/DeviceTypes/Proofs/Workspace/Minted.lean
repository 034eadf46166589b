import DeviceTypes.Proofs.Table.Spelling
import DeviceTypes.Proofs.Workspace.Coherence
/-!
# Tables filled through contexts

A table may be filled by contexts alone, by contexts whose targets agree on
the pointer widths and on nothing else. They may set other limits and pass
aggregates in other ways, they refuse what they refuse, and what one of them
has minted another may use. `Minted` is such a history, as far as one table
is concerned; other tables may be filled in any way.

Its table is well formed (`Minted.wellFormed`). So every context over it
with those widths lays out and writes out all that the table knows, whoever
minted it, and so does a context opened just now. This is the main
statement, `minted_lays_out`.
-/

namespace DeviceTypes

namespace World

/-- A call that fills the table numbered `n` only as contexts with these pointer
widths do. -/
def Call.Fills (w : World) (n : Nat) (widths : Vector UInt32 5) : Call → Prop
  | .intern table _ => table ≠ n
  | .ask context r => ∀ u ∈ w.universe? context, u.table.number = n → r.Fills widths u.target
  | .newTable | .newContext .. | .clone _ => True

instance (w : World) (n : Nat) (widths : Vector UInt32 5) (c : Call) :
    Decidable (c.Fills w n widths) :=
  match c with
  | .intern table _ => inferInstanceAs (Decidable (table ≠ n))
  | .ask context r => inferInstanceAs
      (Decidable (∀ u ∈ w.universe? context, u.table.number = n → r.Fills widths u.target))
  | .newTable | .newContext .. | .clone _ => isTrue trivial

/-- The table numbered `n` of the world was filled only through contexts with
these pointer widths. -/
inductive Minted (n : Nat) (widths : Vector UInt32 5) : World → Prop
  | empty : Minted n widths .empty
  | call {w : World} (c : Call) : Minted n widths w → (∀ h ∈ c.handles, w.workspace.Issued h) →
      c.Fills w n widths → Minted n widths (w.run c)

variable {w : World} {n : Nat} {widths : Vector UInt32 5}

theorem Minted.reachable (hw : Minted n widths w) : w.Reachable := by
  induction hw with
  | empty => exact .refl
  | call c _ hc _ ih => exact .call c ih hc

/-- **One call** keeps the table well formed. -/
theorem wellFormed_run (hw : w.Reachable) {c : Call} (hc : ∀ h ∈ c.handles, w.workspace.Issued h)
    (hf : c.Fills w n widths)
    (ht : ∀ t, w.workspace.tables[n]? = some t → t.WellFormed widths) :
    ∀ t, (w.run c).workspace.tables[n]? = some t → t.WellFormed widths := by
  intro t hrun
  cases c with
  | newTable =>
    simp only [run, Workspace.addTable] at hrun
    rcases Nat.lt_trichotomy n w.workspace.tables.length with hn | rfl | hn
    · rw [List.getElem?_append_left hn] at hrun
      exact ht t hrun
    · rw [List.getElem?_concat_length] at hrun
      exact Option.some.inj hrun ▸ Table.wellFormed_empty _
    · rw [List.getElem?_eq_none (by rw [List.length_append]; exact hn)] at hrun
      cases hrun
  | newContext table target =>
    rw [run] at hrun
    split at hrun
    · exact ht t hrun
    · exact ht t hrun
  | clone context =>
    rw [run] at hrun
    split at hrun
    · exact ht t hrun
    · exact ht t hrun
  | intern table s =>
    rw [run] at hrun
    split at hrun
    · rename_i h workspace hi
      obtain ⟨t₁, -, heq⟩ := Option.map_eq_some_iff.1 hi
      obtain ⟨-, rfl⟩ := Prod.ext_iff.1 heq
      rw [List.getElem?_set_ne hf] at hrun
      exact ht t hrun
    · exact ht t hrun
  | ask context r =>
    rw [run] at hrun
    split at hrun
    · rename_i a events workspace hask
      obtain ⟨m, hm, ha⟩ := Option.bind_eq_some_iff.1 hask
      obtain ⟨u, hu, heq⟩ := Option.map_eq_some_iff.1 ha
      have hworkspace : workspace = w.workspace.put (u.perform r).2.2 := by
        simp only [Prod.mk.injEq] at heq
        exact heq.2.2.symm
      subst hworkspace
      have hcontext : w.universe? context = some u := Option.bind_eq_some_iff.2 ⟨m, hm, hu⟩
      have hsound := hw.universe hcontext
      have hsettled : ∀ h ∈ r.handles, u.table.Settled h :=
        fun h hh => hw.settled hcontext (hc h hh)
      rw [hw.sound.tables_put hu (hsound.perform hsettled).2] at hrun
      split at hrun
      · rename_i hn
        have htable := hw.sound.table_eq hu hn
        exact Option.some.inj hrun ▸
          hsound.wellFormed_perform (ht _ htable) hsettled (hf u hcontext hn)
      · exact ht t hrun
    · exact ht t hrun

/-- **A table filled through contexts is well formed.** -/
theorem Minted.wellFormed (hw : Minted n widths w) {t : Table}
    (ht : w.workspace.tables[n]? = some t) : t.WellFormed widths := by
  induction hw generalizing t with
  | empty => cases ht
  | call c hm hc hf ih => exact wellFormed_run hm.reachable hc hf (fun _ h => ih h) t ht

/-- **What was minted through contexts is well formed and lays out everywhere.**
Of a table that was filled only through contexts with the same pointer widths,
accepted or rejected and in any order:

* every handle in every entry is known to the table;
* the names in every aggregate are distinct and not empty, and a name finds the
  member that has it;
* every known handle has a layout in each context over the table with those
  widths, and in any such context opened just now;
* the text of every known handle is written out without a fallback. -/
theorem minted_lays_out (hw : Minted n widths w) {t : Table}
    (ht : w.workspace.tables[n]? = some t) :
    (∀ c ∈ t.entries, ∀ h ∈ c.parts, t.contains h = true) ∧
    (∀ a, Compound.aggregate a ∈ t.entries →
      (∀ m ∈ a.members, m.name ≠ "") ∧ (a.members.map Member.name).Nodup ∧
      ∀ name i h, a.member? name = some (i, h) ↔ a.members[i]? = some ⟨name, h⟩) ∧
    ∀ h, t.contains h = true →
      (∀ context u, w.universe? context = some u → u.table.number = n →
        u.target.pointerWidths = widths →
        ∃ l, w.answer context (.layoutOf h) = some (Except.ok l)) ∧
      (∀ target : Target, target.pointerWidths = widths →
        ∃ l, (w.run (.newContext n target)).answer w.contexts.length (.layoutOf h) =
          some (Except.ok l)) ∧
      ∃ text, t.spell? h = some text ∧
        ∀ context u, w.universe? context = some u → u.table.number = n →
          w.answer context (.spell h) = some text := by
  have hreach := hw.reachable
  have hwf := hw.wellFormed ht
  have ho : t.Ordered := hreach.sound.ordered n t ht
  have htable : ∀ context u, w.universe? context = some u → u.table.number = n → u.table = t := by
    intro context u hu hn
    obtain ⟨m, -, hm⟩ := Option.bind_eq_some_iff.1 hu
    exact Option.some.inj ((hreach.sound.table_eq hm hn).symm.trans ht)
  refine ⟨hwf.parts, fun a ha => ?_, fun h hh => ⟨?_, ?_, t.spell h, hwf.spell?_eq ho hh, ?_⟩⟩
  · obtain ⟨hnames, hnodup⟩ := hwf.names a ha
    exact ⟨hnames, hnodup, fun name i h => Aggregate.member?_eq_some_iff hnodup⟩
  · intro context u hu hn hwidths
    obtain ⟨l, hl⟩ := hwf.layoutAnew_ok ho hwidths hh
    refine ⟨l, ?_⟩
    rw [hreach.answer_layoutOf hu, Universe.layoutAnew, htable context u hu hn, hl]
  · intro target hwidths
    have hnew : (w.run (.newContext n target)).Reachable :=
      .call _ hreach fun x hx => absurd hx List.not_mem_nil
    obtain ⟨l, hl⟩ := hwf.layoutAnew_ok ho hwidths hh
    refine ⟨l, ?_⟩
    rw [hnew.answer_layoutOf (universe?_run_newContext ht target), ← hl]
  · intro context u hu hn
    rw [answer, hu, ← htable context u hu hn]
    rfl

/-- A struct whose alignment only the second context admits lays out in the
first one as well, and in a new one; a pointer to it is written out. -/
theorem minted_lays_out_aligned :
    ∃ w : World, Minted 0 Target.device64.pointerWidths w ∧
      (∃ l, w.answer 0 (.layoutOf (.minted 0 1)) = some (Except.ok l)) ∧
      (∃ l, (w.run (.newContext 0 .device64)).answer 2 (.layoutOf (.minted 0 1)) =
        some (Except.ok l)) ∧
      ∃ t, w.workspace.tables[0]? = some t ∧ (t.spell? (.minted 0 2)).isSome := by
  let w := (((((empty.run .newTable).run (.newContext 0 .device64)).run
    (.newContext 0 { Target.device64 with maxAlignment := 512 })).run
    (.ask 0 (.array (.primitive .u16) 3))).run
    (.ask 1 (.aggregate { alignment := some (.explicit ⟨9⟩) } [⟨"xs", .minted 0 0⟩]))).run
    (.ask 0 (.pointer (.minted 0 1) .global))
  have hw : Minted 0 Target.device64.pointerWidths w := by
    refine (((((Minted.empty.call _ ?_ ?_).call _ ?_ ?_).call _ ?_ ?_).call _ ?_ ?_).call _ ?_
      ?_).call _ ?_ ?_
    all_goals decide +kernel
  have htable : (w.workspace.tables[0]?).map (fun t => (t.contains (.minted 0 1),
      t.contains (.minted 0 2))) = some (true, true) := by decide +kernel
  have hcontext : (w.universe? 0).map (fun u => (u.table.number, u.target)) =
      some (0, .device64) := by decide +kernel
  obtain ⟨t, ht, hknown⟩ := Option.map_eq_some_iff.1 htable
  obtain ⟨u, hu, htarget⟩ := Option.map_eq_some_iff.1 hcontext
  rw [Prod.mk.injEq] at hknown htarget
  obtain ⟨-, -, hlays⟩ := minted_lays_out hw ht
  obtain ⟨hthere, hnew, -⟩ := hlays _ hknown.1
  obtain ⟨-, -, text, htext, -⟩ := hlays _ hknown.2
  have hfresh := hnew .device64 rfl
  have hlength : w.contexts.length = 2 := by decide +kernel
  rw [hlength] at hfresh
  refine ⟨w, hw, hthere 0 u hu htarget.1 (by rw [htarget.2]), hfresh, t, ht, ?_⟩
  rw [htext]
  rfl

end World

end DeviceTypes
