import DeviceTypes.Proofs.Workspace.Sound
/-!
# Histories of calls

A program holds contexts on a workspace. It adds tables and contexts,
clones contexts, interns shapes into a table as they are, and puts
requests through its contexts, which are accepted or rejected. A clone is
one more name of the same universe, so it shares the cache, while another
context over the same table has a cache of its own.

`World.run` is one call and `World.Leads` a history of them, each passing
only handles that were issued before it. Soundness passes along every
history (`Leads.sound`), and nothing that was there is lost (`Leads.grows`).
-/

namespace DeviceTypes

/-- A workspace and the contexts a program holds on it. -/
structure World where
  workspace : Workspace
  /-- The universe that each context works in. -/
  contexts : List Nat

namespace World

/-- The world before any call. -/
def empty : World := ⟨.empty, []⟩

/-- A call that a program makes. -/
inductive Call where
  | newTable
  /-- A context over a table, with a target and a cache of its own. -/
  | newContext (table : Nat) (target : Target)
  /-- A context that shares all an earlier one has. -/
  | clone (context : Nat)
  /-- A shape put into a table, unchecked. -/
  | intern (table : Nat) (s : Shape)
  | ask (context : Nat) (r : Request)

/-- The handles a call passes. -/
def Call.handles : Call → List Handle
  | newTable | newContext .. | clone _ => []
  | intern _ s => s.parts
  | ask _ r => r.handles

/-- The world after a call; a call to what is not there does nothing. -/
def run (w : World) : Call → World
  | .newTable => { w with workspace := w.workspace.addTable.2 }
  | .newContext table target =>
    if table < w.workspace.tables.length then
      let (n, workspace) := w.workspace.addUniverse table target
      ⟨workspace, w.contexts ++ [n]⟩
    else w
  | .clone context =>
    match w.contexts[context]? with
    | some n => { w with contexts := w.contexts ++ [n] }
    | none => w
  | .intern table s =>
    match w.workspace.intern table s with
    | some (_, workspace) => { w with workspace }
    | none => w
  | .ask context r =>
    match (w.contexts[context]?).bind fun n => w.workspace.ask n r with
    | some (_, _, workspace) => { w with workspace }
    | none => w

/-- `w'` comes of `w` by calls that pass issued handles. -/
inductive Leads (w : World) : World → Prop
  | refl : Leads w w
  | call {w' : World} (c : Call) :
      Leads w w' → (∀ h ∈ c.handles, w'.workspace.Issued h) → Leads w (w'.run c)

theorem Leads.trans {w w' w'' : World} (h : w.Leads w') (h' : w'.Leads w'') : w.Leads w'' := by
  induction h' with
  | refl => exact h
  | call c _ hc ih => exact ih.call c hc

/-- A world that a program can come to. -/
def Reachable (w : World) : Prop := empty.Leads w

/-- The world after some calls, if each passes only issued handles. -/
def replay (w : World) : List Call → Option World
  | [] => some w
  | c :: calls => if ∀ h ∈ c.handles, w.workspace.Issued h then (w.run c).replay calls else none

theorem leads_of_replay {w w' : World} {calls : List Call} (h : w.replay calls = some w') :
    w.Leads w' := by
  induction calls generalizing w with
  | nil =>
    obtain rfl := Option.some.inj h
    exact .refl
  | cons c calls ih =>
    rw [replay, Option.ite_none_right_eq_some] at h
    exact (Leads.refl.call c h.1).trans (ih h.2)

/-- The universe a context works in. -/
def universe? (w : World) (context : Nat) : Option Universe :=
  (w.contexts[context]?).bind w.workspace.universe?

/-- What a request through a context is answered. -/
def answer (w : World) (context : Nat) (r : Request) : Option r.Answer :=
  (w.universe? context).map fun u => (u.perform r).1

variable {w w' : World}

theorem answer_eq {context : Nat} {u : Universe} (hu : w.universe? context = some u)
    (r : Request) : w.answer context r = some (u.perform r).1 := by
  rw [answer, hu, Option.map_some]

/-- **One call** keeps the workspace sound, and what was there stays. -/
theorem run_sound (hw : w.workspace.Sound) {c : Call}
    (hc : ∀ h ∈ c.handles, w.workspace.Issued h) :
    (w.run c).workspace.Sound ∧ w.workspace.Grows (w.run c).workspace ∧
      w.contexts <+: (w.run c).contexts := by
  have hsame : w.workspace.Sound ∧ w.workspace.Grows w.workspace ∧ w.contexts <+: w.contexts :=
    ⟨hw, .refl _, List.prefix_rfl⟩
  cases c with
  | newTable => exact ⟨hw.addTable, w.workspace.grows_addTable, List.prefix_rfl⟩
  | newContext table target =>
    rw [run]
    split
    · rename_i hlt
      exact ⟨hw.addUniverse hlt target, w.workspace.grows_addUniverse table target,
        List.prefix_append _ _⟩
    · exact hsame
  | clone context =>
    rw [run]
    split
    · exact ⟨hw, .refl _, List.prefix_append _ _⟩
    · exact hsame
  | intern table s =>
    rw [run]
    split
    · rename_i h workspace hi
      obtain ⟨hs, hg⟩ := hw.intern hc hi
      exact ⟨hs, hg, List.prefix_rfl⟩
    · exact hsame
  | ask context r =>
    rw [run]
    split
    · rename_i a events workspace hask
      obtain ⟨n, -, ha⟩ := Option.bind_eq_some_iff.1 hask
      obtain ⟨hs, hg⟩ := hw.ask hc ha
      exact ⟨hs, hg, List.prefix_rfl⟩
    · exact hsame

/-- **A history** keeps the workspace sound. -/
theorem Leads.sound (h : w.Leads w') (hw : w.workspace.Sound) : w'.workspace.Sound := by
  induction h with
  | refl => exact hw
  | call c _ hc ih => exact (run_sound ih hc).1

/-- **And loses nothing**: tables grow, and a context stays with its universe. -/
theorem Leads.grows (h : w.Leads w') (hw : w.workspace.Sound) :
    w.workspace.Grows w'.workspace ∧ w.contexts <+: w'.contexts := by
  induction h with
  | refl => exact ⟨.refl _, List.prefix_rfl⟩
  | call c hl hc ih =>
    obtain ⟨-, hg, hp⟩ := run_sound (hl.sound hw) hc
    exact ⟨ih.1.trans hg, ih.2.trans hp⟩

theorem Reachable.sound (hw : w.Reachable) : w.workspace.Sound :=
  Leads.sound hw Workspace.sound_empty

/-- The universe of a context that a program has come to is sound. -/
theorem Reachable.universe (hw : w.Reachable) {context : Nat} {u : Universe}
    (hu : w.universe? context = some u) : u.Sound := by
  obtain ⟨n, -, hn⟩ := Option.bind_eq_some_iff.1 hu
  exact hw.sound.universe hn

/-- A handle that was issued is settled in the table of every context. -/
theorem Reachable.settled (hw : w.Reachable) {context : Nat} {u : Universe}
    (hu : w.universe? context = some u) {h : Handle} (hh : w.workspace.Issued h) :
    u.table.Settled h := by
  obtain ⟨n, -, hn⟩ := Option.bind_eq_some_iff.1 hu
  obtain ⟨s, -, ht, -⟩ := Workspace.universe?_eq_some hn
  exact hw.sound.settled hh ht

/-- A context's universe only grows along a history. -/
theorem Leads.universe? (h : w.Leads w') (hw : w.workspace.Sound) {context : Nat} {u : Universe}
    (hu : w.universe? context = some u) :
    ∃ u', w'.universe? context = some u' ∧ u ≤ u' := by
  obtain ⟨hg, hp⟩ := h.grows hw
  obtain ⟨n, hn, hun⟩ := Option.bind_eq_some_iff.1 hu
  obtain ⟨s, hs, ht, he⟩ := Workspace.universe?_eq_some hun
  obtain ⟨s', hs', htab, htar⟩ := hg.site n s hs
  obtain ⟨t', ht', hle⟩ := hg.table s.table u.table ht
  refine ⟨⟨n, t', s'.target, s'.layouts⟩, ?_, ?_⟩
  · have hn' : w'.contexts[context]? = some n := by
      obtain ⟨rest, hr⟩ := hp
      rw [← hr, List.getElem?_append_left (List.getElem?_eq_some_iff.1 hn).1, hn]
    simp [World.universe?, hn', Workspace.universe?, hs', htab, ht']
  · rw [he]
    exact ⟨rfl, htar, hle⟩

/-- What a request leaves of a universe is what its context works in next. -/
theorem Reachable.universe?_run_ask (hw : w.Reachable) {context : Nat} {u : Universe}
    (hu : w.universe? context = some u) {r : Request} (hr : ∀ h ∈ r.handles, u.table.Settled h) :
    ∃ u', (w.run (.ask context r)).universe? context = some u' ∧ u ≤ u' ∧ u'.Sound ∧
      u'.table = (u.perform r).2.2.table := by
  obtain ⟨n, hn, hun⟩ := Option.bind_eq_some_iff.1 hu
  have hrun : w.run (.ask context r) =
      { w with workspace := w.workspace.put (u.perform r).2.2 } := by
    rw [run, hn, Option.bind_some, Workspace.ask, hun]
    rfl
  obtain ⟨hsound, hle⟩ := (hw.universe hu).perform hr
  obtain ⟨u', hu', hle', hs', ht'⟩ := hw.sound.universe?_put hun hle hsound hun rfl rfl
  refine ⟨u', ?_, hle', hs', ht'⟩
  rw [hrun, World.universe?, hn, Option.bind_some]
  exact hu'

end World

end DeviceTypes
