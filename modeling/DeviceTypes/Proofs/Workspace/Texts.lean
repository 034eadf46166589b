import DeviceTypes.Proofs.Tree.Unambiguous
import DeviceTypes.Proofs.Workspace.History
/-!
# Types told apart by their texts

The text of a handle is that of its tree, and where names are plain no two
trees share a text. A table in turn holds no tree twice. So a handle can be
told from its text among those of its table, and the type can be told even
among all tables (`eq_of_spell_eq`).
-/

namespace DeviceTypes

/-- A name of letters, digits and underscores, with one of these at least. -/
def PlainName (name : String) : Prop :=
  name ≠ "" ∧ ∀ c ∈ name.toList, c.isAlphanum = true ∨ c = '_'

instance (name : String) : Decidable (PlainName name) :=
  -- over the characters of the name, not over all there are
  letI : Decidable (∀ c ∈ name.toList, c.isAlphanum = true ∨ c = '_') := List.decidableBAll _ _
  inferInstanceAs (Decidable (_ ∧ _))

theorem PlainName.colon_notMem {name : String} (h : PlainName name) : ':' ∉ name.toList :=
  fun hc => absurd (h.2 ':' hc) (by decide)

namespace World

variable {w : World} {c c' : Nat} {u v : Universe} {a b : Handle}

/-- **A type is told by its text.** Let two contexts write out a handle each, in which
no handle is unknown at any depth and all names are plain. If the texts are the
same, then so are the types: their trees agree in every address space, length,
hint, name, order and nesting. And if the contexts share a table, the handles
themselves are the same. -/
theorem eq_of_spell_eq (hw : w.Reachable) (hu : w.universe? c = some u)
    (hv : w.universe? c' = some v) (ha : (u.table.unfold a).Legible PlainName)
    (hb : (v.table.unfold b).Legible PlainName)
    (h : w.answer c (.spell a) = w.answer c' (.spell b)) :
    u.table.unfold a = v.table.unfold b ∧ (u.table.number = v.table.number → a = b) := by
  have hou := (hw.universe hu).ordered
  have hov := (hw.universe hv).ordered
  have htext : (u.table.unfold a).spell = (v.table.unfold b).spell := by
    rw [answer_eq hu, answer_eq hv] at h
    rw [← hou.spell_eq_spell_unfold, ← hov.spell_eq_spell_unfold]
    exact Option.some.inj h
  have htree : u.table.unfold a = v.table.unfold b :=
    Tree.spell_inj (ha.mono fun _ => PlainName.colon_notMem)
      (hb.mono fun _ => PlainName.colon_notMem) htext
  refine ⟨htree, fun hn => ?_⟩
  have htable : u.table = v.table := by
    obtain ⟨m, -, hm⟩ := Option.bind_eq_some_iff.1 hu
    obtain ⟨m', -, hm'⟩ := Option.bind_eq_some_iff.1 hv
    have ht := hw.sound.table_eq hm hn
    rw [hw.sound.table_eq hm' rfl] at ht
    exact (Option.some.inj ht).symm
  rw [← htable] at htree
  exact hou.unfold_injective htree

/-- Two tables were filled in different orders. A type of one is found in the other
by its text, and by its text it is found under no second handle. -/
theorem eq_of_spell_eq_reordered :
    ∃ (w : World) (u v : Universe), w.Reachable ∧ w.universe? 0 = some u ∧
      w.universe? 1 = some v ∧ w.answer 0 (.spell (.minted 0 3)) = some
        "packed union align(8) byref \x7b row: [4 x f32 addrspace(global)*], r_1: f32* \x7d" ∧
      u.table.unfold (.minted 0 3) = v.table.unfold (.minted 1 3) ∧
      ∀ h, (u.table.unfold h).Legible PlainName →
        w.answer 0 (.spell h) = w.answer 1 (.spell (.minted 1 3)) → h = .minted 0 3 := by
  let pointer (space : AddressSpace) : Compound := .pointer (.primitive .f32) space
  let rows (n i j : Nat) : Compound := .aggregate ⟨.union,
    [⟨"row", .minted n i⟩, ⟨"r_1", .minted n j⟩], .explicit ⟨3⟩, .packed, .byReference⟩
  let t : Table :=
    ⟨0, [pointer .global, .array (.minted 0 0) 4, pointer .generic, rows 0 1 2], by decide⟩
  let t' : Table :=
    ⟨1, [pointer .generic, pointer .global, .array (.minted 1 1) 4, rows 1 2 0], by decide⟩
  let world (t t' : Table) : World :=
    ⟨⟨[t, t'], [⟨0, .device64, .empty⟩, ⟨1, .device64Short, .empty⟩]⟩, [0, 1]⟩
  let w : World := world t t'
  have hempty : World.empty.replay [.newTable, .newTable, .newContext 0 .device64,
      .newContext 1 .device64Short] = some (world (.empty 0) (.empty 1)) := rfl
  have hone : (world (.empty 0) (.empty 1)).replay [.intern 0 (.compound (pointer .global)),
      .intern 0 (.compound (.array (.minted 0 0) 4)), .intern 0 (.compound (pointer .generic)),
      .intern 0 (.compound (rows 0 1 2))] = some (world t (.empty 1)) := rfl
  have htwo : (world t (.empty 1)).replay [.intern 1 (.compound (pointer .generic)),
      .intern 1 (.compound (pointer .global)), .intern 1 (.compound (.array (.minted 1 1) 4)),
      .intern 1 (.compound (rows 1 2 0))] = some w := rfl
  have hw : w.Reachable :=
    (leads_of_replay hempty).trans ((leads_of_replay hone).trans (leads_of_replay htwo))
  let type : Tree := .aggregate .union
    [("row", .array (.pointer (.primitive .f32) .global) 4),
      ("r_1", .pointer (.primitive .f32) .generic)]
    (.explicit ⟨3⟩) .packed .byReference
  have htype : type.Legible PlainName := by
    refine .aggregate .union _ _ _ ?_ ?_ <;> rw [List.forall_mem_cons, List.forall_mem_singleton]
    · exact ⟨by decide, by decide⟩
    · exact ⟨.array 4 (.pointer _ (.primitive _)), .pointer _ (.primitive _)⟩
  have ha : (t.unfold (.minted 0 3)).Legible PlainName := htype
  have hb : (t'.unfold (.minted 1 3)).Legible PlainName := htype
  have htext : w.answer 0 (.spell (.minted 0 3)) = some
      "packed union align(8) byref \x7b row: [4 x f32 addrspace(global)*], r_1: f32* \x7d" := rfl
  have htext' : w.answer 0 (.spell (.minted 0 3)) = w.answer 1 (.spell (.minted 1 3)) := rfl
  refine ⟨w, _, _, hw, rfl, rfl, htext, (eq_of_spell_eq hw rfl rfl ha hb htext').1, ?_⟩
  intro h hh he
  exact (eq_of_spell_eq (a := h) (b := .minted 0 3) hw rfl rfl hh ha (he.trans htext'.symm)).2 rfl

end World

end DeviceTypes
