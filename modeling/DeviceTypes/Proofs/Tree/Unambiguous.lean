import DeviceTypes.Proofs.Tree.Spelling
/-!
# Texts that tell trees apart

A type is written without a mark of its own for where it ends, and with the
stars of pointers behind it. Nevertheless two trees of one text are the same
(`Tree.spell_inj`), provided that no handle in them is unknown and no name in
them has a colon.

The text is read from the left. What a type that is no pointer begins with
(`Lead`) says which type it is, and what follows tells where it ends: the
words that may stand in one place are no beginnings of one another
(`PrefixFree`), a number ends at the first character that is no digit, a name
at the colon. Stars are read as long as there are any, since nothing else that
follows a type begins as they do (`Stops`).
-/

namespace DeviceTypes

/-! ## Reading from the left -/

/-- No word is a beginning of another. -/
def PrefixFree {α : Type} (word : α → List Char) : Prop :=
  ∀ a b, word a <+: word b → a = b

variable {k k' : List Char}

/-- **A word is read off the text that begins with it.** -/
theorem PrefixFree.append_inj {α : Type} {word : α → List Char} (hw : PrefixFree word) {a b : α}
    (h : word a ++ k = word b ++ k') : a = b ∧ k = k' := by
  have hab : a = b := by
    rcases List.prefix_or_prefix_of_prefix ⟨k, rfl⟩ ⟨k', h.symm⟩ with hp | hp
    · exact hw a b hp
    · exact (hw b a hp).symm
  subst hab
  exact ⟨rfl, List.append_cancel_left h⟩

/-- What stands before the first `c`, and what stands behind it. -/
theorem append_cons_inj {c : Char} {x y : List Char} (hx : c ∉ x) (hy : c ∉ y)
    (h : x ++ c :: k = y ++ c :: k') : x = y ∧ k = k' := by
  induction x generalizing y with
  | nil =>
    rcases y with - | ⟨d, y⟩
    · exact ⟨rfl, (List.cons.inj h).2⟩
    · exact absurd ((List.cons.inj h).1 ▸ List.mem_cons_self ..) hy
  | cons d x ih =>
    rcases y with - | ⟨d', y⟩
    · exact absurd ((List.cons.inj h).1 ▸ List.mem_cons_self ..) hx
    · obtain ⟨rfl, hrest⟩ := List.cons.inj h
      obtain ⟨rfl, hk⟩ := ih (fun hc => hx (List.mem_cons_of_mem _ hc))
        (fun hc => hy (List.mem_cons_of_mem _ hc)) hrest
      exact ⟨rfl, hk⟩

/-- **A number is read off its digits**, up to the first character that is none. -/
theorem repr_append_cons_inj {c : Char} (hc : c.isDigit = false) {n m : Nat}
    (h : n.repr.toList ++ c :: k = m.repr.toList ++ c :: k') : n = m ∧ k = k' := by
  have hdigits : ∀ i : Nat, c ∉ Nat.toDigits 10 i := by
    intro i hi
    rw [Nat.isDigit_of_mem_toDigits (by decide) (by decide) hi] at hc
    cases hc
  simp only [Nat.repr, String.toList_ofList] at h
  obtain ⟨htext, hk⟩ := append_cons_inj (hdigits n) (hdigits m) h
  refine ⟨?_, hk⟩
  rw [← Nat.ofDigitChars_ten_toDigits (n := n), htext, Nat.ofDigitChars_ten_toDigits]

/-! ## The words -/

/-- What the text of a type begins with that is no pointer. -/
inductive Lead where
  | unknown
  | primitive (p : Primitive)
  | array
  | aggregate (packing : Packing) (kind : AggregateKind)
  deriving DecidableEq

namespace Lead

/-- The text of it. -/
def spell : Lead → String
  | unknown => "<unknown>"
  | primitive p => p.name
  | array => "["
  | aggregate packing kind => (if packing = .packed then "packed " else "") ++ kind.keyword

/-- All of them. -/
def all : List Lead :=
  [unknown, array, aggregate .packed .struct, aggregate .packed .union,
    aggregate .sequential .struct, aggregate .sequential .union] ++ Primitive.all.map primitive

theorem mem_all (l : Lead) : l ∈ all := by
  rcases l with - | p | - | ⟨_ | _, _ | _⟩
  case primitive => exact List.mem_append_right _ (List.mem_map_of_mem p.mem_all)
  all_goals decide

theorem prefixFree_spell : PrefixFree fun l : Lead => l.spell.toList := by
  have hall : ∀ a ∈ all, ∀ b ∈ all, a.spell.toList <+: b.spell.toList → a = b := by
    decide +kernel
  exact fun a b => hall a a.mem_all b b.mem_all

end Lead

theorem AddressSpace.prefixFree_spellStar :
    PrefixFree fun s : AddressSpace => s.spellStar.toList := by
  have hall : ∀ a ∈ all, ∀ b ∈ all, a.spellStar.toList <+: b.spellStar.toList → a = b := by
    decide +kernel
  exact fun a b => hall a (mem_all a) b (mem_all b)

/-- The text goes on with the members of an aggregate. -/
def Opens (k : List Char) : Prop := ∃ k₀, k = ' ' :: '\x7b' :: k₀

/-- How values are passed is read off what stands before the members. -/
theorem Passing.spell_append_inj {passing passing' : Passing} (hk : Opens k) (hk' : Opens k')
    (h : passing.spell.toList ++ k = passing'.spell.toList ++ k') :
    passing = passing' ∧ k = k' := by
  obtain ⟨k₀, rfl⟩ := hk
  obtain ⟨k₀', rfl⟩ := hk'
  cases passing <;> cases passing' <;> simp_all [spell]

/-- An explicit alignment, and the number in it, are read off what stands before the
other hints. -/
theorem Alignment.spell_append_inj {alignment alignment' : Alignment}
    (hk : ¬ " align(".toList <+: k) (hk' : ¬ " align(".toList <+: k')
    (h : alignment.spell.toList ++ k = alignment'.spell.toList ++ k') :
    alignment = alignment' ∧ k = k' := by
  have hexplicit : ∀ (x : Align) (k : List Char), (explicit x).spell.toList ++ k =
      " align(".toList ++ (x.bytes.repr.toList ++ ')' :: k) := by
    intro x k
    simp only [spell, toString, String.toList_append, List.append_assoc]
    rfl
  rcases alignment with - | x <;> rcases alignment' with - | y
  · exact ⟨rfl, h⟩
  · rw [hexplicit] at h
    exact absurd ⟨_, h.symm⟩ hk
  · rw [hexplicit] at h
    exact absurd ⟨_, h⟩ hk'
  · rw [hexplicit, hexplicit] at h
    obtain ⟨hbytes, rfl⟩ := repr_append_cons_inj (by decide) (List.append_cancel_left h)
    exact ⟨congrArg explicit (Align.bytes_injective hbytes), rfl⟩

/-- **The hints of an aggregate are read off** what stands before its members. -/
theorem hints_append_inj {alignment alignment' : Alignment} {passing passing' : Passing}
    (hk : Opens k) (hk' : Opens k')
    (h : alignment.spell.toList ++ (passing.spell.toList ++ k) =
      alignment'.spell.toList ++ (passing'.spell.toList ++ k')) :
    alignment = alignment' ∧ passing = passing' ∧ k = k' := by
  have hnone : ∀ (passing : Passing) {k : List Char}, Opens k →
      ¬ " align(".toList <+: passing.spell.toList ++ k := by
    rintro passing _ ⟨k₀, rfl⟩
    cases passing <;> simp [Passing.spell]
  obtain ⟨rfl, hrest⟩ := Alignment.spell_append_inj (hnone passing hk) (hnone passing' hk') h
  exact ⟨rfl, Passing.spell_append_inj hk hk' hrest⟩

/-! ## Trees -/

namespace Tree

/-- The text of the members after the first, up to the closing brace. -/
def textRest : List (String × Tree) → List Char
  | [] => " \x7d".toList
  | m :: rest =>
    ", ".toList ++ (m.1.toList ++ (": ".toList ++ (m.2.spell.toList ++ textRest rest)))

/-- The text of the members between braces. -/
def textMembers : List (String × Tree) → List Char
  | [] => " \x7b\x7d".toList
  | m :: rest =>
    " \x7b ".toList ++ (m.1.toList ++ (": ".toList ++ (m.2.spell.toList ++ textRest rest)))

theorem toList_spellBraces (members : List (String × Tree)) :
    (Aggregate.spellBraces (spellEach members)).toList = textMembers members := by
  have hrest : ∀ (m : String × Tree) (rest : List (String × Tree)),
      (", ".intercalate (spellEach (m :: rest))).toList ++ " \x7d".toList =
        m.1.toList ++ (": ".toList ++ (m.2.spell.toList ++ textRest rest)) := by
    intro m rest
    induction rest generalizing m with
    | nil => simp [spellEach, textRest]
    | cons m' rest ih =>
      have h := ih m'
      rw [spellEach, spellEach, String.intercalate_cons_cons]
      rw [spellEach] at h
      simp only [String.toList_append, List.append_assoc, textRest, ← h]
  rcases members with - | ⟨m, rest⟩
  · rfl
  · have h := hrest m rest
    rw [spellEach] at h ⊢
    rw [Aggregate.spellBraces, String.toList_append, String.toList_append, List.append_assoc, h]
    · rfl
    · simp

/-- What the text of a tree begins with. -/
def lead : Tree → Lead
  | unknown _ => .unknown
  | primitive p => .primitive p
  | pointer T _ => T.lead
  | array .. => .array
  | aggregate kind _ _ packing _ => .aggregate packing kind

/-- What stands behind that. -/
def tail : Tree → List Char
  | unknown _ | primitive _ => []
  | pointer T space => T.tail ++ space.spellStar.toList
  | array T length => length.toNat.repr.toList ++ (" x ".toList ++ (T.spell.toList ++ "]".toList))
  | aggregate _ members alignment _ passing =>
    alignment.spell.toList ++ (passing.spell.toList ++ textMembers members)

theorem toList_spell (T : Tree) : T.spell.toList = T.lead.spell.toList ++ T.tail := by
  induction T with
  | unknown h => rw [spell, lead, tail]; rfl
  | primitive p => rw [spell, lead, tail, List.append_nil]; rfl
  | pointer T space ih => rw [spell, lead, tail, String.toList_append, ih, List.append_assoc]
  | array T length _ =>
    rw [spell, lead, tail]
    simp only [toString, String.toList_append, List.append_assoc]
    rfl
  | aggregate kind members alignment packing passing _ =>
    rw [spell, lead, tail, String.toList_append, toList_spellBraces, Aggregate.spellHead]
    simp only [String.toList_append, List.append_assoc, Aggregate.isPacked, decide_eq_true_eq,
      Lead.spell]

/-- No handle in the tree is unknown, and the names in it are as they should be. -/
inductive Legible (proper : String → Prop) : Tree → Prop
  | primitive (p : Primitive) : Legible proper (.primitive p)
  | pointer {T : Tree} (space : AddressSpace) : Legible proper T → Legible proper (.pointer T space)
  | array {T : Tree} (length : UInt64) : Legible proper T → Legible proper (.array T length)
  | aggregate (kind : AggregateKind) {members : List (String × Tree)} (alignment : Alignment)
      (packing : Packing) (passing : Passing) : (∀ m ∈ members, proper m.1) →
      (∀ m ∈ members, Legible proper m.2) →
      Legible proper (.aggregate kind members alignment packing passing)

theorem Legible.mono {proper proper' : String → Prop} (hp : ∀ name, proper name → proper' name)
    {T : Tree} (hT : T.Legible proper) : T.Legible proper' := by
  induction hT with
  | primitive p => exact .primitive p
  | pointer space _ ih => exact .pointer space ih
  | array length _ ih => exact .array length ih
  | aggregate kind alignment packing passing hnames _ ih =>
    exact .aggregate kind alignment packing passing (fun m hm => hp m.1 (hnames m hm)) ih

/-! ## Stars -/

/-- Pointers around a tree, the innermost first. -/
def pointers (T : Tree) (spaces : List AddressSpace) : Tree := spaces.foldl pointer T

/-- The text of their stars. -/
def stars (spaces : List AddressSpace) : List Char := spaces.flatMap fun s => s.spellStar.toList

theorem toList_spell_pointers (T : Tree) (spaces : List AddressSpace) :
    (T.pointers spaces).spell.toList = T.spell.toList ++ stars spaces := by
  induction spaces generalizing T with
  | nil => exact (List.append_nil _).symm
  | cons s spaces ih =>
    rw [pointers, List.foldl_cons, ← pointers, ih, spell, String.toList_append, List.append_assoc]
    rfl

theorem Legible.of_pointers {proper : String → Prop} {T : Tree} {spaces : List AddressSpace}
    (h : (T.pointers spaces).Legible proper) : T.Legible proper := by
  induction spaces generalizing T with
  | nil => exact h
  | cons s spaces ih =>
    cases ih h with
    | pointer _ hT => exact hT

/-- Every tree is one that is no pointer, with pointers around it. -/
theorem exists_eq_pointers (T : Tree) :
    ∃ B spaces, T = pointers B spaces ∧ ∀ S space, B ≠ .pointer S space := by
  induction T with
  | pointer T space ih =>
    obtain ⟨B, spaces, rfl, hB⟩ := ih
    refine ⟨B, spaces ++ [space], ?_, hB⟩
    rw [pointers, pointers, List.foldl_append]
    rfl
  | _ => exact ⟨_, [], rfl, nofun⟩

/-- The text goes on with nothing that could belong to a type. -/
def Stops (k : List Char) : Prop :=
  k = [] ∨ ∃ k₀, k = ']' :: k₀ ∨ k = ',' :: k₀ ∨ k = ' ' :: '\x7d' :: k₀

theorem not_stops_star (space : AddressSpace) (k : List Char) :
    ¬ Stops (space.spellStar.toList ++ k) := by
  rintro (h | ⟨k₀, h | h | h⟩) <;> cases space <;>
    simp [AddressSpace.spellStar, AddressSpace.name, toString] at h

/-- **Stars are read as long as there are any.** -/
theorem stars_append_inj {spaces spaces' : List AddressSpace} (hk : Stops k) (hk' : Stops k')
    (h : stars spaces ++ k = stars spaces' ++ k') : spaces = spaces' ∧ k = k' := by
  induction spaces generalizing spaces' with
  | nil =>
    rcases spaces' with - | ⟨s', spaces'⟩
    · exact ⟨rfl, h⟩
    · rw [stars, stars, List.flatMap_nil, List.nil_append, List.flatMap_cons,
        List.append_assoc] at h
      exact absurd (h ▸ hk) (not_stops_star s' _)
  | cons s spaces ih =>
    rw [stars, List.flatMap_cons, List.append_assoc] at h
    rcases spaces' with - | ⟨s', spaces'⟩
    · rw [stars, List.flatMap_nil, List.nil_append] at h
      exact absurd (h.symm ▸ hk') (not_stops_star s _)
    · rw [stars, List.flatMap_cons, List.append_assoc] at h
      obtain ⟨rfl, hrest⟩ := AddressSpace.prefixFree_spellStar.append_inj h
      obtain ⟨rfl, hk⟩ := ih hrest
      exact ⟨rfl, hk⟩

/-! ## Reading a tree -/

/-- A tree, and any pointers around it, are read off every text that begins with
theirs and stops there. -/
def Readable (T : Tree) : Prop :=
  ∀ (spaces : List AddressSpace) (T' : Tree) (k k' : List Char),
    T'.Legible (':' ∉ String.toList ·) → Stops k → Stops k' →
    T.spell.toList ++ (stars spaces ++ k) = T'.spell.toList ++ k' →
    T.pointers spaces = T' ∧ k = k'

/-- **A tree is readable** if what is no pointer tells where it ends. -/
theorem readable_of_base {B : Tree}
    (hB : ∀ (B' : Tree) (k k' : List Char), B'.Legible (':' ∉ String.toList ·) →
      (∀ S space, B' ≠ .pointer S space) → B'.lead = B.lead → B.tail ++ k = B'.tail ++ k' →
      B = B' ∧ k = k') : B.Readable := by
  intro spaces T' k k' hT' hk hk' h
  obtain ⟨B', spaces', rfl, hbase⟩ := T'.exists_eq_pointers
  rw [toList_spell_pointers, List.append_assoc, B.toList_spell, B'.toList_spell, List.append_assoc,
    List.append_assoc] at h
  obtain ⟨hlead, htail⟩ := Lead.prefixFree_spell.append_inj h
  obtain ⟨rfl, hstars⟩ := hB B' _ _ hT'.of_pointers hbase hlead.symm htail
  obtain ⟨rfl, rfl⟩ := stars_append_inj hk hk' hstars
  exact ⟨rfl, rfl⟩

theorem Readable.append_inj {T T' : Tree} (hT : T.Readable)
    (hT' : T'.Legible (':' ∉ String.toList ·)) (hk : Stops k) (hk' : Stops k')
    (h : T.spell.toList ++ k = T'.spell.toList ++ k') : T = T' ∧ k = k' :=
  hT [] T' k k' hT' hk hk' h

/-- Members are followed by a comma or by the closing brace. -/
theorem stops_textRest (members : List (String × Tree)) (k : List Char) :
    Stops (textRest members ++ k) := by
  cases members with
  | nil => exact Or.inr ⟨k, Or.inr (Or.inr rfl)⟩
  | cons m rest => exact Or.inr ⟨_, Or.inr (Or.inl rfl)⟩

/-- **Members are read one after another**, the name of each up to its colon. -/
theorem textMember_append_inj {m m' : String × Tree} {rest rest' : List (String × Tree)}
    (hm : m.2.Readable) (hname : ':' ∉ m.1.toList) (hname' : ':' ∉ m'.1.toList)
    (hm' : m'.2.Legible (':' ∉ String.toList ·))
    (h : m.1.toList ++ (": ".toList ++ (m.2.spell.toList ++ textRest rest)) ++ k =
      m'.1.toList ++ (": ".toList ++ (m'.2.spell.toList ++ textRest rest')) ++ k') :
    m = m' ∧ textRest rest ++ k = textRest rest' ++ k' := by
  simp only [List.append_assoc] at h
  obtain ⟨hnames, htypes⟩ := append_cons_inj hname hname' h
  obtain ⟨htype, hrest⟩ := hm.append_inj hm' (stops_textRest rest k) (stops_textRest rest' k')
    (List.cons.inj htypes).2
  exact ⟨Prod.ext (String.toList_inj.1 hnames) htype, hrest⟩

/-- **The members after the first are read** up to the closing brace. -/
theorem textRest_append_inj {members members' : List (String × Tree)}
    (hread : ∀ m ∈ members, m.2.Readable) (hnames : ∀ m ∈ members, ':' ∉ m.1.toList)
    (hnames' : ∀ m ∈ members', ':' ∉ m.1.toList)
    (hlegible : ∀ m ∈ members', m.2.Legible (':' ∉ String.toList ·))
    (h : textRest members ++ k = textRest members' ++ k') : members = members' ∧ k = k' := by
  induction members generalizing members' with
  | nil =>
    rcases members' with - | ⟨m', rest'⟩
    · exact ⟨rfl, List.append_cancel_left h⟩
    · exact absurd (List.cons.inj h).1 (by decide)
  | cons m rest ih =>
    rcases members' with - | ⟨m', rest'⟩
    · exact absurd (List.cons.inj h).1 (by decide)
    rw [List.forall_mem_cons] at hread hnames hnames' hlegible
    have hcomma := (List.append_assoc ..).symm.trans (h.trans (List.append_assoc ..))
    obtain ⟨rfl, hrest⟩ := textMember_append_inj hread.1 hnames.1 hnames'.1 hlegible.1
      (List.append_cancel_left hcomma)
    obtain ⟨rfl, hk⟩ := ih hread.2 hnames.2 hnames'.2 hlegible.2 hrest
    exact ⟨rfl, hk⟩

/-- **The members are read** from brace to brace. -/
theorem textMembers_append_inj {members members' : List (String × Tree)}
    (hread : ∀ m ∈ members, m.2.Readable) (hnames : ∀ m ∈ members, ':' ∉ m.1.toList)
    (hnames' : ∀ m ∈ members', ':' ∉ m.1.toList)
    (hlegible : ∀ m ∈ members', m.2.Legible (':' ∉ String.toList ·))
    (h : textMembers members ++ k = textMembers members' ++ k') :
    members = members' ∧ k = k' := by
  -- the third character tells whether there are any
  have hthird : (textMembers members ++ k)[2]? = (textMembers members' ++ k')[2]? := by rw [h]
  rcases members with - | ⟨m, rest⟩ <;> rcases members' with - | ⟨m', rest'⟩
  · exact ⟨rfl, List.append_cancel_left h⟩
  · exact absurd (Option.some.inj hthird) (by decide)
  · exact absurd (Option.some.inj hthird) (by decide)
  · rw [List.forall_mem_cons] at hread hnames hnames' hlegible
    have hbrace := (List.append_assoc ..).symm.trans (h.trans (List.append_assoc ..))
    obtain ⟨rfl, hrest⟩ := textMember_append_inj hread.1 hnames.1 hnames'.1 hlegible.1
      (List.append_cancel_left hbrace)
    obtain ⟨rfl, hk⟩ := textRest_append_inj hread.2 hnames.2 hnames'.2 hlegible.2 hrest
    exact ⟨rfl, hk⟩

theorem opens_textMembers (members : List (String × Tree)) (k : List Char) :
    Opens (textMembers members ++ k) := by
  cases members <;> exact ⟨_, rfl⟩

/-- **An array is read off its length and its element.** -/
theorem tail_array_append_inj {T T' : Tree} {length length' : UInt64} (hT : T.Readable)
    (hT' : T'.Legible (':' ∉ String.toList ·))
    (h : (array T length).tail ++ k = (array T' length').tail ++ k') :
    array T length = array T' length' ∧ k = k' := by
  simp only [tail, List.append_assoc] at h
  obtain ⟨hlength, htimes⟩ := repr_append_cons_inj (c := ' ') (by decide) h
  have helement : T.spell.toList ++ ']' :: k = T'.spell.toList ++ ']' :: k' :=
    (List.cons.inj (List.cons.inj htimes).2).2
  obtain ⟨rfl, hclose⟩ :=
    hT.append_inj hT' (Or.inr ⟨k, Or.inl rfl⟩) (Or.inr ⟨k', Or.inl rfl⟩) helement
  exact ⟨congrArg (array T) (UInt64.toNat_inj.1 hlength), (List.cons.inj hclose).2⟩

/-- **Every legible tree is readable.** -/
theorem Legible.readable {T : Tree} (hT : T.Legible (':' ∉ String.toList ·)) : T.Readable := by
  induction hT with
  | primitive p =>
    refine readable_of_base fun B' k k' hB' hbase hlead h => ?_
    cases hB' with
    | primitive p' =>
      rw [lead, lead, Lead.primitive.injEq] at hlead
      exact ⟨congrArg Tree.primitive hlead.symm, h⟩
    | pointer space _ => exact absurd rfl (hbase _ space)
    | array | aggregate => rw [lead, lead] at hlead; cases hlead
  | @pointer T space _ ih =>
    -- one more star before those around the pointer
    intro spaces T' k k' hT' hk hk' h
    refine ih (space :: spaces) T' k k' hT' hk hk' (Eq.trans ?_ h)
    rw [spell, String.toList_append, stars, List.flatMap_cons, List.append_assoc, List.append_assoc]
    rfl
  | @array T length _ ih =>
    refine readable_of_base fun B' k k' hB' hbase hlead h => ?_
    cases hB' with
    | array length' hT' => exact tail_array_append_inj ih hT' h
    | pointer space _ => exact absurd rfl (hbase _ space)
    | primitive | aggregate => rw [lead, lead] at hlead; cases hlead
  | @aggregate kind members alignment packing passing hnames _ ih =>
    refine readable_of_base fun B' k k' hB' hbase hlead h => ?_
    cases hB' with
    | @aggregate kind' members' alignment' packing' passing' hnames' hlegible =>
      rw [lead, lead, Lead.aggregate.injEq] at hlead
      obtain ⟨rfl, rfl⟩ := hlead
      simp only [tail, List.append_assoc] at h
      obtain ⟨rfl, rfl, hmembers⟩ :=
        hints_append_inj (opens_textMembers members k) (opens_textMembers members' k') h
      obtain ⟨rfl, rfl⟩ := textMembers_append_inj ih hnames hnames' hlegible hmembers
      exact ⟨rfl, rfl⟩
    | pointer space _ => exact absurd rfl (hbase _ space)
    | primitive | array => rw [lead, lead] at hlead; cases hlead

/-- **A text is that of one tree only**, among those in which no handle is unknown
and no name has a colon. -/
theorem spell_inj {T T' : Tree} (hT : T.Legible (':' ∉ String.toList ·))
    (hT' : T'.Legible (':' ∉ String.toList ·)) (h : T.spell = T'.spell) : T = T' :=
  (hT.readable.append_inj hT' (Or.inl rfl) (Or.inl rfl) (congrArg (String.toList · ++ []) h)).1

/-- A name with a colon may pass for two members. -/
example :
    (aggregate .struct [("x: u8, y", .primitive .u8)] .natural .sequential .targetDefault).spell =
      (aggregate .struct [("x", .primitive .u8), ("y", .primitive .u8)] .natural .sequential
        .targetDefault).spell := by cbv

end Tree

end DeviceTypes
