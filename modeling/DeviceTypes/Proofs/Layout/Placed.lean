import DeviceTypes.Proofs.Layout.Anew
/-!
# Where members are placed

What holds of the members of an aggregate once they are placed:
`Placement.Holds` says that each lies below the stop, that the members of
a struct follow one another without overlap, and, unless they are packed,
that each starts at a multiple of its alignment, which divides the natural
one. Placing one more member keeps it (`Holds.place`), so it holds of
every aggregate that is laid out (`Holds.placeEach`).

Divisibility is where alignments have to be powers of two: of two powers
the smaller divides the larger, so the largest is a common multiple.
-/

namespace DeviceTypes

/-- The alignment is a power of two. -/
def Layout.Regular (l : Layout) : Prop := l.align.isPowerOfTwo

/-- Pointers into each space are zero bytes wide, or a power of two. -/
def Target.Regular (target : Target) : Prop :=
  ∀ space, (target.pointerWidth space).toNat = 0 ∨
    (target.pointerWidth space).toNat.isPowerOfTwo

theorem Target.regular_device64 : device64.Regular := by
  intro space
  rw [pointerWidth_device64]
  exact Or.inr ⟨3, rfl⟩

theorem Target.regular_device64Short : device64Short.Regular := by
  intro space
  simp only [device64Short, pointerWidth_withPointerWidth, pointerWidth_device64]
  split
  · exact Or.inr ⟨2, rfl⟩
  split
  · exact Or.inr ⟨2, rfl⟩
  split
  · exact Or.inr ⟨2, rfl⟩
  · exact Or.inr ⟨3, rfl⟩

theorem dvd_of_isPowerOfTwo_of_le {a b : Nat} (ha : a.isPowerOfTwo) (hb : b.isPowerOfTwo)
    (h : a ≤ b) : a ∣ b := by
  obtain ⟨j, rfl⟩ := ha
  obtain ⟨k, rfl⟩ := hb
  exact Nat.pow_dvd_pow 2 ((Nat.pow_le_pow_iff_right Nat.one_lt_two).1 h)

theorem orOverflow_eq_ok {α : Type} {o : Option α} {a : α} :
    orOverflow o = .ok a ↔ o = some a := by
  cases o <;> simp [orOverflow]

namespace Layout

theorem Regular.align_pos {l : Layout} (h : l.Regular) : 0 < l.align := by
  exact Nat.pos_of_isPowerOfTwo h

theorem regular_scalar {n : Nat} (h : n = 0 ∨ n.isPowerOfTwo) : (scalar n).Regular := by
  rcases h with rfl | h
  · exact ⟨0, rfl⟩
  · rw [Regular, scalar, Nat.max_eq_left (Nat.pos_of_isPowerOfTwo h)]
    exact h

/-- Neighbouring elements are a multiple of the alignment apart, and far enough. -/
theorem Regular.stride {l : Layout} (h : l.Regular) {stride : Nat}
    (hs : l.stride? = some stride) : l.size ≤ stride ∧ l.align ∣ stride := by
  have hmax : max l.align 1 = l.align := Nat.max_eq_left h.align_pos
  have hr := roundUp_of_roundUp? hs
  rw [hmax] at hr
  rw [hr]
  exact ⟨le_roundUp l.size h.align_pos, dvd_roundUp l.size l.align⟩

/-- A row is its stride times its length. -/
theorem row?_eq_some {l m : Layout} {length : Nat} (h : l.row? length = some m) :
    ∃ stride, l.stride? = some stride ∧ m.size = stride * length ∧ m.align = l.align := by
  simp only [row?, Option.bind_eq_bind, Option.bind_eq_some_iff, inRange?_eq_some_iff,
    Option.pure_def, Option.some.injEq] at h
  obtain ⟨stride, hs, size, ⟨rfl, -⟩, rfl⟩ := h
  exact ⟨stride, hs, rfl, rfl⟩

end Layout

namespace Placement

variable {kind : AggregateKind} {packed : Bool} {ls : List Layout} {l : Layout} {p q : Placement}

/-! ## One member -/

/-- In a struct the next member starts at or after the stop. -/
theorem next?_eq_some {o : Nat} (h : p.next? packed l = some o) (hl : l.Regular) :
    p.stop ≤ o ∧ (packed = false → l.align ∣ o) := by
  rw [next?] at h
  split at h
  · rename_i hp
    rw [Option.some.injEq] at h
    exact ⟨Nat.le_of_eq h, fun hf => absurd hp (by simp [hf])⟩
  · have hmax : max l.align 1 = l.align := Nat.max_eq_left hl.align_pos
    have hr := Layout.roundUp_of_roundUp? h
    rw [hmax] at hr
    rw [hr]
    exact ⟨Layout.le_roundUp p.stop hl.align_pos, fun _ => Layout.dvd_roundUp p.stop l.align⟩

/-- Where one more member goes: it ends at or before the new stop, in a struct
it starts at or after the old one, and unless packed it is aligned. -/
theorem place_eq_ok (h : p.place kind packed l = .ok q) (hl : l.Regular) :
    ∃ o stop, q = ⟨p.offsets ++ [o], stop, p.raise packed l⟩ ∧ p.stop ≤ stop ∧
      o + l.size ≤ stop ∧ (kind = .struct → p.stop ≤ o) ∧ (packed = false → l.align ∣ o) := by
  cases kind with
  | union =>
    rw [place, Except.ok.injEq] at h
    exact ⟨0, max p.stop l.size, h.symm, Nat.le_max_left .., by omega, (fun hk => by cases hk),
      fun _ => Nat.dvd_zero _⟩
  | struct =>
    rw [place] at h
    rcases ho : p.next? packed l with - | o
    · simp [ho, orOverflow, bind, Except.bind] at h
    rcases hs : Layout.inRange? (o + l.size) with - | stop
    · simp [ho, hs, orOverflow, bind, Except.bind] at h
    simp only [ho, hs, orOverflow, bind, Except.bind, pure, Except.pure, Except.ok.injEq] at h
    obtain ⟨hle, hdvd⟩ := next?_eq_some ho hl
    have hstop := (Layout.inRange?_eq_some_iff.1 hs).1
    exact ⟨o, stop, h.symm, by omega, by omega, fun _ => hle, hdvd⟩

/-- The natural alignment after one more member: still a power of two, and a
multiple of what it was and, unless packed, of the member's. -/
theorem raise_spec (packed : Bool) (hp : p.natural.isPowerOfTwo) (hl : l.Regular) :
    (p.raise packed l).isPowerOfTwo ∧ p.natural ∣ p.raise packed l ∧
      (packed = false → l.align ∣ p.raise packed l) := by
  rw [raise]
  split
  · rename_i hpk
    exact ⟨hp, Nat.dvd_refl _, fun hf => absurd hpk (by simp [hf])⟩
  · rcases Nat.le_total p.natural l.align with h | h
    · rw [Nat.max_eq_right h]
      exact ⟨hl, dvd_of_isPowerOfTwo_of_le hp hl h, fun _ => Nat.dvd_refl _⟩
    · rw [Nat.max_eq_left h]
      exact ⟨hp, Nat.dvd_refl _, fun _ => dvd_of_isPowerOfTwo_of_le hl hp h⟩

/-! ## All members -/

/-- What holds of a placement of members with the layouts `ls`. -/
structure Holds (kind : AggregateKind) (packed : Bool) (ls : List Layout) (p : Placement) :
    Prop where
  length_eq : p.offsets.length = ls.length
  fits : ∀ (k : Nat) (l : Layout) (o : Nat), ls[k]? = some l → p.offsets[k]? = some o →
    o + l.size ≤ p.stop
  apart : kind = .struct → ∀ (j k : Nat) (l : Layout) (o o' : Nat), j < k → ls[j]? = some l →
    p.offsets[j]? = some o → p.offsets[k]? = some o' → o + l.size ≤ o'
  aligned : packed = false → ∀ (k : Nat) (l : Layout) (o : Nat), ls[k]? = some l →
    p.offsets[k]? = some o → l.align ∣ o
  natural_pow : p.natural.isPowerOfTwo
  natural_dvd : packed = false → ∀ l ∈ ls, l.align ∣ p.natural

theorem holds_nil (kind : AggregateKind) (packed : Bool) : Holds kind packed [] {} where
  length_eq := rfl
  fits _ _ _ h := by simp at h
  apart _ _ _ _ _ _ _ h := by simp at h
  aligned _ _ _ _ h := by simp at h
  natural_pow := ⟨0, rfl⟩
  natural_dvd _ _ h := by simp at h

theorem getElem?_concat {α : Type} {xs : List α} {a b : α} {k : Nat}
    (h : (xs ++ [a])[k]? = some b) : xs[k]? = some b ∨ k = xs.length ∧ b = a := by
  rcases Nat.lt_or_ge k xs.length with hk | hk
  · exact Or.inl (by rwa [List.getElem?_append_left hk] at h)
  · have hlt := (List.getElem?_eq_some_iff.1 h).1
    rw [List.length_append, List.length_singleton] at hlt
    obtain rfl : k = xs.length := by omega
    rw [List.getElem?_concat_length, Option.some.injEq] at h
    exact Or.inr ⟨rfl, h.symm⟩

/-- **Placing one more member** keeps what holds of the ones before. -/
theorem Holds.place (hp : Holds kind packed ls p) (hl : l.Regular)
    (h : p.place kind packed l = .ok q) : Holds kind packed (ls ++ [l]) q := by
  obtain ⟨o, stop, rfl, hstop, hfit, hafter, hdvd⟩ := place_eq_ok h hl
  obtain ⟨hpow, hnat, hlnat⟩ := raise_spec packed hp.natural_pow hl
  have hlen := hp.length_eq
  -- a member of the longer list is an earlier one with its offset, or the new one with `o`
  have hcases : ∀ {k : Nat} {m : Layout} {x : Nat}, (ls ++ [l])[k]? = some m →
      (p.offsets ++ [o])[k]? = some x →
      ls[k]? = some m ∧ p.offsets[k]? = some x ∨ k = ls.length ∧ m = l ∧ x = o := by
    intro k m x hm hx
    rcases getElem?_concat hm with hm | ⟨rfl, rfl⟩
    · rcases getElem?_concat hx with hx | ⟨rfl, rfl⟩
      · exact Or.inl ⟨hm, hx⟩
      · have := (List.getElem?_eq_some_iff.1 hm).1
        omega
    · rcases getElem?_concat hx with hx | ⟨-, rfl⟩
      · have := (List.getElem?_eq_some_iff.1 hx).1
        omega
      · exact Or.inr ⟨rfl, rfl, rfl⟩
  refine ⟨?_, ?_, ?_, ?_, hpow, ?_⟩
  · simp [hlen]
  · intro k m x hm (hx : (p.offsets ++ [o])[k]? = some x)
    rcases hcases hm hx with ⟨hm, hx⟩ | ⟨-, rfl, rfl⟩
    · exact Nat.le_trans (hp.fits k m x hm hx) hstop
    · exact hfit
  · intro hk j k m x x' hjk hm (hx : (p.offsets ++ [o])[j]? = some x)
      (hx' : (p.offsets ++ [o])[k]? = some x')
    have hj : j < ls.length := by
      have hlt := (List.getElem?_eq_some_iff.1 hx').1
      rw [List.length_append, List.length_singleton] at hlt
      omega
    rcases hcases hm hx with ⟨hmj, hxj⟩ | ⟨rfl, -, -⟩
    · rcases getElem?_concat hx' with hxk | ⟨-, rfl⟩
      · exact hp.apart hk j k m x x' hjk hmj hxj hxk
      · exact Nat.le_trans (hp.fits j m x hmj hxj) (hafter hk)
    · omega
  · intro hpk k m x hm (hx : (p.offsets ++ [o])[k]? = some x)
    rcases hcases hm hx with ⟨hm, hx⟩ | ⟨-, rfl, rfl⟩
    · exact hp.aligned hpk k m x hm hx
    · exact hdvd hpk
  · intro hpk m hm
    rcases List.mem_append.1 hm with hm | hm
    · exact Nat.dvd_trans (hp.natural_dvd hpk m hm) hnat
    · rw [List.mem_singleton.1 hm]
      exact hlnat hpk

/-- **Placing all members**: each of them has a layout, and what `Holds` says
holds of the outcome. -/
theorem Holds.placeEach {rs : List (Except Rejection Layout)} (hp : Holds kind packed ls p)
    (hreg : ∀ l, .ok l ∈ rs → l.Regular) (h : p.placeEach kind packed rs = .ok q) :
    ∃ ms, rs = ms.map Except.ok ∧ Holds kind packed (ls ++ ms) q := by
  induction rs generalizing ls p with
  | nil =>
    rw [Placement.placeEach, Except.ok.injEq] at h
    exact ⟨[], rfl, by rw [List.append_nil, ← h]; exact hp⟩
  | cons r rest ih =>
    rw [Placement.placeEach] at h
    rcases r with e | l
    · simp [bind, Except.bind] at h
    rcases hpl : p.place kind packed l with e | p'
    · simp [bind, Except.bind, hpl] at h
    simp only [bind, Except.bind, hpl] at h
    have hp' := hp.place (hreg l (List.mem_cons_self ..)) hpl
    obtain ⟨ms, rfl, hq⟩ := ih hp' (fun m hm => hreg m (List.mem_cons_of_mem _ hm)) h
    exact ⟨l :: ms, rfl, by rwa [List.append_assoc] at hq⟩

/-! ## The whole -/

/-- Closing keeps the offsets, leaves room up to the stop, and chooses a power
of two that the natural alignment divides. -/
theorem close_eq_ok {alignment : Alignment} {l : Layout} (h : p.close alignment = .ok l)
    (hp : p.natural.isPowerOfTwo) :
    l.offsets = p.offsets ∧ p.stop ≤ l.size ∧ l.Regular ∧ p.natural ∣ l.align := by
  rw [close] at h
  rcases ha : p.align alignment with e | a
  · simp [ha, bind, Except.bind] at h
  rcases hs : Layout.roundUp? p.stop a with - | size
  · simp [ha, hs, orOverflow, bind, Except.bind] at h
  simp only [ha, hs, orOverflow, bind, Except.bind, pure, Except.pure, Except.ok.injEq] at h
  -- an explicit alignment is no smaller than the natural one, or closing would fail
  have hpow : a.isPowerOfTwo ∧ p.natural ∣ a := by
    cases alignment with
    | natural =>
      rw [align, Except.ok.injEq] at ha
      exact ha ▸ ⟨hp, Nat.dvd_refl _⟩
    | explicit x =>
      rw [align] at ha
      split at ha
      · cases ha
      · rename_i hlt
        rw [Except.ok.injEq] at ha
        have hx : a.isPowerOfTwo := ha ▸ x.isPowerOfTwo_bytes
        exact ⟨hx, dvd_of_isPowerOfTwo_of_le hp hx (by omega)⟩
  obtain ⟨hpow, hdvd⟩ := hpow
  have hpos : 0 < a := Nat.pos_of_isPowerOfTwo hpow
  have hsize := Layout.roundUp_of_roundUp? hs
  rw [Nat.max_eq_left hpos] at hsize
  rw [← h, hsize]
  exact ⟨rfl, Layout.le_roundUp p.stop hpos, hpow, hdvd⟩

end Placement

/-! ## What is laid out from its parts -/

variable {target : Target} {f : Handle → Except Rejection Layout} {l : Layout}

/-- **An aggregate that is laid out** has every member laid out and placed, and
its own alignment is a multiple of the natural one. -/
theorem Aggregate.layoutIn_eq_ok {a : Aggregate} (h : a.layoutIn f = .ok l)
    (hreg : ∀ m ∈ a.members, ∀ l', f m.type = .ok l' → l'.Regular) :
    ∃ ls p, (a.members.map fun m => f m.type) = ls.map Except.ok ∧
      Placement.Holds a.kind a.isPacked ls p ∧ l.offsets = p.offsets ∧ p.stop ≤ l.size ∧
      l.Regular ∧ p.natural ∣ l.align := by
  rw [Aggregate.layoutIn_eq] at h
  rcases hp : Placement.placeEach a.kind a.isPacked {} (a.members.map fun m => f m.type) with e | p
  · simp [hp, Except.bind] at h
  simp only [hp, Except.bind] at h
  have hall : ∀ l', .ok l' ∈ (a.members.map fun m => f m.type) → l'.Regular := by
    intro l' hl'
    obtain ⟨m, hm, hf⟩ := List.mem_map.1 hl'
    exact hreg m hm l' hf
  obtain ⟨ls, hls, hholds⟩ := (Placement.holds_nil a.kind a.isPacked).placeEach hall hp
  rw [List.nil_append] at hholds
  exact ⟨ls, p, hls, hholds, Placement.close_eq_ok h hholds.natural_pow⟩

/-- An array that is laid out strings its element out, and has its alignment. -/
theorem Compound.layoutIn_array_eq_ok {element : Handle} {length : UInt64}
    (h : (array element length).layoutIn target f = .ok l) :
    ∃ le stride, f element = .ok le ∧ le.stride? = some stride ∧
      l.size = stride * length.toNat ∧ l.align = le.align := by
  rw [layoutIn_array] at h
  rcases hf : f element with e | le
  · simp [hf, Except.bind] at h
  simp only [hf, Except.bind, orOverflow_eq_ok] at h
  obtain ⟨stride, hs, hsize, halign⟩ := Layout.row?_eq_some h
  exact ⟨le, stride, rfl, hs, hsize, halign⟩

/-- Layouts are regular when those of the parts are. -/
theorem Shape.regular_of_layoutIn (ht : target.Regular) {s : Shape}
    (h : s.layoutIn target f = .ok l)
    (hreg : ∀ x ∈ s.parts, ∀ l', f x = .ok l' → l'.Regular) : l.Regular := by
  cases s with
  | primitive p =>
    obtain rfl := Except.ok.inj h
    exact Layout.regular_scalar p.bytes_eq
  | compound c =>
    cases c with
    | pointer pointee space =>
      obtain rfl := Except.ok.inj h
      exact Layout.regular_scalar (ht space)
    | array element length =>
      change (Compound.array element length).layoutIn target f = .ok l at h
      obtain ⟨le, -, hle, -, -, halign⟩ := Compound.layoutIn_array_eq_ok h
      rw [Layout.Regular, halign]
      exact hreg element (List.mem_singleton.2 rfl) le hle
    | aggregate a =>
      obtain ⟨-, -, -, -, -, -, hl, -⟩ := Aggregate.layoutIn_eq_ok h fun m hm =>
        hreg m.type (List.mem_map_of_mem hm)
      exact hl

/-- **Every layout has a power of two for its alignment**, when pointer widths do. -/
theorem Table.Ordered.regular_layoutAnew {t : Table} (ho : t.Ordered) (ht : target.Regular)
    {h : Handle} (hl : t.layoutAnew target h = .ok l) : l.Regular := by
  induction h using ho.induction generalizing l with
  | step h ih =>
    obtain ⟨s, hs, hin⟩ := ho.get?_of_layoutAnew hl
    exact Shape.regular_of_layoutIn ht hin fun x hx l' hl' => ih s hs x hx hl'

end DeviceTypes
