import OpenDab.Figs

/-! Conversion of a sub-channel's start address and size to symbol numbers. -/
namespace OpenDab

open Buffers

/-- Start and end symbols for each CIF, and the sub-channel's offset inside the first symbol. -/
def startsym (r : Symrange) (s : Subch) : Symrange :=
  let r := { r with
    start := store r.start 0 (s.startaddr / cuspersym + mscstart)
    end_ := store r.end_ 0 ((s.startaddr + s.subchsz) / cuspersym + mscstart)
    endcu := (s.startaddr + s.subchsz) % cuspersym }
  let r := loop 3 (fun i r => { r with
    start := store r.start (i + 1) (r.start i + symspercif)
    end_ := store r.end_ (i + 1) (r.end_ i + symspercif) }) r
  { r with
    startcu := s.startaddr % cuspersym
    numsyms := r.end_ 0 - r.start 0 + 1 }

theorem startsym_start (r : Symrange) (s : Subch) (j : Nat) (cif : j < 4) :
    (startsym r s).start j = s.startaddr / 48 + 5 + 18 * j := by
  have cases : j = 0 ∨ j = 1 ∨ j = 2 ∨ j = 3 := by omega
  rcases cases with rfl | rfl | rfl | rfl <;>
    simp [startsym, loop_succ, cuspersym, mscstart, symspercif]

theorem startsym_end (r : Symrange) (s : Subch) (j : Nat) (cif : j < 4) :
    (startsym r s).end_ j = (s.startaddr + s.subchsz) / 48 + 5 + 18 * j := by
  have cases : j = 0 ∨ j = 1 ∨ j = 2 ∨ j = 3 := by omega
  rcases cases with rfl | rfl | rfl | rfl <;>
    simp [startsym, loop_succ, cuspersym, mscstart, symspercif]

@[simp] theorem startsym_startcu (r : Symrange) (s : Subch) :
    (startsym r s).startcu = s.startaddr % 48 := by
  simp [startsym, cuspersym]

theorem startsym_numsyms (r : Symrange) (s : Subch) :
    (startsym r s).numsyms = (s.startaddr + s.subchsz) / 48 - s.startaddr / 48 + 1 := by
  simp [startsym, loop_succ, cuspersym, mscstart, symspercif]

/-- The slices of one CIF: symbols `lo .. lo + numsyms - 1` of the 18, and nothing past the last. -/
theorem startsym_inside (r : Symrange) (s : Subch) (inside : s.startaddr + s.subchsz < 864) :
    s.startaddr / 48 + (startsym r s).numsyms ≤ 18 ∧ 1 ≤ (startsym r s).numsyms := by
  rw [startsym_numsyms]
  omega

def SymbolCarries (s : Subch) (i n : Nat) : Prop :=
  ∃ q < symspercif, n = mscstart + symspercif * i + q ∧
    ∃ cu, cuspersym * q ≤ cu ∧ cu < cuspersym * (q + 1) ∧
      s.startaddr ≤ cu ∧ cu < s.startaddr + s.subchsz

/-- The ranges are the symbols that carry the sub-channel, CIF by CIF. -/
structure SelectsExactly (r : Symrange) (s : Subch) : Prop where
  symbols : ∀ i < 4, ∀ n, r.start i ≤ n ∧ n ≤ r.end_ i ↔ SymbolCarries s i n
  disjoint : ∀ i < 4, ∀ j < 4, i ≠ j → ∀ n, r.start i ≤ n ∧ n ≤ r.end_ i →
    ¬(r.start j ≤ n ∧ n ≤ r.end_ j)
  last : r.end_ 3 ≤ 76
  room : r.startcu + s.subchsz ≤ cuspersym * r.numsyms

/-- The first and the last slice that carry the sub-channel. -/
theorem symbolCarries_iff (s : Subch) (i n : Nat) (nonempty : 1 ≤ s.subchsz)
    (inside : s.startaddr + s.subchsz ≤ 864) :
    SymbolCarries s i n ↔ s.startaddr / 48 + 5 + 18 * i ≤ n ∧
      n ≤ (s.startaddr + s.subchsz - 1) / 48 + 5 + 18 * i := by
  simp only [SymbolCarries, symspercif, mscstart, cuspersym]
  constructor
  · rintro ⟨q, small, rfl, cu, low, high, first, last⟩
    omega
  · rintro ⟨low, high⟩
    refine ⟨n - 5 - 18 * i, by omega, by omega, max s.startaddr (48 * (n - 5 - 18 * i)), ?_⟩
    omega

/-- The end symbol is the one that holds the exclusive end address: it is right unless that
address is the first of its symbol. -/
theorem startsym_selects_iff (r : Symrange) (s : Subch) (nonempty : 1 ≤ s.subchsz)
    (inside : s.startaddr + s.subchsz ≤ 864) :
    SelectsExactly (startsym r s) s ↔ ¬48 ∣ s.startaddr + s.subchsz := by
  have start := startsym_start r s
  have stop := startsym_end r s
  constructor
  · intro selects whole
    have extra := (selects.symbols 0 (by decide) ((startsym r s).end_ 0)).mp
      ⟨by rw [start 0 (by decide), stop 0 (by decide)]; omega, Nat.le_refl _⟩
    rw [symbolCarries_iff s _ _ nonempty inside, stop 0 (by decide)] at extra
    omega
  · intro partly
    refine ⟨fun i cif n => ?_, fun i cif j other apart n first second => ?_, ?_, ?_⟩
    · rw [symbolCarries_iff s i n nonempty inside, start i cif, stop i cif]
      omega
    · rw [start i cif, stop i cif] at first
      rw [start j other, stop j other] at second
      omega
    · rw [stop 3 (by decide)]
      omega
    · rw [startsym_startcu, startsym_numsyms, cuspersym]
      omega

/-- A sub-channel of 96 capacity units from address 10 on. -/
theorem startsym_selects_iff_ten : SelectsExactly
    (startsym ⟨fun _ => 0, fun _ => 0, 0, 0, 0⟩ ⟨0, 10, 96, 128, 0, 0, 0, 0⟩)
    ⟨0, 10, 96, 128, 0, 0, 0, 0⟩ :=
  (startsym_selects_iff _ _ (by decide) (by decide)).mpr (by decide)

/-- The full multiplex: the last CIF would end with symbol 77, which does not exist. -/
theorem full_multiplex_overruns : ¬SelectsExactly
    (startsym ⟨fun _ => 0, fun _ => 0, 0, 0, 0⟩ ⟨0, 0, 864, 1152, 0, 0, 0, 0⟩)
    ⟨0, 0, 864, 1152, 0, 0, 0, 0⟩ := by
  intro selects
  have last := selects.last
  rw [startsym_end _ _ 3 (by decide)] at last
  exact absurd last (by decide)

end OpenDab
