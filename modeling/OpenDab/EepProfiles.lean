import OpenDab.MscDepuncture
import Mathlib.Tactic.LinearCombination
import Mathlib.Tactic.Ring

/-! The number of bits that each EEP profile reads and writes. A block with puncturing index
`pi` reads `4 * (pi + 9)` bits for its 128 positions, and the tail reads 12. -/
namespace OpenDab

open Buffers Puncturing

def eepDepunctureRun (obuf inbuf : Nat → UInt8) (s : Subch) : Option Depunctured :=
  (eeptable[s.protlvl]?).bind fun p =>
    let p := if s.bitrate = 8 ∧ s.protlvl = 1 then eep2a8kbps else p
    depunctureRun obuf inbuf (p.blocks (s.subchsz / p.sizemul))

theorem eepDepuncture_run (obuf inbuf : Nat → UInt8) (s : Subch) :
    eepDepuncture obuf inbuf s =
      (eepDepunctureRun obuf inbuf s).map fun d => (d.obuf, d.k) := by
  rw [eepDepuncture, eepDepunctureRun, Option.map_bind]
  exact congrArg _ (funext fun p => depunctureBlocks_run _ _ _)

/-- The bits of a logical frame are the sub-channel, read to its end and no further, and what is
written is one frame with its tail. -/
def ConsumesExactly (s : Subch) : Prop :=
  ∀ obuf inbuf, ∃ d, eepDepunctureRun obuf inbuf s = some d ∧
    eepDepuncture obuf inbuf s = some (d.obuf, d.k) ∧
    d.j = bitspercu * s.subchsz ∧ d.k = 4 * (24 * s.bitrate + 6) ∧
    d.k / 4 - (7 - 1) = 24 * s.bitrate

theorem blockPattern_add (m size : Nat) (pi : Int) :
    blockPattern (32 * m + size) pi = blockPattern (32 * m) pi ++ blockPattern size pi := by
  simp only [blockPattern, List.range_add, List.map_append, List.map_map]
  congr 1
  refine List.map_congr_left fun i _ => ?_
  simp only [Function.comp_apply, Nat.mul_add_mod]

theorem ones_row : ∀ pi < 24, (blockPattern 128 (pi : Nat)).count true = 4 * (pi + 9) := by
  decide +kernel

theorem ones_block {pi : Nat} (row : pi < 24) (m : Nat) :
    (blockPattern (blksize * m) pi).count true = 4 * (pi + 9) * m := by
  induction m with
  | zero => rfl
  | succ m ih =>
    have split := blockPattern_add (4 * m) 128 pi
    rw [show 32 * (4 * m) = blksize * m by rw [blksize]; omega] at split
    rw [show blksize * (m + 1) = blksize * m + 128 from rfl, split, List.count_append, ih,
      ones_row pi row]
    exact (Nat.mul_succ _ _).symm

theorem ones_tail : (blockPattern 24 7).count true = 12 := by decide +kernel

/-- What two blocks and the tail read and write. -/
theorem depunctureRun_two (obuf inbuf : Nat → UInt8) {first second : Nat} (row : first < 24)
    (row' : second < 24) (m m' : Nat) :
    ∃ d, depunctureRun obuf inbuf [(m, first), (m', second)] = some d ∧
      d.j = 4 * (first + 9) * m + 4 * (second + 9) * m' + 12 ∧ d.k = 128 * m + 128 * m' + 24 := by
  have rows : ∀ pi < 24, (pvecRow (pi : Nat)).isSome := by decide
  have known : ∀ block ∈ [(m, (first : Int)), (m', (second : Int))], block.1 ≠ 0 →
      ∃ vector, pvecRow block.2 = some vector := by
    simp only [List.mem_cons, List.not_mem_nil, or_false]
    rintro block (rfl | rfl) -
    · exact Option.isSome_iff_exists.mp (rows first row)
    · exact Option.isSome_iff_exists.mp (rows second row')
  obtain ⟨d, run, filled⟩ := depunctureRun_filled obuf inbuf _ known
  refine ⟨d, run, ?_, ?_⟩
  · rw [filled.read, rank_list (begins_keeps _)]
    simp only [pattern, List.flatMap_cons, List.flatMap_nil, List.append_nil, List.count_append,
      ones_block row, ones_block row', ones_tail]
  · rw [filled.written]
    simp only [pattern, List.flatMap_cons, List.flatMap_nil, List.append_nil, List.length_append,
      length_blockPattern, blksize]

structure Subch.Sized (s : Subch) (row : EepProf) (n : Nat) : Prop where
  level : eeptable[s.protlvl]? = some row
  size : s.subchsz = n * row.sizemul
  rate : s.bitrate = n * row.ratemul

def Subch.profile (s : Subch) (row : EepProf) : EepProf :=
  if s.bitrate = 8 ∧ s.protlvl = 1 then eep2a8kbps else row

/-- A sub-channel is consumed exactly when the sums over its two blocks come out. -/
theorem consumes_iff {s : Subch} {row : EepProf} (level : eeptable[s.protlvl]? = some row)
    {first second m m' : Nat} (inside : first < 24) (inside' : second < 24)
    (blocks : (s.profile row).blocks (s.subchsz / (s.profile row).sizemul) =
      [(m, (first : Int)), (m', (second : Int))]) :
    ConsumesExactly s ↔
      4 * (first + 9) * m + 4 * (second + 9) * m' + 12 = 64 * s.subchsz ∧
      128 * m + 128 * m' + 24 = 4 * (24 * s.bitrate + 6) := by
  have ends (obuf inbuf : Nat → UInt8) : ∃ d, eepDepunctureRun obuf inbuf s = some d ∧
      d.j = 4 * (first + 9) * m + 4 * (second + 9) * m' + 12 ∧ d.k = 128 * m + 128 * m' + 24 := by
    rw [eepDepunctureRun, level, Option.bind_some]
    have two := depunctureRun_two obuf inbuf inside inside' m m'
    rwa [← blocks] at two
  constructor
  · intro exact
    obtain ⟨d, run, read, written⟩ := ends (fun _ => 0) fun _ => 0
    obtain ⟨d', run', -, read', written', -⟩ := exact (fun _ => 0) fun _ => 0
    obtain rfl : d = d' := Option.some.inj (run.symm.trans run')
    exact ⟨read.symm.trans read', written.symm.trans written'⟩
  · rintro ⟨bits, symbols⟩ obuf inbuf
    obtain ⟨d, run, read, written⟩ := ends obuf inbuf
    refine ⟨d, run, by rw [eepDepuncture_run, run]; rfl, read.trans bits, written.trans symbols, ?_⟩
    omega

/-- A row of the table: `a * n - 3` and `b * n + 3` blocks with neighbouring vectors, whose bits
and positions add up to the size and the rate. -/
structure EepProf.Regular (row : EepProf) (a b pi : Nat) : Prop where
  blocks : row.l = [((a : Int), -3), ((b : Int), 3)]
  vectors : row.pi = [((pi + 1 : Nat) : Int), (pi : Int)]
  inside : pi + 1 < 24
  bits : (pi + 10) * a + (pi + 9) * b = 16 * row.sizemul
  symbols : 4 * (a + b) = 3 * row.ratemul
  size : 0 < row.sizemul

theorem regular_rows {p : Nat} {row : EepProf} (level : eeptable[p]? = some row) :
    ∃ a b pi, row.Regular a b pi ∧ 2 ≤ a ∧ (p ≠ 1 → 3 ≤ a) := by
  have known : p < 8 := by
    have found := List.getElem?_eq_some_iff.mp level
    simpa [eeptable] using found.1
  have rows : p = 0 ∨ p = 1 ∨ p = 2 ∨ p = 3 ∨ p = 4 ∨ p = 5 ∨ p = 6 ∨ p = 7 := by omega
  rcases rows with rfl | rfl | rfl | rfl | rfl | rfl | rfl | rfl <;> cases level
  · exact ⟨6, 0, 22, ⟨rfl, rfl, by decide, rfl, rfl, by decide⟩, by decide, by decide⟩
  · exact ⟨2, 4, 12, ⟨rfl, rfl, by decide, rfl, rfl, by decide⟩, by decide, by decide⟩
  · exact ⟨6, 0, 6, ⟨rfl, rfl, by decide, rfl, rfl, by decide⟩, by decide, by decide⟩
  · exact ⟨4, 2, 1, ⟨rfl, rfl, by decide, rfl, rfl, by decide⟩, by decide, by decide⟩
  · exact ⟨24, 0, 8, ⟨rfl, rfl, by decide, rfl, rfl, by decide⟩, by decide, by decide⟩
  · exact ⟨24, 0, 4, ⟨rfl, rfl, by decide, rfl, rfl, by decide⟩, by decide, by decide⟩
  · exact ⟨24, 0, 2, ⟨rfl, rfl, by decide, rfl, rfl, by decide⟩, by decide, by decide⟩
  · exact ⟨24, 0, 0, ⟨rfl, rfl, by decide, rfl, rfl, by decide⟩, by decide, by decide⟩

theorem EepProf.Regular.blocks_eq {row : EepProf} {a b pi : Nat} (regular : row.Regular a b pi)
    (n : Nat) : row.blocks n = [(a * n - 3, ((pi + 1 : Nat) : Int)), (b * n + 3, (pi : Int))] := by
  have first : ((a : Int) * n + -3).toNat = a * n - 3 := by omega
  have second : ((b : Int) * n + 3).toNat = b * n + 3 := by omega
  rw [EepProf.blocks, regular.blocks, regular.vectors, List.map_cons, List.map_cons, List.map_nil,
    first, second]
  rfl

/-- The fourth part of the bits: three blocks less of the one vector and three more of the other
make the twelve bits of the tail. -/
theorem EepProf.Regular.sums {row : EepProf} {a b pi n : Nat} (regular : row.Regular a b pi)
    (enough : 3 ≤ a * n) :
    4 * (pi + 1 + 9) * (a * n - 3) + 4 * (pi + 9) * (b * n + 3) + 12 = 64 * (n * row.sizemul) ∧
      128 * (a * n - 3) + 128 * (b * n + 3) + 24 = 4 * (24 * (n * row.ratemul) + 6) := by
  obtain ⟨m, first⟩ : ∃ m, a * n = m + 3 := ⟨a * n - 3, by omega⟩
  have bits : (pi + 10) * (a * n) + (pi + 9) * (b * n) = 16 * (n * row.sizemul) := by
    calc (pi + 10) * (a * n) + (pi + 9) * (b * n) = ((pi + 10) * a + (pi + 9) * b) * n := by ring
      _ = 16 * (n * row.sizemul) := by rw [regular.bits]; ring
  have symbols : 4 * (a * n + b * n) = 3 * (n * row.ratemul) := by
    calc 4 * (a * n + b * n) = 4 * (a + b) * n := by ring
      _ = 3 * (n * row.ratemul) := by rw [regular.symbols]; ring
  refine ⟨?_, by omega⟩
  rw [first] at bits ⊢
  rw [Nat.add_sub_cancel]
  linear_combination 4 * bits

/-- The profile for level 2-A at 8 kbit/s reads 336 of the 512 bits. -/
theorem special_underreads {s : Subch} (level : s.protlvl = 1) (size : s.subchsz = 8)
    (rate : s.bitrate = 8) : ¬ConsumesExactly s := by
  have row : eeptable[s.protlvl]? = some ⟨8, 8, [(2, -3), (4, 3)], [13, 12]⟩ := by rw [level]; rfl
  have chosen : s.profile ⟨8, 8, [(2, -3), (4, 3)], [13, 12]⟩ = eep2a8kbps := if_pos ⟨rate, level⟩
  have blocks : (s.profile ⟨8, 8, [(2, -3), (4, 3)], [13, 12]⟩).blocks (s.subchsz /
      (s.profile ⟨8, 8, [(2, -3), (4, 3)], [13, 12]⟩).sizemul) =
      [(5, ((3 : Nat) : Int)), (1, ((12 : Nat) : Int))] := by
    rw [chosen]
    simp [EepProf.blocks, eep2a8kbps]
  rw [consumes_iff row (by decide) (by decide) blocks, size, rate]
  decide

/-- Every EEP sub-channel is consumed exactly, except for level 2-A at 8 kbit/s. -/
theorem eep_consumes_iff (s : Subch) (row : EepProf) (n : Nat) (one : 1 ≤ n)
    (sized : s.Sized row n) : ConsumesExactly s ↔ ¬(s.protlvl = 1 ∧ n = 1) := by
  obtain ⟨level, size, rate⟩ := sized
  by_cases special : s.protlvl = 1 ∧ n = 1
  · obtain ⟨first, rfl⟩ := special
    rw [first] at level
    cases level
    exact ⟨fun consumes => absurd consumes (special_underreads first size rate),
      fun other => absurd ⟨first, rfl⟩ other⟩
  · obtain ⟨a, b, pi, regular, two, three⟩ := regular_rows level
    have chosen : s.profile row = row := by
      refine if_neg fun eight => special ⟨eight.2, ?_⟩
      rw [eight.2] at level
      cases level
      change s.bitrate = n * 8 at rate
      omega
    have enough : 3 ≤ a * n := by
      by_cases single : n = 1
      · rw [single, Nat.mul_one]
        exact three fun first => special ⟨first, single⟩
      · calc 3 ≤ 2 * 2 := by decide
          _ ≤ a * n := Nat.mul_le_mul two (by omega)
    have count : s.subchsz / row.sizemul = n := by
      rw [size, Nat.mul_div_cancel _ regular.size]
    rw [consumes_iff level regular.inside (Nat.lt_of_succ_lt regular.inside)
      (by rw [chosen, count]; exact regular.blocks_eq n), size, rate]
    exact ⟨fun _ => special, fun _ => regular.sums enough⟩

theorem eep_consumes_iff_weakest : ConsumesExactly weakest :=
  (eep_consumes_iff weakest ⟨15, 32, [(24, -3), (0, 3)], [1, 0]⟩ 1 (by decide)
    ⟨rfl, rfl, rfl⟩).mpr (by decide)

def smallest2a : Subch := ⟨5, 0, 8, 8, 1, 1, 0, 0⟩

theorem smallest2a_underreads :
    smallest2a.Sized ⟨8, 8, [(2, -3), (4, 3)], [13, 12]⟩ 1 ∧ ¬ConsumesExactly smallest2a :=
  ⟨⟨rfl, rfl, rfl⟩, special_underreads rfl rfl rfl⟩

end OpenDab
