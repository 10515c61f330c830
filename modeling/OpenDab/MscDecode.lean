import OpenDab.Described
import OpenDab.EepProfiles
import OpenDab.Mp2
import OpenDab.MscStream
import OpenDab.SuperframeDecoding
import OpenDab.Wfic.Fib
import OpenDab.Wfic.Nearest

/-! `msc_decode`: a logical frame is de-interleaved, depunctured, decoded, descrambled and
packed, and goes to the audio decoder. Its buffers are allocated at the first call for the
sub-channel of that call; an access behind the end of one gives `none`. -/
namespace OpenDab

open Buffers Puncturing

def uepDepunctureRun (obuf inbuf : Nat → UInt8) (s : Subch) : Option Depunctured :=
  (if 0 ≤ s.uepIndx then ueptable[s.uepIndx.toNat]? else none).bind fun p =>
    depunctureRun obuf inbuf p.blocks

def mscDepunctureRun (obuf inbuf : Nat → UInt8) (s : Subch) : Option Depunctured :=
  if s.eepprot ≠ 0 then eepDepunctureRun obuf inbuf s else uepDepunctureRun obuf inbuf s

theorem mscDepuncture_run (obuf inbuf : Nat → UInt8) (s : Subch) :
    mscDepuncture obuf inbuf s = (mscDepunctureRun obuf inbuf s).map fun d => (d.obuf, d.k) := by
  unfold mscDepuncture mscDepunctureRun
  split
  · exact eepDepuncture_run obuf inbuf s
  · rw [uepDepuncture, uepDepunctureRun, Option.map_bind]
    congr 1
    funext p
    exact depunctureBlocks_run obuf inbuf p.blocks

structure AudioState where
  plus : DabPlusState
  mp2 : Mp2State

/-- The statics of `msc_decode`; `units` and `super` are what the buffers have been allocated for. -/
structure MscDecoder where
  init : Bool
  units : Nat
  super : Bool
  lf : Nat → UInt8
  dpbuf : Nat → UInt8
  obuf : Nat → UInt8
  audio : AudioState

/-- First-call allocation: the memory keeps what it held. -/
def MscDecoder.allocate (s : Subch) (d : MscDecoder) : MscDecoder :=
  if d.init then { d with init := false, units := s.subchsz, super := decide (s.dabplus ≠ 0) } else d

section Decode

variable (T : Target) (mettab : Nat → Nat → Int) (decodeRs : List UInt8 → List UInt8)

/-- From the circular buffer to the bytes of one logical frame and their number. -/
def MscDecoder.frame (s : Subch) (sr : Symrange) (b : Cbuf) (d : MscDecoder) :
    Option (MscDecoder × Nat) :=
  if d.units < s.subchsz ∨ sr.numsyms * bitspersym < bitspercu * (sr.startcu + s.subchsz) then none
  else
    let lf := timeDisinterleave d.lf s.subchsz sr b
    (mscDepunctureRun d.dpbuf lf s).bind fun p =>
      if d.units * bitspercu < p.j ∨ 4 * d.units * bitspercu < p.k then none
      else
        let bits := p.k / 4 - (7 - 1)
        (kViterbi T d.obuf p.obuf bits mettab 0 0).map fun v =>
          let dpbuf := scramble v.data p.obuf bits
          let r := bitToByte 1 dpbuf bits v.data
          ({ d with lf := lf, dpbuf := dpbuf, obuf := r.1 }, r.2)

def audioDecode (s : Subch) (obytes : Nat) (obuf : Nat → UInt8) (a : AudioState) :
    Option (AudioState × List UInt8) :=
  if s.dabplus ≠ 0 then
    (wfdabplusdec decodeRs obytes s.bitrate obuf a.plus).map fun r => (⟨r.1, a.mp2⟩, r.2)
  else
    let r := wfmp2 s.bitrate ⟨obuf, obytes⟩ a.mp2
    some (⟨a.plus, r.1⟩, r.2.getD [])

/-- Finish decoding the frames from the circular buffer. The superframe buffer has to exist and to
hold five frames. -/
def mscDecode (s : Subch) (sr : Symrange) (b : Cbuf) (d : MscDecoder) :
    Option (MscDecoder × List UInt8) :=
  ((d.allocate s).frame T mettab s sr b).bind fun r =>
    if s.dabplus ≠ 0 ∧ (r.1.super = false ∨ 5 * 4 * r.1.units * bitspercu < 5 * r.2) then none
    else
      (audioDecode decodeRs s r.2 r.1.obuf r.1.audio).map fun a =>
        ({ r.1 with audio := a.1 }, a.2)

end Decode

/-! What a profile reads and writes. -/

def bitsRead (blocks : List (Nat × Int)) : Nat :=
  (blocks.map fun block => 4 * (block.2.toNat + 9) * block.1).sum + 12

def positions (blocks : List (Nat × Int)) : Nat :=
  (blocks.map fun block => 128 * block.1).sum + 24

theorem pvecRow_inside {pi : Int} {vector : List Nat} (row : pvecRow pi = some vector) :
    ∃ k : Nat, pi = k ∧ k < 24 := by
  unfold pvecRow at row
  split at row
  · next nonneg =>
    have inside := (List.getElem?_eq_some_iff.mp row).1
    refine ⟨pi.toNat, by omega, ?_⟩
    simpa [pvec] using inside
  · exact absurd row (by simp)

theorem count_pattern {blocks : List (Nat × Int)}
    (known : ∀ block ∈ blocks, block.1 ≠ 0 → ∃ vector, pvecRow block.2 = some vector) :
    (pattern blocks).count true = bitsRead blocks := by
  rw [pattern, List.count_append, ones_tail, bitsRead, List.count_flatMap]
  congr 1
  refine congrArg _ (List.map_congr_left fun block member => ?_)
  by_cases none : block.1 = 0
  · simp [none, blockPattern]
  · obtain ⟨vector, row⟩ := known block member none
    obtain ⟨k, index, inside⟩ := pvecRow_inside row
    rw [index, Function.comp_apply, index, ones_block inside, Int.toNat_natCast]

theorem pattern_positions (blocks : List (Nat × Int)) :
    (pattern blocks).length = positions blocks := by
  rw [pattern, List.length_append, length_blockPattern, positions, List.length_flatMap]
  congr 1
  refine congrArg _ (List.map_congr_left fun block _ => ?_)
  exact length_blockPattern _ _

/-- The sub-channel holds the bits that its profile reads, and the profile writes one frame with its
tail. -/
structure Subch.Consumable (s : Subch) : Prop where
  listed : s.Listed
  read : bitsRead s.blocks ≤ bitspercu * s.subchsz
  written : positions s.blocks = 4 * (24 * s.bitrate + 6)
  size : 4 ≤ s.subchsz

def Subch.Whole (s : Subch) : Prop :=
  s.eepprot ≠ 0 → ∀ row, eeptable[s.protlvl]? = some row → row.sizemul ≤ s.subchsz

theorem uep_rows : ∀ p ∈ ueptable, bitsRead p.blocks ≤ 64 * p.subchsz ∧
    positions p.blocks = 4 * (24 * p.bitrate + 6) ∧ 4 ≤ p.subchsz := by
  decide

theorem EepProf.Regular.consumed {row : EepProf} {a b pi n : Nat} (regular : row.Regular a b pi)
    (enough : 3 ≤ a * n) : bitsRead (row.blocks n) = 64 * (n * row.sizemul) ∧
      positions (row.blocks n) = 4 * (24 * (n * row.ratemul) + 6) := by
  have sums := regular.sums enough
  rw [regular.blocks_eq]
  simp only [bitsRead, positions, List.map_cons, List.map_nil, List.sum_cons, List.sum_nil,
    Int.toNat_natCast, Nat.add_zero]
  exact sums

theorem eep_rows : ∀ row ∈ eeptable, 4 ≤ row.sizemul := by decide

/-- What a row of the EEP table reads and writes for a sub-channel of at least one unit. -/
theorem consumable_eep {s : Subch} {row : EepProf} (eep : s.eepprot ≠ 0)
    (level : eeptable[s.protlvl]? = some row) (rate : s.bitrate = s.subchsz / row.sizemul * row.ratemul)
    (whole : row.sizemul ≤ s.subchsz) : s.Consumable := by
  obtain ⟨a, b, pi, regular, two, three⟩ := regular_rows level
  have known := List.getElem?_eq_some_iff.mp level
  have large : 4 ≤ row.sizemul := eep_rows row (known.2 ▸ List.getElem_mem known.1)
  have units : 1 ≤ s.subchsz / row.sizemul := (Nat.one_le_div_iff regular.size).mpr whole
  have inside : s.subchsz / row.sizemul * row.sizemul ≤ s.subchsz := Nat.div_mul_le_self _ _
  have listed : s.Listed := by
    rw [Subch.Listed, if_pos eep]
    simpa [eeptable] using known.1
  have blocks : s.blocks = (s.profile row).blocks (s.subchsz / (s.profile row).sizemul) := by
    rw [Subch.blocks, if_pos eep, List.getD_eq_getElem?_getD, level]
    rfl
  by_cases special : s.bitrate = 8 ∧ s.protlvl = 1
  · have chosen : s.profile row = eep2a8kbps := if_pos special
    rw [special.2] at level
    cases level
    have one : s.subchsz / 8 = 1 := by
      rw [special.1] at rate
      change 8 = s.subchsz / 8 * 8 at rate
      omega
    have found : s.blocks = [(5, 3), (1, 12)] := by
      rw [blocks, chosen]
      simp [eep2a8kbps, one, EepProf.blocks]
    refine ⟨listed, ?_, ?_, by omega⟩
    · calc bitsRead s.blocks = 336 := by rw [found]; rfl
        _ ≤ bitspercu * s.subchsz := by
          change 336 ≤ 64 * s.subchsz
          change 8 ≤ s.subchsz at whole
          omega
    · rw [found, special.1]
      rfl
  · have chosen : s.profile row = row := if_neg special
    have enough : 3 ≤ a * (s.subchsz / row.sizemul) := by
      by_cases second : s.protlvl = 1
      · -- one unit at level 2-A is the special case
        have more : s.subchsz / row.sizemul ≠ 1 := by
          intro single
          rw [second] at level
          cases level
          refine special ⟨?_, second⟩
          rw [rate, single]
          rfl
        calc 3 ≤ 2 * 2 := by decide
          _ ≤ a * (s.subchsz / row.sizemul) := Nat.mul_le_mul two (by omega)
      · exact Nat.le_trans (three second) (Nat.le_mul_of_pos_right a units)
    obtain ⟨read, written⟩ := regular.consumed enough
    refine ⟨listed, ?_, ?_, by omega⟩
    · rw [blocks, chosen, read]
      exact Nat.mul_le_mul_left 64 inside
    · rw [blocks, chosen, written, rate]

/-- Every sub-channel that the FIC describes is consumable, if it has at least one unit. -/
theorem ReadFrom.consumable {s : Subch} (read : ReadFrom s) (whole : s.Whole) : s.Consumable := by
  obtain ⟨held, fig, d, len, entry, same⟩ := read
  unfold fig01Entry at entry
  dsimp only at entry
  split at entry
  · next eep =>
    obtain ⟨row, level, made⟩ := Option.map_eq_some_iff.mp entry
    cases made
    rw [same] at whole ⊢
    exact consumable_eep eep level rfl (whole eep row level)
  · next uep =>
    obtain ⟨row, level, made⟩ := Option.map_eq_some_iff.mp entry
    cases made
    obtain ⟨inside, found⟩ := List.getElem?_eq_some_iff.mp level
    obtain ⟨bits, symbols, size⟩ := uep_rows row (found ▸ List.getElem_mem inside)
    have blocks : s.blocks = row.blocks := by
      rw [same, Subch.blocks, if_neg uep]
      simp only [Int.toNat_natCast, List.getD_eq_getElem?_getD, level, Option.getD_some]
    refine ⟨?_, ?_, ?_, ?_⟩
    · rw [same, Subch.Listed, if_neg uep]
      refine ⟨Int.natCast_nonneg _, ?_⟩
      have small : ueptable.length = 64 := by decide
      rw [small] at inside
      exact Int.ofNat_lt.mpr inside
    · rw [blocks, same]
      exact bits
    · rw [blocks, same]
      exact symbols
    · rw [same]
      exact size

/-! The frame that comes out of a call. -/

def dispersed (message : Nat → UInt8) (i : Nat) : UInt8 :=
  bitAt (message (i / 8)) (7 - i % 8) ^^^ prbs i

/-- What is sent of a frame: its dispersed bits, encoded and punctured. -/
def Subch.sent (s : Subch) (message : Nat → UInt8) : List UInt8 :=
  kept (keeps s.blocks) (encodeBits (fun _ => 0) (dispersed message) (24 * s.bitrate))
    (4 * (24 * s.bitrate + 6))

def Subch.errors (s : Subch) (message received : Nat → UInt8) : Nat :=
  Nat.count (fun i => (s.sent message).getD i 0 ≠ received i) (s.sent message).length

/-- No message is closer to the received bits. -/
def Subch.Nearest (s : Subch) (received frame : Nat → UInt8) : Prop :=
  ∀ message, s.errors frame received ≤ s.errors message received

theorem dispersed_bit (message : Nat → UInt8) (i : Nat) :
    dispersed message i = 0 ∨ dispersed message i = 1 := by
  unfold dispersed
  rcases bitAt_cases (message (i / 8)) (7 - i % 8) (by omega) with bit | bit <;>
    rcases prbs_bit i with mask | mask <;> simp [bit, mask]

def dispersedBits (message : Nat → UInt8) (nbits : Nat) : Nat → Bool :=
  inputBits (dispersed message) nbits

theorem errors_missed (s : Subch) (message received : Nat → UInt8) :
    s.errors message received =
      Nat.count (Missed (keeps s.blocks) received (codeword (dispersedBits message (24 * s.bitrate))))
        (4 * (24 * s.bitrate + 6)) := by
  have code (p : Nat) (inside : p < 4 * (24 * s.bitrate + 6)) :
      encodeBits (fun _ => 0) (dispersed message) (24 * s.bitrate) p =
        codeword (dispersedBits message (24 * s.bitrate)) p :=
    encodeBits_codeword _ (fun i _ => dispersed_bit message i) inside
  rw [Subch.errors, Subch.sent, count_kept (keeps s.blocks)
    (encodeBits (fun _ => 0) (dispersed message) (24 * s.bitrate)) 0 (fun a i => a ≠ received i)]
  simp only [Nat.count_eq_card_filter_range]
  refine congrArg _ (Finset.filter_congr fun p inside => ?_)
  rw [code p (Finset.mem_range.mp inside), Missed]

theorem Subch.Consumable.length {s : Subch} (consumable : s.Consumable) :
    (pattern s.blocks).length = 4 * (24 * s.bitrate + 6) :=
  (pattern_positions s.blocks).trans consumable.written

theorem Subch.Consumable.rank_le {s : Subch} (consumable : s.Consumable) :
    rank (keeps s.blocks) (4 * (24 * s.bitrate + 6)) ≤ bitspercu * s.subchsz := by
  rw [← consumable.length, rank_list (begins_keeps s.blocks), count_pattern (known_blocks consumable.listed)]
  exact consumable.read

/-- One kept position in every group of four. -/
theorem rank_groups {keep : Nat → Bool} {n : Nat} (first : ∀ t < n, keep (4 * t) = true) :
    n ≤ rank keep (4 * n) := by
  induction n with
  | zero => exact Nat.zero_le _
  | succ n ih =>
    calc n + 1 ≤ rank keep (4 * n) + 1 := Nat.succ_le_succ (ih fun t inside => first t (by omega))
      _ = rank keep (4 * n + 1) := by rw [rank, if_pos (first n (Nat.lt_succ_self n))]
      _ ≤ rank keep (4 * (n + 1)) := rank_mono keep (by omega)

theorem Subch.Consumable.first {s : Subch} (consumable : s.Consumable) {t : Nat}
    (inside : t < 24 * s.bitrate + 6) : keeps s.blocks (4 * t) = true :=
  (pattern_aligned s.blocks (known_blocks consumable.listed)).first t (by
    rw [consumable.length]
    omega)

theorem length_sent (s : Subch) (message : Nat → UInt8) :
    (s.sent message).length = rank (keeps s.blocks) (4 * (24 * s.bitrate + 6)) :=
  length_kept _ _ _

/-- Only the bits that are read count. -/
theorem errors_congr {s : Subch} (consumable : s.Consumable) {received received' : Nat → UInt8}
    (same : ∀ i < bitspercu * s.subchsz, received i = received' i) (message : Nat → UInt8) :
    s.errors message received = s.errors message received' := by
  have short : (s.sent message).length ≤ bitspercu * s.subchsz := by
    rw [length_sent]
    exact consumable.rank_le
  simp only [Subch.errors, Nat.count_eq_card_filter_range]
  refine congrArg _ (Finset.filter_congr fun i inside => ?_)
  rw [same i (Nat.lt_of_lt_of_le (Finset.mem_range.mp inside) short)]

theorem mscDepunctureRun_blocks {s : Subch} (listed : s.Listed) (obuf inbuf : Nat → UInt8) :
    mscDepunctureRun obuf inbuf s = depunctureRun obuf inbuf s.blocks := by
  unfold Subch.Listed at listed
  unfold mscDepunctureRun Subch.blocks
  split at listed
  · next eep =>
    have inside : s.protlvl < eeptable.length := by simpa [eeptable] using listed
    rw [if_pos eep, if_pos eep, eepDepunctureRun, List.getElem?_eq_getElem inside,
      List.getD_eq_getElem _ _ inside]
    rfl
  · next uep =>
    have inside : s.uepIndx.toNat < ueptable.length := by
      simp only [ueptable, List.length_cons, List.length_nil]
      omega
    rw [if_neg uep, if_neg uep, uepDepunctureRun, if_pos listed.1, List.getElem?_eq_getElem inside,
      List.getD_eq_getElem _ _ inside]
    rfl

/-- Whole bytes are packed from the bits below `8 * n` alone. -/
theorem bitToByte_congr {ibuf ibuf' : Nat → UInt8} {n : Nat} (same : ∀ i < 8 * n, ibuf i = ibuf' i)
    (obuf : Nat → UInt8) {j : Nat} (inside : j < n) :
    (bitToByte 1 ibuf (8 * n) obuf).1 j = (bitToByte 1 ibuf' (8 * n) obuf).1 j := by
  rw [bitToByte_apply, bitToByte_apply, same (8 * j) (by omega), same (8 * j + 1) (by omega),
    same (8 * j + 2) (by omega), same (8 * j + 3) (by omega), same (8 * j + 4) (by omega),
    same (8 * j + 5) (by omega), same (8 * j + 6) (by omega), same (8 * j + 7) (by omega)]

/-- Packing the descrambled bits and dispersing them again gives the decoded bits. -/
theorem dispersed_packed (data dpbuf obuf : Nat → UInt8) {n : Nat}
    (bits : ∀ i < 8 * n, data i = 0 ∨ data i = 1) {i : Nat} (inside : i < 8 * n) :
    dispersed (bitToByte 1 (scramble data dpbuf (8 * n)) (8 * n) obuf).1 i = data i := by
  have descrambled : ∀ i, scramble data (fun _ => 0) (8 * n) i = 0 ∨
      scramble data (fun _ => 0) (8 * n) i = 1 := by
    intro i
    rw [scramble_apply]
    split
    · next early =>
      rcases bits i early with bit | bit <;> rcases prbs_bit i with mask | mask <;> simp [bit, mask]
    · exact .inl rfl
  have same : ∀ i < 8 * n, scramble data dpbuf (8 * n) i = scramble data (fun _ => 0) (8 * n) i := by
    intro i early
    rw [scramble_apply, scramble_apply, if_pos early, if_pos early]
  rw [dispersed, bitToByte_congr same obuf (show i / 8 < n by omega),
    bitAt_bitToByte descrambled _ _ inside, scramble_apply, if_pos inside]
  rcases bits i inside with bit | bit <;> rcases prbs_bit i with mask | mask <;> simp [bit, mask]

section Frame

variable {T : Target} (native : T.Native) {mettab : Nat → Nat → Int} (met : GenMet mettab)
  {s : Subch} (consumable : s.Consumable)
include native met consumable

structure MscDecoder.Decoded (s : Subch) (received : Nat → UInt8) (d d' : MscDecoder) : Prop where
  init : d'.init = d.init
  units : d'.units = d.units
  super : d'.super = d.super
  audio : d'.audio = d.audio
  nearest : s.Nearest received d'.obuf

/-- With buffers for the sub-channel every access stays inside them, and the bytes handed on are
those of the nearest message. -/
theorem MscDecoder.frame_nearest {d : MscDecoder} (allocated : d.units = s.subchsz)
    {sr : Symrange} {b : Cbuf}
    (slots : bitspercu * (sr.startcu + s.subchsz) ≤ sr.numsyms * bitspersym)
    (bits : ∀ i < bitspercu * s.subchsz, timeDisinterleave d.lf s.subchsz sr b i = 0 ∨
      timeDisinterleave d.lf s.subchsz sr b i = 1) :
    ∃ d', d.frame T mettab s sr b = some (d', 3 * s.bitrate) ∧
      MscDecoder.Decoded s (timeDisinterleave d.lf s.subchsz sr b) d d' := by
  obtain ⟨lf, logical⟩ : ∃ lf, lf = timeDisinterleave d.lf s.subchsz sr b := ⟨_, rfl⟩
  rw [← logical] at bits ⊢
  have whole : 24 * s.bitrate = 8 * (3 * s.bitrate) := by omega
  obtain ⟨p, run, filled⟩ := depunctureRun_filled d.dpbuf lf s.blocks (known_blocks consumable.listed)
  rw [consumable.length] at filled
  have read : p.j ≤ bitspercu * s.subchsz := filled.read ▸ consumable.rank_le
  have written : p.k = 4 * (24 * s.bitrate + 6) := filled.written
  -- the first bit of every four is sent, so four times the bits are room enough
  have room : p.k ≤ 4 * p.j := by
    rw [filled.written, filled.read]
    exact Nat.mul_le_mul_left 4 (rank_groups fun t inside => consumable.first inside)
  have softened : Softened (keeps s.blocks) lf p.obuf (4 * (24 * s.bitrate + 6)) := by
    intro q inside
    rw [filled.obuf q inside]
    by_cases chosen : keeps s.blocks q = true
    · have received := bits _ (Nat.lt_of_lt_of_le (rank_lt inside chosen) consumable.rank_le)
      rw [if_pos chosen, if_pos chosen, viterbiSymbol_soft _ received]
    · rw [if_neg chosen, if_neg chosen]
  obtain ⟨v, x, decoded, output, ends, best⟩ := kViterbi_nearest met native softened
    (fun i small => bits i (Nat.lt_of_lt_of_le small consumable.rank_le)) d.obuf
  have nbits : p.k / 4 - (7 - 1) = 24 * s.bitrate := by omega
  refine ⟨{ d with
    lf := lf, dpbuf := scramble v.data p.obuf (24 * s.bitrate)
    obuf := (bitToByte 1 (scramble v.data p.obuf (24 * s.bitrate)) (24 * s.bitrate) v.data).1 },
    ?_, ⟨rfl, rfl, rfl, rfl, ?_⟩⟩
  · have inside : ¬(d.units < s.subchsz ∨
        sr.numsyms * bitspersym < bitspercu * (sr.startcu + s.subchsz)) := by omega
    have accesses : ¬(d.units * bitspercu < p.j ∨ 4 * d.units * bitspercu < p.k) := by
      rw [allocated]
      unfold bitspercu at *
      omega
    have bytes : (bitToByte 1 (scramble v.data p.obuf (24 * s.bitrate)) (24 * s.bitrate) v.data).2 =
        3 * s.bitrate := show (24 * s.bitrate + 7) / 8 = 3 * s.bitrate by omega
    rw [MscDecoder.frame, if_neg inside]
    dsimp only
    rw [← logical, mscDepunctureRun_blocks consumable.listed, run, Option.bind_some, if_neg accesses,
      nbits, decoded, Option.map_some, bytes]
  · have data : ∀ i < 8 * (3 * s.bitrate), v.data i = 0 ∨ v.data i = 1 := by
      intro i inside
      rw [output, if_pos (by omega)]
      cases x i
      · exact .inl rfl
      · exact .inr rfl
    have inputs : dispersedBits (bitToByte 1 (scramble v.data p.obuf (24 * s.bitrate))
        (24 * s.bitrate) v.data).1 (24 * s.bitrate) = x := by
      funext t
      by_cases inside : t < 24 * s.bitrate
      · rw [dispersedBits, inputBits, decide_eq_true inside, Bool.true_and, whole,
          dispersed_packed _ _ _ data (by omega), output, if_pos inside]
        cases x t <;> rfl
      · rw [dispersedBits, inputBits_late _ (by omega), ends t (by omega)]
    intro message
    rw [errors_missed, errors_missed, inputs]
    exact best _ fun t late => inputBits_late _ late

end Frame

/-! Which errors are corrected. -/

structure Paired (l : List Bool) : Prop where
  groups : l.length % 4 = 0
  second : ∀ t, 4 * t < l.length → l.getD (4 * t + 1) false = true

theorem Paired.append {l l' : List Bool} (front : Paired l) (back : Paired l') :
    Paired (l ++ l') := by
  obtain ⟨groups, second⟩ := front
  obtain ⟨groups', second'⟩ := back
  refine ⟨by rw [List.length_append]; omega, fun t inside => ?_⟩
  by_cases here : 4 * t < l.length
  · rw [List.getD_append _ _ _ _ (by omega)]
    exact second t here
  · rw [List.length_append] at inside
    obtain ⟨a, length⟩ : ∃ a, l.length = 4 * a := ⟨l.length / 4, by omega⟩
    rw [List.getD_append_right _ _ _ _ (by omega), length,
      show 4 * t + 1 - 4 * a = 4 * (t - a) + 1 by omega]
    exact second' (t - a) (by omega)

theorem pvec_second : ∀ pi < 24, 7 ≤ pi → ∀ k < 8, (pvec.getD pi []).getD (4 * k + 1) 0 ≠ 0 := by
  decide

theorem blockPattern_paired {size : Nat} (groups : size % 4 = 0) {pi : Int}
    (known : size ≠ 0 → ∃ vector, pvecRow pi = some vector) (high : size ≠ 0 → 7 ≤ pi) :
    Paired (blockPattern size pi) := by
  refine ⟨by rw [length_blockPattern, groups], fun t inside => ?_⟩
  rw [length_blockPattern] at inside
  obtain ⟨vector, row⟩ := known (by omega)
  obtain ⟨k, rfl, small⟩ := pvecRow_inside row
  have kept := pvec_second k small (by have := high (by omega); omega) (t % 8) (by omega)
  have found : pvec[k]? = some vector := by simpa [pvecRow] using row
  have value : pvec.getD k [] = vector := by rw [List.getD_eq_getElem?_getD, found, Option.getD_some]
  rw [value, show 4 * (t % 8) + 1 = (4 * t + 1) % 32 by omega] at kept
  rw [List.getD_eq_getElem _ _ (by rw [length_blockPattern]; omega)]
  simp only [blockPattern, List.getElem_map, List.getElem_range, row, Option.getD_some,
    decide_eq_true_eq]
  exact kept

/-- Every vector of the profile is at half rate or stronger. -/
def Subch.Strong (s : Subch) : Prop := ∀ block ∈ s.blocks, block.1 ≠ 0 → 7 ≤ block.2

theorem pattern_paired {blocks : List (Nat × Int)}
    (known : ∀ block ∈ blocks, block.1 ≠ 0 → ∃ vector, pvecRow block.2 = some vector)
    (high : ∀ block ∈ blocks, block.1 ≠ 0 → 7 ≤ block.2) : Paired (pattern blocks) := by
  have tail : Paired (blockPattern 24 7) :=
    blockPattern_paired (by decide) (fun _ => ⟨_, rfl⟩) fun _ => Int.le_refl 7
  unfold pattern
  induction blocks with
  | nil => exact tail
  | cons block rest ih =>
    rw [List.flatMap_cons, List.append_assoc]
    have used : blksize * block.1 ≠ 0 → block.1 ≠ 0 := fun some none => some (by rw [none, Nat.mul_zero])
    have head : Paired (blockPattern (blksize * block.1) block.2) := by
      apply blockPattern_paired
      · rw [blksize]
        omega
      · exact fun some => known block List.mem_cons_self (used some)
      · exact fun some => high block List.mem_cons_self (used some)
    exact head.append (ih (fun other member => known other (List.mem_cons_of_mem _ member))
      fun other member => high other (List.mem_cons_of_mem _ member))

/-- A frame that arrives without errors, or with at most four under a strong profile, is the
nearest message, and the only one. -/
theorem Subch.Nearest.exact {s : Subch} (consumable : s.Consumable)
    {received message frame : Nat → UInt8} (near : s.Nearest received frame)
    (few : s.errors message received = 0 ∨ s.Strong ∧ s.errors message received ≤ 4) :
    ∀ j < 3 * s.bitrate, frame j = message j := by
  have known := known_blocks consumable.listed
  have closest := near message
  have rare : s.errors message received = 0 ∨ s.errors message received ≤ 4 ∧
      ∀ t < 24 * s.bitrate + 6, keeps s.blocks (4 * t + 1) = true := by
    refine few.imp_right fun ⟨strong, four⟩ => ⟨four, fun t inside => ?_⟩
    apply (pattern_paired known strong).second t
    rw [consumable.length]
    omega
  rw [errors_missed s frame, errors_missed s message] at closest
  rw [errors_missed s message] at rare
  have equal := nearest_unique (fun t late => inputBits_late _ late) (fun t late => inputBits_late _ late)
    (fun t inside => consumable.first inside) rare (Nat.le_refl _) closest
  intro j inside
  refine byte_ext fun k small => ?_
  have bit := congrFun equal (8 * j + (7 - k))
  have early : 8 * j + (7 - k) < 24 * s.bitrate := by omega
  have place : (8 * j + (7 - k)) / 8 = j ∧ 7 - (8 * j + (7 - k)) % 8 = k := by omega
  simp only [inputBits, decide_eq_true early, Bool.true_and, decide_eq_decide] at bit
  have same : dispersed frame (8 * j + (7 - k)) = dispersed message (8 * j + (7 - k)) := by
    rcases dispersed_bit frame (8 * j + (7 - k)) with zero | one
    · rcases dispersed_bit message (8 * j + (7 - k)) with zero' | one'
      · rw [zero, zero']
      · exact absurd (bit.mpr one') (by rw [zero]; decide)
    · rw [one, bit.mp one]
  unfold dispersed at same
  rw [place.1, place.2] at same
  exact (UInt8.xor_left_inj _).mp same

/-! A call of `msc_decode`. -/

def MscDecoder.For (s : Subch) (d : MscDecoder) : Prop :=
  d.init = true ∨ d.units = s.subchsz ∧ d.super = decide (s.dabplus ≠ 0)

/-- A frame is at most as long as the bits it is read from. -/
theorem Subch.Consumable.frame_le {s : Subch} (consumable : s.Consumable) :
    24 * s.bitrate + 6 ≤ bitspercu * s.subchsz :=
  calc 24 * s.bitrate + 6 ≤ rank (keeps s.blocks) (4 * (24 * s.bitrate + 6)) :=
        rank_groups fun _ inside => consumable.first inside
    _ ≤ bitspercu * s.subchsz := consumable.rank_le

theorem timeDisinterleave_memory (obuf obuf' : Nat → UInt8) (s : Subch) (sr : Symrange) (b : Cbuf)
    {i : Nat} (inside : i < bitspercu * s.subchsz) :
    timeDisinterleave obuf s.subchsz sr b i = timeDisinterleave obuf' s.subchsz sr b i :=
  (timeDisinterleave_apply obuf s.subchsz sr b i inside).trans
    (timeDisinterleave_apply obuf' s.subchsz sr b i inside).symm

def logicalFrame (s : Subch) (sr : Symrange) (b : Cbuf) : Nat → UInt8 :=
  timeDisinterleave (fun _ => 0) s.subchsz sr b

/-- `msc_decode` gets as far as the audio decoder: no access before it is outside a buffer, and the
superframe buffer holds five frames. -/
def MscDecoder.Reaches (T : Target) (mettab : Nat → Nat → Int) (s : Subch) (sr : Symrange) (b : Cbuf)
    (d : MscDecoder) : Prop :=
  ∃ d', (d.allocate s).frame T mettab s sr b = some (d', 3 * s.bitrate) ∧
    (s.dabplus ≠ 0 → d'.super = true ∧ 5 * (3 * s.bitrate) ≤ 5 * 4 * d'.units * bitspercu)

/-- The call hands the nearest frame to the audio decoder. -/
theorem mscDecode_nearest {T : Target} (native : T.Native) {mettab : Nat → Nat → Int}
    (met : GenMet mettab) (decodeRs : List UInt8 → List UInt8) {s : Subch}
    (consumable : s.Consumable) {d : MscDecoder} (ready : d.For s) {sr : Symrange} {b : Cbuf}
    (slots : bitspercu * (sr.startcu + s.subchsz) ≤ sr.numsyms * bitspersym)
    (bits : ∀ i < bitspercu * s.subchsz, logicalFrame s sr b i = 0 ∨ logicalFrame s sr b i = 1) :
    d.Reaches T mettab s sr b ∧
      ∃ d' : MscDecoder, d'.For s ∧ s.Nearest (logicalFrame s sr b) d'.obuf ∧
      mscDecode T mettab decodeRs s sr b d =
        (audioDecode decodeRs s (3 * s.bitrate) d'.obuf d.audio).map fun a =>
          ({ d' with audio := a.1 }, a.2) := by
  have allocated : (d.allocate s).units = s.subchsz ∧
      (d.allocate s).super = decide (s.dabplus ≠ 0) ∧ (d.allocate s).audio = d.audio := by
    unfold MscDecoder.allocate
    split
    · exact ⟨rfl, rfl, rfl⟩
    · next called =>
      obtain ⟨units, super⟩ := ready.resolve_left called
      exact ⟨units, super, rfl⟩
  have same (i : Nat) (inside : i < bitspercu * s.subchsz) :
      timeDisinterleave (d.allocate s).lf s.subchsz sr b i = logicalFrame s sr b i :=
    timeDisinterleave_memory _ _ s sr b inside
  obtain ⟨d', run, decoded⟩ := MscDecoder.frame_nearest native met consumable allocated.1 slots
    fun i inside => by
      rw [same i inside]
      exact bits i inside
  have units : d'.units = s.subchsz := decoded.units.trans allocated.1
  have super : d'.super = decide (s.dabplus ≠ 0) := decoded.super.trans allocated.2.1
  have room : s.dabplus ≠ 0 → d'.super = true ∧ 5 * (3 * s.bitrate) ≤ 5 * 4 * d'.units * bitspercu := by
    intro plus
    refine ⟨super.trans (decide_eq_true plus), ?_⟩
    have frame := consumable.frame_le
    rw [units]
    unfold bitspercu at *
    omega
  refine ⟨⟨d', run, room⟩, d', .inr ⟨units, super⟩, fun message => ?_, ?_⟩
  · rw [← errors_congr consumable same, ← errors_congr consumable same]
    exact decoded.nearest message
  · have fits : ¬(s.dabplus ≠ 0 ∧
        (d'.super = false ∨ 5 * 4 * d'.units * bitspercu < 5 * (3 * s.bitrate))) := by
      rintro ⟨plus, missing | small⟩
      · rw [(room plus).1] at missing
        contradiction
      · exact absurd (room plus).2 (Nat.not_le.mpr small)
    rw [mscDecode, run, Option.bind_some, if_neg fits, decoded.audio, allocated.2.2]

end OpenDab
