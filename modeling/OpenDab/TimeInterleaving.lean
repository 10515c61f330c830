import OpenDab.MscBuffer

/-! Time de-interleaving over whole runs of `wcbuf`. The delay of a bit counts CIFs
back from the one it is sent in, so undoing it needs the slot of the oldest CIF as
base; `head` moves together with `lframe` and names the newest one. -/
namespace OpenDab

open Buffers

/-- The buffer at program start: the statics are zero, the allocated memory is arbitrary. -/
def Cbuf.initial (memory : Nat → Nat → UInt8) : Cbuf where
  cb := fun i => ⟨memory i, 0, 0, 0⟩
  head := 0
  lfp := 0
  lframe := 0
  first := true
  full := false

theorem initial_blank (memory : Nat → Nat → UInt8) : Blank (Cbuf.initial memory) :=
  ⟨rfl, fun started => by simp [Cbuf.initial] at started, fun _ _ => rfl⟩

def insertRun (sr : Symrange) (symbols : Nat → Nat → UInt8) (s : Cbuf) : Nat → Cbuf × Bool
  | 0 => (s, false)
  | k + 1 => wcbuf (symbols k) bitspersym sr false (insertRun sr symbols s k).1

def insertHistory (symbols : Nat → Nat → UInt8) (k : Nat) : List SymbolBits :=
  (List.range k).map fun i => symbolBits (symbols i)

theorem insertRun_filled (sr : Symrange) (symbols : Nat → Nat → UInt8) (s : Cbuf)
    (positive : 0 < sr.numsyms) (blank : Blank s) (k : Nat) :
    Filled sr.numsyms (insertHistory symbols (k + 1)) (insertRun sr symbols s (k + 1)).1 ∧
    (insertRun sr symbols s (k + 1)).2 =
      decide (15 ≤ k / sr.numsyms ∧ k % sr.numsyms + 1 = sr.numsyms) := by
  have step (k : Nat) (holds : Holds sr.numsyms (insertHistory symbols k) (insertRun sr symbols s k).1) :
      Filled sr.numsyms (insertHistory symbols (k + 1)) (insertRun sr symbols s (k + 1)).1 ∧
      (insertRun sr symbols s (k + 1)).2 =
        decide (15 ≤ k / sr.numsyms ∧ k % sr.numsyms + 1 = sr.numsyms) := by
    have inserted := wcbuf_insert sr _ _ (symbols k) positive holds
    simpa [insertHistory, List.range_succ, insertRun] using inserted
  induction k with
  | zero => exact step 0 (.inl ⟨rfl, blank⟩)
  | succ k ih => exact step (k + 1) (.inr ⟨by simp [insertHistory], ih.1⟩)

theorem timeDisinterleave_apply (obuf : Nat → UInt8) (subchsz : Nat) (sr : Symrange) (s : Cbuf)
    (i : Nat) (bound : i < 64 * subchsz) :
    timeDisinterleave obuf subchsz sr s i =
      (s.cb ((s.head + timeMap (i % 16)) % 16)).data (64 * sr.startcu + i) := by
  unfold timeDisinterleave
  refine loop_last_write (show i < subchsz * bitspercu by simp only [bitspercu]; omega)
    (fun m => store_same ..) (fun j lt _ m => store_other _ _ (by omega))

theorem timeMap_lt (j : Nat) (small : j < 16) : timeMap j < 16 := by
  revert j
  decide

theorem timeMap_eq_zero (j : Nat) (small : j < 16) : timeMap j = 0 ↔ j = 0 := by
  revert j
  decide

/-- The CIF from which the code takes a bit of delay `d` when CIF `c` is the newest. -/
def sourceCif (c d : Nat) : Nat := if d = 0 then c else c + d - 16

/-- The buffer at the end of CIF `c`: the base slot is that of CIF `c` itself, and the slots
hold the last 16 CIFs. -/
theorem insertRun_cif (sr : Symrange) (symbols : Nat → Nat → UInt8) (start : Cbuf)
    (positive : 0 < sr.numsyms) (blank : Blank start) (c : Nat) :
    let run := insertRun sr symbols start ((c + 1) * sr.numsyms)
    run.2 = decide (15 ≤ c) ∧ run.1.head = c % 16 ∧
      ∀ g place, g ≤ c → c < g + 16 → place < sr.numsyms →
        cell run.1 (g % 16) place = symbolBits (symbols (g * sr.numsyms + place)) := by
  intro run
  obtain ⟨k, count, group, last⟩ := Ring.group_end c positive
  obtain ⟨filled, flag⟩ := insertRun_filled sr symbols start positive blank k
  rw [← count] at filled flag
  have length : (insertHistory symbols ((c + 1) * sr.numsyms)).length - 1 = k := by
    simp [insertHistory, count]
  refine ⟨?_, by rw [filled.head, length, group], fun g place old recent inside => ?_⟩
  · rw [show run.2 = _ from flag, group, last]
    simp only [decide_eq_decide, and_iff_left_iff_imp]
    omega
  · have bound : g * sr.numsyms + place < (c + 1) * sr.numsyms := by
      have := Nat.mul_le_mul_right sr.numsyms old
      rw [Nat.add_mul, Nat.one_mul]
      omega
    have stored := filled.held.lookup g place inside (by simpa [insertHistory] using bound)
      (by rwa [length, group])
    simpa [insertHistory] using stored

/-- The sub-channel lies inside the symbols inserted for a CIF. -/
theorem subchannel_place (s : Subch) (r : Symrange) (i : Nat) (bound : i < 64 * s.subchsz) :
    (64 * (startsym r s).startcu + i) / 3072 < (startsym r s).numsyms := by
  apply Nat.div_lt_of_lt_mul
  rw [startsym_numsyms, startsym_startcu]
  omega

theorem timeDisinterleave_run (s : Subch) (r : Symrange) (symbols : Nat → Nat → UInt8)
    (start : Cbuf) (blank : Blank start) (obuf : Nat → UInt8) (c : Nat) (late : 16 ≤ c) (i : Nat)
    (bound : i < 64 * s.subchsz) :
    let sr := startsym r s
    let p := 64 * sr.startcu + i
    timeDisinterleave obuf s.subchsz sr
        (insertRun sr symbols start ((c + 1) * sr.numsyms)).1 i =
      symbols (sourceCif c (timeMap (i % 16)) * sr.numsyms + p / 3072) (p % 3072) := by
  intro sr p
  have place : p / 3072 < sr.numsyms := subchannel_place s r i bound
  obtain ⟨-, head, slots⟩ := insertRun_cif sr symbols start (by omega) blank c
  have delay := timeMap_lt (i % 16) (Nat.mod_lt _ (by decide))
  rw [timeDisinterleave_apply _ _ _ _ _ bound, head]
  generalize timeMap (i % 16) = d at delay
  have slot : (c % 16 + d) % 16 = sourceCif c d % 16 := by
    rw [sourceCif]
    split <;> omega
  have recent : sourceCif c d ≤ c ∧ c < sourceCif c d + 16 := by
    rw [sourceCif]
    split <;> omega
  have stored := congrFun (slots _ _ recent.1 recent.2 place) ⟨p % 3072, Nat.mod_lt _ (by decide)⟩
  simp only [cell, symbolBits] at stored
  rw [slot, ← stored]
  congr 1
  simp only [bitspersym, cuspersym]
  omega

/-- Transmitted sub-channel bits: CIF `r` carries bit `i` of the frame sent `timeMap (i % 16)` CIFs
earlier. `other` fills the rest of the symbols and the bits of frames before the first. -/
def transmit (a : Nat → Nat → UInt8) (other : Nat → Nat → UInt8) (sr : Symrange) (subchsz : Nat)
    (r p : Nat) : UInt8 :=
  let i := p - 64 * sr.startcu
  if 64 * sr.startcu ≤ p ∧ i < 64 * subchsz ∧ timeMap (i % 16) ≤ r then a (r - timeMap (i % 16)) i
  else other r p

def transmitSymbols (a other : Nat → Nat → UInt8) (sr : Symrange) (subchsz : Nat) :
    Nat → Nat → UInt8 :=
  fun k b => transmit a other sr subchsz (k / sr.numsyms) (3072 * (k % sr.numsyms) + b)

/-- Frame bit `i` as decoded at the end of CIF `c`: one bit in sixteen comes from the frame that
is being sent, the others from the frame sent 16 CIFs before it. -/
theorem decoded_bit (s : Subch) (r : Symrange) (a other : Nat → Nat → UInt8) (start : Cbuf)
    (blank : Blank start) (obuf : Nat → UInt8) (c : Nat) (late : 16 ≤ c) (i : Nat)
    (bound : i < 64 * s.subchsz) :
    let sr := startsym r s
    timeDisinterleave obuf s.subchsz sr
        (insertRun sr (transmitSymbols a other sr s.subchsz) start ((c + 1) * sr.numsyms)).1 i =
      if i % 16 = 0 then a c i else a (c - 16) i := by
  intro sr
  have source := timeDisinterleave_run s r (transmitSymbols a other sr s.subchsz) start
    blank obuf c late i bound
  obtain ⟨group, place⟩ := Ring.item_position (sourceCif c (timeMap (i % 16)))
    (subchannel_place s r i bound)
  have zero := timeMap_eq_zero (i % 16) (Nat.mod_lt _ (by decide))
  refine source.trans ?_
  simp only [transmitSymbols, transmit, sr, group, place, Nat.div_add_mod,
    Nat.add_sub_cancel_left]
  generalize timeMap (i % 16) = d at zero
  by_cases base : i % 16 = 0
  · simp [zero.mpr base, sourceCif, base, bound]
  · have delayed : d ≠ 0 := fun h => base (zero.mp h)
    have sent : d ≤ sourceCif c d ∧ sourceCif c d - d = c - 16 := by
      rw [sourceCif, if_neg delayed]
      omega
    simp [bound, sent, base]

/-- In a run of `n` CIFs there is one latency at which every decoded frame, from CIF 16 on, is a
logical frame of the sequence. -/
def FixedLatency (s : Subch) (r : Symrange) (a other : Nat → Nat → UInt8)
    (memory : Nat → Nat → UInt8) (obuf : Nat → UInt8) (n : Nat) : Prop :=
  let sr := startsym r s
  let run := fun c => insertRun sr (transmitSymbols a other sr s.subchsz) (Cbuf.initial memory)
    ((c + 1) * sr.numsyms)
  ∃ latency, ∀ c, 16 ≤ c → c < n → (run c).2 = true →
    latency ≤ c ∧ ∀ i < 64 * s.subchsz,
      timeDisinterleave obuf s.subchsz sr (run c).1 i = a (c - latency) i

/-- Some lag accounts both for the bits taken from the newest frame and for the other fifteen in
sixteen, taken 16 frames back. -/
def SixteenthBitRepeats (subchsz : Nat) (a : Nat → Nat → UInt8) (n : Nat) : Prop :=
  ∃ lag, ∀ c, 16 ≤ c → c < n → lag ≤ c ∧ ∀ i < 64 * subchsz,
    (i % 16 = 0 → a c i = a (c - lag) i) ∧ (i % 16 ≠ 0 → a (c - 16) i = a (c - lag) i)

theorem deinterleaving_exact_iff (s : Subch) (r : Symrange) (a other : Nat → Nat → UInt8)
    (memory : Nat → Nat → UInt8) (obuf : Nat → UInt8) (n : Nat) :
    FixedLatency s r a other memory obuf n ↔ SixteenthBitRepeats s.subchsz a n := by
  have bit := fun c late i bound => decoded_bit s r a other (Cbuf.initial memory)
    (initial_blank memory) obuf c late i bound
  have flag (c : Nat) (late : 16 ≤ c) : (insertRun (startsym r s)
      (transmitSymbols a other (startsym r s) s.subchsz) (Cbuf.initial memory)
      ((c + 1) * (startsym r s).numsyms)).2 = true := by
    have positive : 0 < (startsym r s).numsyms := by rw [startsym_numsyms]; omega
    rw [(insertRun_cif _ _ _ positive (initial_blank memory) c).1]
    exact decide_eq_true (by omega)
  constructor
  · rintro ⟨lag, exact⟩
    refine ⟨lag, fun c late inRun => ?_⟩
    obtain ⟨early, frame⟩ := exact c late inRun (flag c late)
    refine ⟨early, fun i bound => ⟨fun base => ?_, fun base => ?_⟩⟩
    · rw [← frame i bound, bit c late i bound, if_pos base]
    · rw [← frame i bound, bit c late i bound, if_neg base]
  · rintro ⟨lag, repeats⟩
    refine ⟨lag, fun c late inRun _ => ?_⟩
    obtain ⟨early, equal⟩ := repeats c late inRun
    refine ⟨early, fun i bound => ?_⟩
    rw [bit c late i bound]
    split
    · next base => exact (equal i bound).1 base
    · next base => exact (equal i bound).2 base

/-- Seventeen CIFs of a one-unit sub-channel whose frames change from all zeros to all ones at
frame 8: the frame decoded at CIF 16 has ones at bits 0, 16, 32, 48 and zeros elsewhere. -/
theorem deinterleaving_mixes_frames :
    ¬FixedLatency ⟨0, 0, 1, 8, 1, 0, 0, 0⟩ ⟨fun _ => 0, fun _ => 0, 0, 0, 0⟩
      (fun t _ => if t < 8 then 0 else 1) (fun _ _ => 0) (fun _ _ => 0) (fun _ => 0) 17 := by
  rintro ⟨lag, exact⟩
  have positive : 0 < (startsym ⟨fun _ => 0, fun _ => 0, 0, 0, 0⟩ ⟨0, 0, 1, 8, 1, 0, 0, 0⟩).numsyms := by
    rw [startsym_numsyms]
    omega
  have bit := decoded_bit ⟨0, 0, 1, 8, 1, 0, 0, 0⟩ ⟨fun _ => 0, fun _ => 0, 0, 0, 0⟩
    (fun t _ => if t < 8 then 0 else 1) (fun _ _ => 0) (Cbuf.initial fun _ _ => 0)
    (initial_blank _) (fun _ => 0) 16 (by decide)
  obtain ⟨-, frame⟩ := exact 16 (by decide) (by decide)
    (by rw [(insertRun_cif _ _ _ positive (initial_blank _) 16).1]; rfl)
  have newest := (bit 0 (by decide)).symm.trans (frame 0 (by decide))
  have oldest := (bit 1 (by decide)).symm.trans (frame 1 (by decide))
  exact absurd (newest.trans oldest.symm) (by decide)

end OpenDab
