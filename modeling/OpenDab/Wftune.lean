import OpenDab.Library.Bitmap
import OpenDab.Library.Buffers
import OpenDab.Library.FloatingPoint
import OpenDab.Rounding
import OpenDab.Wfusb

/-! Tuning. `wf_tune` computes in doubles how often the reference frequency goes into that of the
oscillator, and sends the words for two frequency synthesisers. The word of each message is shifted
into a register, and the bits that come in last say what the register holds. -/
namespace OpenDab

open Buffers Bitmap FloatingPoint

def double (x : ℚ) : ℚ := binary64.round x

/-! The constants, in MHz and Hz. -/

def maxfreqIII : ℚ := double 240.0

def lbandoffset : ℚ := double 1251.456

def intermediateFreq : ℚ := double 38.912e6

def fOsc : ℚ := double 16.384e6

def r1511 : Int := 1024

def p1511 : Int := 64

def r2331a : Int := 256

def nifa2331a : Int := 0

def nifb2331a : Int := 40

def nrfa2331a : Int := 98

def nrfb2331a : Int := 152

def lmx1511 : UInt8 := 1

def lmx2331a : UInt8 := 0

def reverseBits (op : Int) (len : Nat) : BitVec 32 :=
  loop len (fun i j => if BitVec.ofInt 32 op &&& 1#32 <<< (len - i - 1) ≠ 0 then j ||| 1#32 <<< i else j) 0

/-- How often the reference frequency goes into that of the oscillator. -/
def fVcod (freq : ℚ) : ℚ :=
  double (double (double (freq * double 1e6) + intermediateFreq) / double (fOsc / r1511))

/-- The six messages: the counters of the LMX2331A, which never change, then those of the LMX1511. -/
def tuneMsgs (fVco : Int) (lband : Bool) : List ControlMsg :=
  let b1511 := fVco.tdiv p1511
  let a1511 := fVco.tmod p1511
  [wfTuneMsg (0x100000 ||| reverseBits r2331a 15 <<< 5 ||| 0x10) 22 lmx2331a lband,
    wfTuneMsg (0x300000 ||| reverseBits nrfa2331a 7 <<< 13 ||| reverseBits nrfb2331a 11 <<< 2 ||| 2) 22
      lmx2331a lband,
    wfTuneMsg (reverseBits r2331a 15 <<< 5 ||| 0x10) 22 lmx2331a lband,
    wfTuneMsg (0x200000 ||| reverseBits nifa2331a 7 <<< 13 ||| reverseBits nifb2331a 11 <<< 2 ||| 2) 22
      lmx2331a lband,
    wfTuneMsg (0x8000 ||| reverseBits r1511 14 <<< 1 ||| 1) 16 lmx1511 lband,
    wfTuneMsg (reverseBits a1511 7 <<< 11 ||| reverseBits b1511 11) 19 lmx1511 lband]

/-- `none` where the number of steps is not an `int`. -/
def wfTune (freq : ℚ) : Option (List ControlMsg) := do
  let lband := decide (freq > maxfreqIII)
  let freq := if lband then double (freq - lbandoffset) else freq
  let fVco ← toInt ⌈fVcod freq⌉
  return tuneMsgs fVco lband

theorem getLsbD_reverseBits (op : Int) {len : Nat} (room : len ≤ 32) (i : Nat) :
    (reverseBits op len).getLsbD i =
      (decide (i < len) && (BitVec.ofInt 32 op).getLsbD (len - 1 - i)) := by
  by_cases inside : i < 32
  · refine loop_invariant (fun k (j : BitVec 32) => j.getLsbD i =
      (decide (i < k) && (BitVec.ofInt 32 op).getLsbD (len - 1 - i))) (by simp) fun k bound j holds => ?_
    have place : len - k - 1 < 32 := by omega
    simp only [and_one_shift _ place]
    by_cases same : i = k
    · rw [same] at holds inside ⊢
      rw [decide_eq_false (by omega), Bool.false_and] at holds
      rw [decide_eq_true (by omega), Bool.true_and, show len - k - 1 = len - 1 - k by omega]
      split
      · next set =>
        rw [BitVec.getLsbD_or, getLsbD_one_shift inside, holds, set, decide_eq_true rfl, Bool.false_or]
      · next clear => rw [holds, Bool.eq_false_iff.mpr clear]
    · have step : decide (i < k + 1) = decide (i < k) := decide_eq_decide.mpr (by omega)
      rw [step]
      split
      · rw [BitVec.getLsbD_or, getLsbD_one_shift inside, decide_eq_false same, Bool.or_false, holds]
      · exact holds
  · rw [BitVec.getLsbD_of_ge _ _ (by omega), decide_eq_false (by omega), Bool.false_and]

/-! What the synthesisers make of the messages. -/

structure Counters where
  r : Nat
  a : Nat
  b : Nat
  deriving DecidableEq, Repr

/-- The frequency at which the oscillator keeps in step with the reference, in Hz. -/
def Counters.vco (c : Counters) (prescaler : Nat) : ℚ := (prescaler * c.b + c.a) * 16384000 / c.r

structure Synthesisers where
  bandIII : Counters
  rf : Counters
  if_ : Counters
  lband : Bool
  deriving DecidableEq, Repr

/-- The bits of a message's word, shifted in from the lowest on. -/
def shiftedIn (m : ControlMsg) : Nat :=
  let byte (i : Nat) : BitVec 32 := (m.bytes.getD i 0).toBitVec.setWidth 32
  let word := byte 0 ||| byte 1 <<< 8 ||| byte 2 <<< 16 ||| byte 3 <<< 24
  (word.setWidth (m.bytes.getD 4 0).toNat).reverse.toNat

def registerField (reg lo len : Nat) : Nat := reg / 2 ^ lo % 2 ^ len

/-- The lowest bit of the LMX1511 and the two lowest of the LMX2331A say which counters are loaded. -/
def Synthesisers.load (s : Synthesisers) (m : ControlMsg) : Synthesisers :=
  let reg := shiftedIn m
  let s := { s with lband := m.bytes.getD 8 0 ≠ 0 }
  if m.bytes.getD 6 0 = lmx1511 then
    if registerField reg 0 1 = 1 then { s with bandIII := { s.bandIII with r := registerField reg 1 14 } }
    else { s with bandIII := { s.bandIII with a := registerField reg 1 7, b := registerField reg 8 11 } }
  else
    match registerField reg 0 2 with
    | 0 => { s with if_ := { s.if_ with r := registerField reg 2 15 } }
    | 1 => { s with if_ := { s.if_ with a := registerField reg 2 7, b := registerField reg 9 11 } }
    | 2 => { s with rf := { s.rf with r := registerField reg 2 15 } }
    | _ => { s with rf := { s.rf with a := registerField reg 2 7, b := registerField reg 9 11 } }

theorem shiftedIn_wfTuneMsg (reg : BitVec 32) (bits pll : UInt8) (lband : Bool) :
    shiftedIn (wfTuneMsg reg bits pll lband) = (reg.setWidth bits.toNat).reverse.toNat := by
  have whole : (reg.setWidth 8).setWidth 32 ||| ((reg >>> 8).setWidth 8).setWidth 32 <<< 8 |||
      ((reg >>> 16).setWidth 8).setWidth 32 <<< 16 ||| ((reg >>> 24).setWidth 8).setWidth 32 <<< 24 = reg := by
    apply BitVec.eq_of_getLsbD_eq
    intro i inside
    simp only [BitVec.getLsbD_or, BitVec.getLsbD_shiftLeft, BitVec.getLsbD_setWidth,
      BitVec.getLsbD_ushiftRight]
    grind
  rw [shiftedIn, wfTuneMsg]
  simp only [List.getD_cons_zero, List.getD_cons_succ]
  exact congrArg (fun word : BitVec 32 => (word.setWidth bits.toNat).reverse.toNat) whole

theorem testBit_registerField (reg : BitVec 32) {bits lo len : Nat} (inside : lo + len ≤ bits) (i : Nat) :
    (registerField (reg.setWidth bits).reverse.toNat lo len).testBit i =
      (decide (i < len) && reg.getLsbD (bits - 1 - lo - i)) := by
  rw [registerField, Nat.testBit_mod_two_pow, Nat.testBit_div_two_pow, BitVec.testBit_toNat,
    BitVec.getLsbD_reverse, BitVec.getMsbD_eq_getLsbD, BitVec.getLsbD_setWidth]
  by_cases below : i < len
  · have place : bits - 1 - (i + lo) = bits - 1 - lo - i := by omega
    have low : i + lo < bits := by omega
    have high : bits - 1 - lo - i < bits := by omega
    rw [place, decide_eq_true low, decide_eq_true high, Bool.true_and, Bool.true_and]
  · rw [decide_eq_false below, Bool.false_and, Bool.false_and]

/-- A number whose bits were reversed before they were shifted in. -/
theorem registerField_reverseBits {reg : BitVec 32} {bits lo len n : Nat} (inside : lo + len ≤ bits)
    (room : len ≤ 32) (small : n < 2 ^ len)
    (place : ∀ i < len, reg.getLsbD (bits - 1 - lo - i) = (reverseBits n len).getLsbD (len - 1 - i)) :
    registerField (reg.setWidth bits).reverse.toNat lo len = n := by
  apply Nat.eq_of_testBit_eq
  intro i
  rw [testBit_registerField reg inside]
  by_cases below : i < len
  · have back : len - 1 - (len - 1 - i) = i := by omega
    have high : len - 1 - i < len := by omega
    have bit : i < 32 := by omega
    rw [place i below, getLsbD_reverseBits n room, back, decide_eq_true below, decide_eq_true high,
      Bool.true_and, Bool.true_and, BitVec.ofInt_natCast, BitVec.getLsbD_ofNat, decide_eq_true bit,
      Bool.true_and]
  · have zero : n.testBit i = false :=
      Nat.testBit_lt_two_pow (small.trans_le (Nat.pow_le_pow_right two_pos (not_lt.mp below)))
    rw [decide_eq_false below, Bool.false_and, zero]

/-! The words that are the same for every frequency. -/

theorem load_rfR (s : Synthesisers) (lband : Bool) :
    s.load (wfTuneMsg (0x100000 ||| reverseBits r2331a 15 <<< 5 ||| 0x10) 22 lmx2331a lband) =
      { s with lband, rf := { s.rf with r := 256 } } := by
  cases lband <;> rfl

theorem load_rfN (s : Synthesisers) (lband : Bool) :
    s.load (wfTuneMsg (0x300000 ||| reverseBits nrfa2331a 7 <<< 13 ||| reverseBits nrfb2331a 11 <<< 2 ||| 2)
      22 lmx2331a lband) = { s with lband, rf := { s.rf with a := 98, b := 152 } } := by
  cases lband <;> rfl

theorem load_ifR (s : Synthesisers) (lband : Bool) :
    s.load (wfTuneMsg (reverseBits r2331a 15 <<< 5 ||| 0x10) 22 lmx2331a lband) =
      { s with lband, if_ := { s.if_ with r := 256 } } := by
  cases lband <;> rfl

theorem load_ifN (s : Synthesisers) (lband : Bool) :
    s.load (wfTuneMsg (0x200000 ||| reverseBits nifa2331a 7 <<< 13 ||| reverseBits nifb2331a 11 <<< 2 ||| 2)
      22 lmx2331a lband) = { s with lband, if_ := { s.if_ with a := 0, b := 40 } } := by
  cases lband <;> rfl

theorem load_bandIIIR (s : Synthesisers) (lband : Bool) :
    s.load (wfTuneMsg (0x8000 ||| reverseBits r1511 14 <<< 1 ||| 1) 16 lmx1511 lband) =
      { s with lband, bandIII := { s.bandIII with r := 1024 } } := by
  cases lband <;> rfl

/-- The word with the two counters of the oscillator. -/
theorem load_bandIIIN (s : Synthesisers) (lband : Bool) {a b : Nat} (smallA : a < 128) (smallB : b < 2048) :
    s.load (wfTuneMsg (reverseBits a 7 <<< 11 ||| reverseBits b 11) 19 lmx1511 lband) =
      { s with lband, bandIII := { s.bandIII with a, b } } := by
  have bit (i : Nat) (inside : i < 32) : (reverseBits a 7 <<< 11 ||| reverseBits b 11).getLsbD i =
      if i < 11 then (reverseBits b 11).getLsbD i else (reverseBits a 7).getLsbD (i - 11) := by
    rw [BitVec.getLsbD_or, BitVec.getLsbD_shiftLeft, decide_eq_true inside, Bool.true_and]
    split
    · next low => rw [decide_eq_true low, Bool.not_true, Bool.false_and, Bool.false_or]
    · next high =>
      have beyond : (reverseBits b 11).getLsbD i = false := by
        rw [getLsbD_reverseBits b (by decide), decide_eq_false high, Bool.false_and]
      rw [decide_eq_false high, Bool.not_false, Bool.true_and, beyond, Bool.or_false]
  have control :
      registerField ((reverseBits a 7 <<< 11 ||| reverseBits b 11).setWidth 19).reverse.toNat 0 1 = 0 := by
    apply Nat.eq_of_testBit_eq
    intro i
    rw [testBit_registerField _ (by decide), Nat.zero_testBit]
    by_cases first : i < 1
    · have outside : ¬(19 - 1 - 0 - i - 11 < 7) := by omega
      rw [bit _ (by omega), if_neg (by omega), getLsbD_reverseBits a (by decide),
        decide_eq_false outside, Bool.false_and, Bool.and_false]
    · rw [decide_eq_false first, Bool.false_and]
  have counterA :
      registerField ((reverseBits a 7 <<< 11 ||| reverseBits b 11).setWidth 19).reverse.toNat 1 7 = a := by
    apply registerField_reverseBits (by decide) (by decide) smallA
    intro i inside
    rw [bit _ (by omega), if_neg (by omega)]
    exact congrArg _ (by omega)
  have counterB :
      registerField ((reverseBits a 7 <<< 11 ||| reverseBits b 11).setWidth 19).reverse.toNat 8 11 = b := by
    apply registerField_reverseBits (by decide) (by decide) smallB
    intro i inside
    rw [bit _ (by omega), if_pos (by omega)]
  have selected : (wfTuneMsg (reverseBits a 7 <<< 11 ||| reverseBits b 11) 19 lmx1511 lband).bytes.getD 6 0 =
      lmx1511 := rfl
  have band : decide ((wfTuneMsg (reverseBits a 7 <<< 11 ||| reverseBits b 11) 19 lmx1511 lband).bytes.getD 8 0
      ≠ 0) = lband := by
    cases lband <;> rfl
  rw [Synthesisers.load, shiftedIn_wfTuneMsg, band]
  dsimp only
  rw [if_pos selected]
  change (if registerField ((_ : BitVec 32).setWidth 19).reverse.toNat 0 1 = 1 then _ else _) = _
  rw [control, if_neg (by decide)]
  exact congrArg₂ (fun a b => { s with lband, bandIII := { s.bandIII with a, b } }) counterA counterB

/-! What a tuning does. -/

def Synthesisers.Tuned (s : Synthesisers) (n : Nat) (lband : Bool) : Prop :=
  s = ⟨⟨1024, n % 64, n / 64⟩, ⟨256, 98, 152⟩, ⟨256, 0, 40⟩, lband⟩

theorem tuneMsgs_tuned (s : Synthesisers) {n : Nat} (room : n < 0x20000) (lband : Bool) :
    ((tuneMsgs n lband).foldl Synthesisers.load s).Tuned n lband := by
  have quotient : (n : Int).tdiv p1511 = ((n / 64 : Nat) : Int) := Int.ofNat_tdiv n 64
  have remainder : (n : Int).tmod p1511 = ((n % 64 : Nat) : Int) := Int.ofNat_tmod n 64
  have smallA : n % 64 < 128 := by omega
  have smallB : n / 64 < 2048 := by omega
  simp only [tuneMsgs, List.foldl_cons, List.foldl_nil]
  rw [load_rfR, load_rfN, load_ifR, load_ifN, load_bandIIIR, quotient, remainder,
    load_bandIIIN _ _ smallA smallB, Synthesisers.Tuned]

/-- The frequency, in Hz, that ends up at the intermediate frequency. -/
def Synthesisers.received (s : Synthesisers) : ℚ :=
  s.bandIII.vco 64 - 38912000 + if s.lband then s.rf.vco 128 else 0

/-- The converter for the L band runs at the offset that is subtracted from the frequency. -/
theorem Synthesisers.Tuned.received_eq {s : Synthesisers} {n : Nat} {lband : Bool}
    (tuned : s.Tuned n lband) :
    s.received = 16000 * n - 38912000 + if lband then 1251456000 else 0 := by
  have whole : ((64 * (n / 64 : Nat) + (n % 64 : Nat) : Nat) : ℚ) = n := congrArg _ (Nat.div_add_mod n 64)
  push_cast at whole
  have converter : Counters.vco ⟨256, 98, 152⟩ 128 = 1251456000 := by
    rw [Counters.vco]
    norm_num
  have oscillator : Counters.vco ⟨1024, n % 64, n / 64⟩ 64 = 16000 * n := by
    rw [Counters.vco]
    push_cast
    rw [whole]
    ring
  rw [tuned, received, oscillator, converter]

/-! The arithmetic in doubles. -/

theorem double_nearest (x : ℚ) : binary64.Nearest x (double x) := round_nearest binary64 x

theorem representable_whole {n : Int} (size : |n| ≤ 2 ^ 53) : binary64.Representable n :=
  representable_int size (by decide)

theorem double_int {n : Int} (size : |n| ≤ 2 ^ 53) : double n = n :=
  round_representable (representable_whole size)

theorem fVcod_eq (freq : ℚ) : fVcod freq = double (double (double (freq * 1000000) + 38912000) / 16000) := by
  have million : double 1e6 = 1000000 := by
    have exact := double_int (n := 1000000) (by decide)
    norm_num at exact ⊢
    exact exact
  have middle : intermediateFreq = 38912000 := by
    have exact := double_int (n := 38912000) (by decide)
    rw [intermediateFreq]
    norm_num at exact ⊢
    exact exact
  have reference : fOsc = 16384000 := by
    have exact := double_int (n := 16384000) (by decide)
    rw [fOsc]
    norm_num at exact ⊢
    exact exact
  have step : double (fOsc / r1511) = 16000 := by
    have exact := double_int (n := 16000) (by decide)
    rw [reference, r1511]
    norm_num at exact ⊢
    exact exact
  rw [fVcod, million, middle, step]

/-- A quotient whose numerator is close to a whole number is rounded up to the same number of steps,
unless that number divides evenly. -/
theorem ceil_quotient {x : ℚ} {m : Int} (near : |x - m| ≤ 1 / 2) (nonneg : 0 ≤ m) (size : m ≤ 2 ^ 29) :
    ⌈double (x / 16000)⌉ = ⌈(m : ℚ) / 16000⌉ ∨
      (16000 ∣ m ∧ m < x ∧ ⌈double (x / 16000)⌉ = ⌈(m : ℚ) / 16000⌉ + 1) := by
  obtain ⟨n, ceiling⟩ : ∃ n, n = ⌈(m : ℚ) / 16000⌉ := ⟨_, rfl⟩
  obtain ⟨below, above⟩ := Int.ceil_eq_iff.mp ceiling.symm
  rw [lt_div_iff₀ (by norm_num)] at below
  rw [div_le_iff₀ (by norm_num)] at above
  have down : (n - 1) * 16000 + 1 ≤ m := by exact_mod_cast below
  have up : m ≤ n * 16000 := by exact_mod_cast above
  have downCast : ((n : ℚ) - 1) * 16000 + 1 ≤ m := by exact_mod_cast down
  have limits := abs_le.mp near
  have nearest := double_nearest (x / 16000)
  have whole (k : Int) (range : 0 ≤ k ∧ k ≤ n + 1) : binary64.Representable k :=
    representable_whole (abs_le.mpr ⟨by omega, by omega⟩)
  -- a double between the step below and the quotient
  have between : (n : ℚ) - 1 < double (x / 16000) := by
    have size : |(n - 1) * 2 ^ 15 + 1| ≤ 2 ^ 53 := abs_le.mpr ⟨by omega, by omega⟩
    have fine : binary64.Representable (((n - 1) * 2 ^ 15 + 1 : Int) * (2 : ℚ) ^ (-15 : Int)) :=
      representable_of_le size (by decide)
    have value : (((n - 1) * 2 ^ 15 + 1 : Int) : ℚ) * (2 : ℚ) ^ (-15 : Int) = n - 1 + 1 / 32768 := by
      push_cast
      norm_num
      ring
    rw [value] at fine
    have reached := nearest.ge fine (by
      rw [le_div_iff₀ (by norm_num)]
      linarith)
    linarith
  rw [← ceiling]
  by_cases inside : x ≤ n * 16000
  · left
    rw [Int.ceil_eq_iff]
    exact ⟨between, nearest.le (whole n ⟨by omega, by omega⟩) ((div_le_iff₀ (by norm_num)).mpr inside)⟩
  · have full : (n : ℚ) * 16000 - 1 < m := by linarith
    have fullCast : n * 16000 - 1 < m := by exact_mod_cast full
    have exactly : m = n * 16000 := by omega
    have exactCast : (m : ℚ) = n * 16000 := by exact_mod_cast exactly
    have low := nearest.ge (whole n ⟨by omega, by omega⟩) (by
      rw [le_div_iff₀ (by norm_num)]
      linarith)
    have high := nearest.le (whole (n + 1) ⟨by omega, le_rfl⟩) (by
      rw [div_le_iff₀ (by norm_num)]
      push_cast
      linarith)
    push_cast at high
    by_cases same : double (x / 16000) = n
    · left
      rw [same, Int.ceil_intCast]
    · right
      refine ⟨⟨n, by omega⟩, by linarith, ?_⟩
      rw [Int.ceil_eq_iff]
      push_cast
      exact ⟨by linarith [lt_of_le_of_ne low (Ne.symm same)], high⟩

/-- A frequency that is given in whole hertz, in the double nearest to it in MHz. -/
theorem megahertz_error {h : Nat} {e : Int} (least : -1074 ≤ e)
    (size : (h : ℚ) / 1000000 ≤ 2 ^ (53 + e)) : |double (h / 1000000) - h / 1000000| ≤ 2 ^ e / 2 := by
  have nonneg : (0 : ℚ) ≤ (h : ℚ) / 1000000 := by positivity
  apply (double_nearest _).error least
  rw [abs_of_nonneg nonneg]
  exact size

/-- In Band III nothing is lost on the way from MHz back to whole hertz. -/
theorem double_hertz {h : Nat} (above : 2 ^ 27 < h) (below : h ≤ 256000000) :
    double (double (h / 1000000) * 1000000) = h := by
  have error := megahertz_error (h := h) (e := -45) (by decide) (by
    rw [div_le_iff₀ (by norm_num)]
    norm_num
    exact_mod_cast below)
  have point : (h : ℚ) = ((h * 2 ^ 25 : Int) : ℚ) * 2 ^ (-25 : Int) := by
    push_cast
    norm_num
    ring
  have near : |double (h / 1000000) * 1000000 - ((h * 2 ^ 25 : Int) : ℚ) * 2 ^ (-25 : Int)| <
      2 ^ (-25 : Int) / 2 := by
    have limits := abs_le.mp error
    rw [← point, abs_lt]
    norm_num at limits ⊢
    constructor <;> linarith
  have lower : (2 : Int) ^ 52 < h * 2 ^ 25 := by omega
  have upper : (h : Int) * 2 ^ 25 ≤ 2 ^ 53 := by omega
  rw [(double_nearest _).snap (by decide) lower upper near, ← point]

theorem maxfreqIII_eq : maxfreqIII = 240 := by
  have exact := double_int (n := 240) (by decide)
  rw [maxfreqIII]
  norm_num at exact ⊢
  exact exact

theorem ceil_toInt {n : Int} (nonneg : 0 ≤ n) (size : n ≤ 2 ^ 17) : toInt n = some n := by
  rw [toInt, trunc_intCast, if_pos ⟨by omega, by omega⟩]

/-- Steps of 16 kHz up to the oscillator are steps up to the frequency that is received. -/
theorem ceil_steps (m : Int) : ⌈((m + 38912000 : Int) : ℚ) / 16000⌉ = ⌈(m : ℚ) / 16000⌉ + 2432 := by
  rw [← Int.ceil_add_intCast]
  congr 1
  push_cast
  ring

/-- A tuning to a number of steps, of which the intermediate frequency is 2432. -/
theorem wfTune_steps {f : ℚ} {n : Int} (nonneg : 0 ≤ n) (size : n < 2 ^ 16)
    (steps : ⌈fVcod (if f > maxfreqIII then double (f - lbandoffset) else f)⌉ = n + 2432) :
    ∃ sent, wfTune f = some sent ∧ ∀ s : Synthesisers,
      (sent.foldl Synthesisers.load s).lband = decide (f > maxfreqIII) ∧
        (sent.foldl Synthesisers.load s).received =
          16000 * n + if f > maxfreqIII then 1251456000 else 0 := by
  obtain ⟨k, count⟩ : ∃ k : Nat, (k : Int) = n + 2432 := ⟨(n + 2432).toNat, by omega⟩
  have value : wfTune f = some (tuneMsgs k (decide (f > maxfreqIII))) := by
    rw [wfTune]
    simp only [decide_eq_true_eq]
    rw [steps, ceil_toInt (by omega) (by omega), count]
    rfl
  refine ⟨_, value, fun s => ?_⟩
  have tuned := tuneMsgs_tuned s (by omega : k < 0x20000) (decide (f > maxfreqIII))
  have total : (k : ℚ) = n + 2432 := by exact_mod_cast count
  refine ⟨congrArg Synthesisers.lband tuned, ?_⟩
  rw [tuned.received_eq, total]
  simp only [decide_eq_true_eq]
  ring

/-- In Band III the receiver is tuned to the first multiple of 16 kHz that is not below the frequency
asked for. -/
theorem wf_tune_band_III {h : Nat} (above : 2 ^ 27 < h) (below : h ≤ 240000000) :
    ∃ sent, wfTune (double (h / 1000000)) = some sent ∧ ∀ s : Synthesisers,
      (sent.foldl Synthesisers.load s).lband = false ∧
        (sent.foldl Synthesisers.load s).received = 16000 * ⌈(h : ℚ) / 16000⌉ := by
  have whole : (h : ℚ) ≤ 240000000 := by exact_mod_cast below
  have band : ¬double (h / 1000000) > maxfreqIII := by
    have limit : binary64.Representable ((240 : Int) : ℚ) := representable_whole (by decide)
    rw [maxfreqIII_eq, not_lt]
    apply (double_nearest _).le (by exact_mod_cast limit)
    linarith
  have sum : double ((h : ℚ) + 38912000) = ((h + 38912000 : Int) : ℚ) := by
    have exact := double_int (n := h + 38912000) (abs_le.mpr ⟨by omega, by omega⟩)
    push_cast at exact ⊢
    exact exact
  have quotient := ceil_quotient (x := ((h + 38912000 : Int) : ℚ)) (m := h + 38912000)
    (by rw [sub_self, abs_zero]; norm_num) (by omega) (by omega)
  have steps : ⌈double (((h + 38912000 : Int) : ℚ) / 16000)⌉ = ⌈((h : Int) : ℚ) / 16000⌉ + 2432 := by
    rw [← ceil_steps]
    exact quotient.resolve_right fun ⟨_, less, _⟩ => absurd less (lt_irrefl _)
  have nonneg : 0 ≤ ⌈((h : Int) : ℚ) / 16000⌉ := Int.ceil_nonneg (by positivity)
  have size : ⌈((h : Int) : ℚ) / 16000⌉ ≤ 15000 := by
    rw [Int.ceil_le, div_le_iff₀ (by norm_num)]
    norm_num
    exact_mod_cast below
  obtain ⟨sent, value, tuned⟩ := wfTune_steps (f := double (h / 1000000)) nonneg (by omega) (by
    rw [if_neg band, fVcod_eq, double_hertz above (by omega), sum, steps])
  refine ⟨sent, value, fun s => ?_⟩
  obtain ⟨lband, received⟩ := tuned s
  rw [lband, received, if_neg band, add_zero, decide_eq_false band]
  exact ⟨rfl, rfl⟩

/-- Channel 12B. -/
theorem wf_tune_band_III_sample : ∃ sent, wfTune (double ((225648000 : Nat) / 1000000)) = some sent ∧
    ∀ s : Synthesisers, (sent.foldl Synthesisers.load s).lband = false ∧
      (sent.foldl Synthesisers.load s).received = 16000 * ⌈((225648000 : Nat) : ℚ) / 16000⌉ :=
  wf_tune_band_III (by decide) (by decide)

/-- The frequency that is left in the L band. The difference is exact, but the two doubles are not. -/
theorem lband_error {h : Nat} (above : 1251456000 ≤ h) (below : h ≤ 1500000000) :
    |double (double (h / 1000000) - lbandoffset) * 1000000 - (h - 1251456000)| ≤ 1 / 4 := by
  have low : (1251456000 : ℚ) ≤ h := by exact_mod_cast above
  have high : (h : ℚ) ≤ 1500000000 := by exact_mod_cast below
  have nearest := double_nearest ((h : ℚ) / 1000000)
  have offset : binary64.Nearest 1251.456 lbandoffset := double_nearest 1251.456
  have least : (1251 : ℚ) ≤ double (h / 1000000) := by
    have limit := nearest.ge (representable_whole (n := 1251) (by decide)) (by push_cast; linarith)
    exact_mod_cast limit
  have most : double (h / 1000000) ≤ 1500 := by
    have limit := nearest.le (representable_whole (n := 1500) (by decide)) (by push_cast; linarith)
    exact_mod_cast limit
  have offsetLow : (1251 : ℚ) ≤ lbandoffset := by
    have limit := offset.ge (representable_whole (n := 1251) (by decide)) (by norm_num)
    exact_mod_cast limit
  have offsetHigh : lbandoffset ≤ 1252 := by
    have limit := offset.le (representable_whole (n := 1252) (by decide)) (by norm_num)
    exact_mod_cast limit
  obtain ⟨i, first⟩ := nearest.representable.multiple (e := -42)
    (le_trans (by norm_num [binary64]) (least.trans (le_abs_self _)))
  obtain ⟨j, second⟩ := offset.representable.multiple (e := -42)
    (le_trans (by norm_num [binary64]) (offsetLow.trans (le_abs_self _)))
  have difference : double (h / 1000000) - lbandoffset = ((i - j : Int) : ℚ) * 2 ^ (-42 : Int) := by
    rw [first, second]
    push_cast
    ring
  have size : |i - j| ≤ 2 ^ 53 := by
    have bound : |((i - j : Int) : ℚ)| ≤ 2 ^ 53 := by
      norm_num at difference
      push_cast
      rw [abs_le]
      constructor <;> linarith
    exact_mod_cast bound
  have exact : double (double (h / 1000000) - lbandoffset) = double (h / 1000000) - lbandoffset := by
    rw [difference]
    exact round_representable (representable_of_le size (by decide))
  have error := abs_le.mp (megahertz_error (h := h) (e := -42) (by decide) (by norm_num; linarith))
  have offsetError := abs_le.mp (offset.error (e := -42) (by decide) (by norm_num [binary64]))
  rw [exact, abs_le]
  norm_num at error offsetError ⊢
  constructor <;> linarith

/-- All the roundings before the division together do not make half a hertz. -/
theorem lband_near {h : Nat} (above : 1251456000 ≤ h) (below : h ≤ 1500000000) :
    |double (double (double (double (h / 1000000) - lbandoffset) * 1000000) + 38912000) -
      (((h : Int) - 1251456000 + 38912000 : Int) : ℚ)| ≤ 1 / 2 := by
  have low : (1251456000 : ℚ) ≤ h := by exact_mod_cast above
  have high : (h : ℚ) ≤ 1500000000 := by exact_mod_cast below
  have difference := abs_le.mp (lband_error above below)
  obtain ⟨d, frequency⟩ : ∃ d, d = double (double (h / 1000000) - lbandoffset) := ⟨_, rfl⟩
  rw [← frequency] at difference ⊢
  have product := abs_le.mp ((double_nearest (d * 1000000)).error (e := -25) (by decide) (by
    rw [abs_le]
    norm_num [binary64]
    constructor <;> linarith))
  norm_num at product
  have sum := abs_le.mp ((double_nearest (double (d * 1000000) + 38912000)).error (e := -24) (by decide) (by
    rw [abs_le]
    norm_num [binary64]
    constructor <;> linarith))
  norm_num at sum
  rw [abs_le]
  push_cast
  constructor <;> linarith

/-- In the L band rounding may add a step, but only to a multiple of 16 kHz. -/
theorem wf_tune_L_band {h : Nat} (above : 1251456000 ≤ h) (below : h ≤ 1500000000) :
    ∃ sent, wfTune (double (h / 1000000)) = some sent ∧ ∀ s : Synthesisers,
      (sent.foldl Synthesisers.load s).lband = true ∧
        ((sent.foldl Synthesisers.load s).received = 16000 * ⌈(h : ℚ) / 16000⌉ ∨
          16000 ∣ h ∧ (sent.foldl Synthesisers.load s).received = h + 16000) := by
  have low : (1251456000 : ℚ) ≤ h := by exact_mod_cast above
  have high : (h : ℚ) ≤ 1500000000 := by exact_mod_cast below
  obtain ⟨m, place⟩ : ∃ m : Int, m = h - 1251456000 := ⟨_, rfl⟩
  have placeCast : (m : ℚ) = h - 1251456000 := by exact_mod_cast place
  have band : double (h / 1000000) > maxfreqIII := by
    have limit := (double_nearest ((h : ℚ) / 1000000)).ge (representable_whole (n := 1251) (by decide))
      (by push_cast; linarith)
    push_cast at limit
    rw [maxfreqIII_eq]
    linarith
  have near := lband_near above below
  rw [← place] at near
  have steps := ceil_quotient near (by omega) (by omega)
  obtain ⟨n, ceiling⟩ : ∃ n, n = ⌈(m : ℚ) / 16000⌉ := ⟨_, rfl⟩
  have total : ⌈(h : ℚ) / 16000⌉ = n + 78216 := by
    rw [ceiling, ← Int.ceil_add_intCast, placeCast]
    congr 1
    push_cast
    ring
  have nonneg : 0 ≤ n := by
    rw [ceiling]
    exact Int.ceil_nonneg (div_nonneg (by linarith) (by norm_num))
  have size : n ≤ 16000 := by
    rw [ceiling, Int.ceil_le, div_le_iff₀ (by norm_num)]
    norm_num
    linarith
  rw [ceil_steps, ← ceiling] at steps
  rcases steps with same | ⟨divides, -, more⟩
  · obtain ⟨sent, value, tuned⟩ := wfTune_steps (f := double (h / 1000000)) nonneg (by omega) (by
      rw [if_pos band, fVcod_eq, same])
    refine ⟨sent, value, fun s => ?_⟩
    obtain ⟨lband, received⟩ := tuned s
    rw [lband, received, if_pos band, total, decide_eq_true band]
    push_cast
    exact ⟨rfl, .inl (by ring)⟩
  · obtain ⟨sent, value, tuned⟩ := wfTune_steps (f := double (h / 1000000)) (n := n + 1) (by omega)
      (by omega) (by
        rw [if_pos band, fVcod_eq, more]
        ring)
    obtain ⟨k, multiple⟩ : ∃ k, m = 16000 * k := ⟨(m + 38912000) / 16000 - 2432, by omega⟩
    have even : n = k := by
      rw [ceiling, multiple]
      push_cast
      rw [mul_div_cancel_left₀ _ (by norm_num), Int.ceil_intCast]
    have exactCast : (h : ℚ) = 16000 * n + 1251456000 := by
      have exactly : (h : Int) = 16000 * n + 1251456000 := by omega
      exact_mod_cast exactly
    refine ⟨sent, value, fun s => ?_⟩
    obtain ⟨lband, received⟩ := tuned s
    rw [lband, received, if_pos band, decide_eq_true band, exactCast]
    push_cast
    exact ⟨rfl, .inr ⟨by omega, by ring⟩⟩

/-- Channel LA. -/
theorem wf_tune_L_band_sample : ∃ sent, wfTune (double ((1452960000 : Nat) / 1000000)) = some sent ∧
    ∀ s : Synthesisers, (sent.foldl Synthesisers.load s).lband = true ∧
      ((sent.foldl Synthesisers.load s).received = 16000 * ⌈((1452960000 : Nat) : ℚ) / 16000⌉ ∨
        16000 ∣ 1452960000 ∧ (sent.foldl Synthesisers.load s).received = (1452960000 : Nat) + 16000) :=
  wf_tune_L_band (by decide) (by decide)

/-- The step is added there. -/
example : (wfTune (double (1452960000 / 1000000))).map (fun sent => (sent.foldl Synthesisers.load
    ⟨⟨0, 0, 0⟩, ⟨0, 0, 0⟩, ⟨0, 0, 0⟩, false⟩).received) = some (1452960000 + 16000) := by decide +kernel

end OpenDab
