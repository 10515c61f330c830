import OpenDab.Wfic.Decoder

/-! Where `k_viterbi` keeps its decisions. The add-compare-select loop goes to a new word when the
shifted mask has left the old one; the chain back goes down by `D` words and finds a state through
`LONGBITS`. The two agree when the preprocessor knows the width of `unsigned long`. -/
namespace OpenDab

open Buffers Bitmap

structure DecisionBit (w : Nat) where
  word : Nat
  mask : BitVec w
  deriving DecidableEq

def DecisionBit.set (b : DecisionBit w) (paths : Array (BitVec w)) : Bool :=
  paths.getD b.word 0 &&& b.mask != 0

/-- One test of the chain back: the bit it looks at for the state, and what it finds there. -/
structure ChainTest (w : Nat) where
  i : Nat
  state : Nat
  bit : DecisionBit w
  found : Bool

/-- The tests of `chainBack`, first one first; reading outside `paths` gives `none`. -/
def chainTests (T : Target) (paths : Array (BitVec T.width)) :
    Nat → Nat → Nat → Option (List (ChainTest T.width))
  | 0, _, _ => some []
  | i + 1, pp, endstate =>
    if T.d ≤ pp then
      let pp := pp - T.d
      let bit : DecisionBit T.width :=
        ⟨pp + endstate >>> T.loglongbits, 1#T.width <<< (endstate &&& (T.longbits - 1))⟩
      if bit.word < paths.size then
        let found := bit.set paths
        (chainTests T paths i pp ((if found then endstate ||| 1 <<< 6 else endstate) >>> 1)).map
          (⟨i, endstate, bit, found⟩ :: ·)
      else none
    else none

/-- The chain back is these tests: it is defined when they are, and sets a bit for each that holds. -/
theorem chainBack_tests (T : Target) (paths : Array (BitVec T.width)) (i pp endstate : Nat)
    (data : Nat → UInt8) : chainBack T paths i pp endstate data =
      (chainTests T paths i pp endstate).map
        (List.foldl (fun data test => if test.found then store data test.i 1 else data) data) := by
  induction i generalizing pp endstate data with
  | zero => rfl
  | succ i ih =>
    rw [chainBack, chainTests]
    split
    · dsimp only
      by_cases inside : pp - T.d + endstate >>> T.loglongbits < paths.size
      · have word : paths[pp - T.d + endstate >>> T.loglongbits]? =
            some (paths.getD (pp - T.d + endstate >>> T.loglongbits) 0) := by
          rw [Array.getD_eq_getD_getElem?, Array.getElem?_eq_getElem inside, Option.getD_some]
        rw [word, if_pos inside, Option.bind_some, Option.map_map]
        simp only [DecisionBit.set, ih, Function.comp_def, List.foldl_cons, bne_iff_ne]
        by_cases set : paths.getD (pp - T.d + endstate >>> T.loglongbits) 0 &&&
            1#T.width <<< (endstate &&& (T.longbits - 1)) ≠ 0
        · simp only [if_pos set]
        · simp only [if_neg set]
      · rw [if_neg inside, Array.getElem?_eq_none (by omega)]
        rfl
    · rfl

section Places

variable {w : Nat} (words : w = 32 ∨ w = 64) (mettab : Nat → Nat → Int) (symbols : Nat → UInt8)

/-- Where the add-compare-select loop of step `t` keeps the decision of a state: its word and mask
in the round that looks at the state. -/
def Paths.decisionBit (t s : Nat) (v : Paths w) : DecisionBit w :=
  let a := v.rounds mettab symbols t (s / 2)
  ⟨a.pp, if s % 2 = 0 then a.mask else a.mask <<< 1⟩

def Paths.decision (t s : Nat) (v : Paths w) : Bool :=
  (v.decisionBit mettab symbols t s).set (v.rounds mettab symbols t (s / 2 + 1)).paths

include words in
theorem Paths.Holds.decisionBit {size t : Nat} {v : Paths w} (holds : v.Holds mettab symbols size t)
    (room : (t + 1) * (64 / w) ≤ size) {s : Nat} (small : s < 64) :
    v.decisionBit mettab symbols t s = ⟨t * (64 / w) + s / w, 1#w <<< (s % w)⟩ := by
  obtain ⟨-, pp, mask⟩ := holds.rounds words mettab symbols room (show s / 2 ≤ 32 by omega)
  obtain ⟨word, place, -⟩ := mask_places words (s / 2)
  rw [holds.pp] at pp
  rw [Paths.decisionBit, pp, mask]
  by_cases even : s % 2 = 0
  · rw [if_pos even, show 2 * (s / 2) = s by omega]
  · rw [if_neg even, ← BitVec.shiftLeft_add, ← place, ← word, show 2 * (s / 2) + 1 = s by omega]

theorem DecisionBit.set_eq {paths : Array (BitVec w)} (positive : 0 < w) (base s : Nat) :
    (⟨base + s / w, 1#w <<< (s % w)⟩ : DecisionBit w).set paths = test paths base s := by
  rw [DecisionBit.set, test, Bool.eq_iff_iff, bne_iff_ne]
  exact and_one_shift _ (Nat.mod_lt s positive)

include words in
/-- No later round or step touches a decision. -/
theorem Paths.Holds.decision {size t : Nat} {v : Paths w} (holds : v.Holds mettab symbols size t)
    (room : (t + 1) * (64 / w) ≤ size) {s : Nat} (small : s < 64) :
    v.decision mettab symbols t s = second mettab symbols t s := by
  have stands := holds.rounds words mettab symbols room (show s / 2 + 1 ≤ 32 by omega)
  rw [Paths.decision, holds.decisionBit words mettab symbols room small,
    DecisionBit.set_eq (by omega), ← holds.pp]
  exact stands.filled.decided s (by omega)

end Places

section Traceback

variable (T : Target) (mettab : Nat → Nat → Int) (symbols : Nat → UInt8) (nbits startstate : Nat)

def trellisRun (t : Nat) : Paths T.width :=
  loop t (Paths.advance mettab symbols)
    ⟨store (fun _ => -999999) (startstate / 2 ^ 6 * 2 ^ 6) 0,
      Array.replicate ((nbits + 6) * T.d) (0 : BitVec T.width), 0⟩

/-- The chain back reads what the trellis loop wrote: for the state it has come to, iteration `i`
looks at the bit of step `i + 6`, and nothing outside `paths` is touched. -/
structure Traceback (endstate : Nat) : Prop where
  written : ∀ t < nbits + 6, ∀ s < 64,
    ((trellisRun T mettab symbols nbits startstate t).decisionBit mettab symbols t s).word <
      (nbits + 6) * T.d
  read : ∃ tests, chainTests T (trellisRun T mettab symbols nbits startstate (nbits + 6)).paths nbits
      (trellisRun T mettab symbols nbits startstate (nbits + 6)).pp (endstate / 2 ^ 6 * 2 ^ 6) =
        some tests ∧
    ∀ test ∈ tests, test.bit.word < (nbits + 6) * T.d ∧
      test.bit = (trellisRun T mettab symbols nbits startstate (test.i + 6)).decisionBit mettab
        symbols (test.i + 6) test.state ∧
      test.found = (trellisRun T mettab symbols nbits startstate (test.i + 6)).decision mettab
        symbols (test.i + 6) test.state

variable {T startstate}

theorem masked_state {s : Nat} (small : s < 64) : s / 2 ^ 6 * 2 ^ 6 = 0 := by
  omega

theorem Target.words (T : Target) : (T.width = 32 ∨ T.width = 64) ∧ 64 / T.width ≤ T.d := by
  cases T <;> decide

theorem trellisRun_holds (small : startstate < 64) {t : Nat} (inside : t ≤ nbits + 6) :
    (trellisRun T mettab symbols nbits startstate t).Holds mettab symbols ((nbits + 6) * T.d) t := by
  rw [trellisRun, masked_state small]
  exact paths_run T.words.1 mettab symbols _ t (Nat.mul_le_mul inside T.words.2)

theorem trellisRun_decisionBit (small : startstate < 64) {t s : Nat} (inside : t < nbits + 6)
    (state : s < 64) :
    (trellisRun T mettab symbols nbits startstate t).decisionBit mettab symbols t s =
      ⟨t * (64 / T.width) + s / T.width, 1#T.width <<< (s % T.width)⟩ :=
  (trellisRun_holds mettab symbols nbits small inside.le).decisionBit T.words.1 mettab symbols
    (Nat.mul_le_mul inside T.words.2) state

theorem trellisRun_decision (small : startstate < 64) {t s : Nat} (inside : t < nbits + 6)
    (state : s < 64) :
    (trellisRun T mettab symbols nbits startstate t).decision mettab symbols t s =
      second mettab symbols t s :=
  (trellisRun_holds mettab symbols nbits small inside.le).decision T.words.1 mettab symbols
    (Nat.mul_le_mul inside T.words.2) state

/-- The words of a step follow those of the steps before it. -/
theorem decision_word_lt {t s n : Nat} (inside : t < n) (state : s < 64) :
    t * (64 / T.width) + s / T.width < n * T.d := by
  obtain ⟨words, enough⟩ := T.words
  have row := ((words_per_step words).2 s).2.2 state
  have rows := Nat.mul_le_mul inside enough
  rw [Nat.succ_mul] at rows
  omega

variable {nbits}

/-- Where the width is known, the tests from step `i + 6` down look at the bits of their steps. -/
theorem chainTests_native (native : T.Native) {n size : Nat} {v : Paths T.width}
    (holds : v.Holds mettab symbols size n) (room : n * T.d ≤ size) {i s : Nat} (inside : i + 6 ≤ n)
    (state : s < 64) :
    ∃ tests, chainTests T v.paths i ((i + 6) * T.d) s = some tests ∧ ∀ test ∈ tests,
      test.i < i ∧ test.state < 64 ∧
      test.bit = ⟨(test.i + 6) * (64 / T.width) + test.state / T.width,
        1#T.width <<< (test.state % T.width)⟩ ∧
      test.found = second mettab symbols (test.i + 6) test.state := by
  obtain ⟨words, d, places⟩ := native.places
  induction i generalizing s with
  | zero => exact ⟨[], rfl, by simp⟩
  | succ i ih =>
    have pp : (i + 7) * T.d = (i + 6) * T.d + T.d := Nat.succ_mul ..
    have word : (i + 6) * T.d + s / T.width < v.paths.size := by
      rw [holds.size]
      have below := decision_word_lt (T := T) (show i + 6 < n by omega) state
      rw [d] at room ⊢
      rw [d] at below
      omega
    have found : (⟨(i + 6) * T.d + s / T.width, 1#T.width <<< (s % T.width)⟩ :
        DecisionBit T.width).set v.paths = second mettab symbols (i + 6) s := by
      rw [d, DecisionBit.set_eq (by omega)]
      exact holds.decided (i + 6) (by omega) s state
    have next : (if second mettab symbols (i + 6) s = true then s ||| 1 <<< 6 else s) >>> 1 =
        before s (second mettab symbols (i + 6) s) := by
      cases second mettab symbols (i + 6) s
      · exact (chain_step state).2
      · exact (chain_step state).1
    obtain ⟨tests, run, right⟩ := ih (by omega) (before_lt state (second mettab symbols (i + 6) s))
    rw [chainTests, show i + 1 + 6 = i + 7 by omega, if_pos (by omega)]
    simp only [pp, Nat.add_sub_cancel, (places _).1, (places _).2, if_pos word, found, next, run,
      Option.map_some, Option.some.injEq, exists_eq_left', List.mem_cons, forall_eq_or_imp]
    refine ⟨⟨by omega, state, by rw [d], trivial⟩, fun test member => ?_⟩
    obtain ⟨earlier, rest⟩ := right test member
    exact ⟨by omega, rest⟩

/-- The first test looks `D` words below the end. -/
theorem chainTests_first {paths : Array (BitVec T.width)} {i pp s : Nat}
    {tests : List (ChainTest T.width)} (run : chainTests T paths (i + 1) pp s = some tests) :
    ∃ test ∈ tests, test.i = i ∧ test.state = s ∧
      test.bit.word = pp - T.d + s >>> T.loglongbits := by
  rw [chainTests] at run
  split at run
  · dsimp only at run
    split at run
    · obtain ⟨rest, -, rfl⟩ := Option.map_eq_some_iff.mp run
      exact ⟨_, List.mem_cons_self, rfl, rfl, rfl⟩
    · cases run
  · cases run

/-- The bit that is looked at first is that of the last step only where the width is known. -/
theorem Traceback.native (positive : 0 < nbits) (start : startstate < 64) {endstate : Nat}
    (stop : endstate < 64) (reads : Traceback T mettab symbols nbits startstate endstate) :
    T.Native := by
  obtain ⟨-, tests, run, right⟩ := reads
  obtain ⟨i, rfl⟩ : ∃ i, nbits = i + 1 := ⟨nbits - 1, by omega⟩
  obtain ⟨test, member, index, state, word⟩ := chainTests_first run
  have place := (right test member).2.1
  rw [masked_state stop] at state word
  rw [index, state,
    trellisRun_decisionBit mettab symbols (i + 1) start (by omega) (by decide)] at place
  rw [place, (trellisRun_holds mettab symbols (i + 1) start (Nat.le_refl _)).pp,
    Nat.zero_shiftRight] at word
  cases T with
  | x86_64 => rfl
  | ilp32 => rfl
  | lp64 =>
    simp only [Target.width, Target.d, Target.loglongbits] at word
    omega

/-- On every input the chain back reads what was written exactly where the preprocessor knows the
width of `unsigned long`. -/
theorem traceback_iff (positive : 0 < nbits) (start : startstate < 64) {endstate : Nat}
    (stop : endstate < 64) :
    Traceback T mettab symbols nbits startstate endstate ↔ T.Native := by
  refine ⟨Traceback.native mettab symbols positive start stop, fun native => ?_⟩
  have holds := trellisRun_holds (T := T) mettab symbols nbits start (Nat.le_refl _)
  obtain ⟨tests, run, right⟩ := chainTests_native mettab symbols native holds (Nat.le_refl _)
    (Nat.le_refl _) (show 0 < 64 by decide)
  refine ⟨fun t inside s state => ?_, tests, ?_, fun test member => ?_⟩
  · rw [trellisRun_decisionBit mettab symbols nbits start inside state]
    exact decision_word_lt inside state
  · rw [holds.pp, masked_state stop, ← native.places.2.1]
    exact run
  · obtain ⟨inside, state, bit, found⟩ := right test member
    rw [trellisRun_decisionBit mettab symbols nbits start (by omega) state,
      trellisRun_decision mettab symbols nbits start (by omega) state, bit, found]
    exact ⟨decision_word_lt (by omega) state, rfl, rfl⟩

end Traceback

theorem traceback_iff_fic : Traceback .x86_64 (fun _ _ => 0) (fun _ => 128) 768 0 0 :=
  (traceback_iff _ _ (by decide) (by decide) (by decide)).mpr rfl

/-- The 768 bits of a FIB group on a 64-bit processor other than x86_64 and alpha. -/
theorem lp64_reads_other_words : ¬Traceback .lp64 (fun _ _ => 0) (fun _ => 128) 768 0 0 := by
  intro reads
  exact absurd (reads.native _ _ (by decide) (by decide) (by decide)) (show ¬(32 = 64) by decide)

end OpenDab
