import OpenDab.Wfic.Code
import OpenDab.Library.Trellis

/-! The loops of `k_viterbi` against the trellis: the add-compare-select loop computes the
metrics and packs the choices into words, and the chain back reads the choices of the
surviving walk. -/
namespace OpenDab

open Buffers Bitmap Trellis

/-- The two registers from which a register can be reached. -/
def before (s : Nat) (second : Bool) : Nat := s / 2 + if second then 32 else 0

/-- The metric of the code bits on an edge at time `t`. -/
def branch (mettab : Nat → Nat → Int) (symbols : Nat → UInt8) (t s s' : Nat) : Int :=
  mets mettab (shift symbols (4 * t)) (syms (2 * s + s' % 2))

def started (s : Nat) : Int := if s = 0 then 0 else -999999

theorem before_lt {s : Nat} (small : s < 64) (second : Bool) : before s second < 64 := by
  unfold before
  split <;> omega

/-- The polynomials have their first and last coefficient set, so that flipping the oldest bit has
the same effect as flipping the newest. -/
theorem syms_opposite : ∀ k < 32, syms (2 * (k + 32)) = syms (2 * k + 1) ∧
    syms (2 * (k + 32) + 1) = syms (2 * k) := by
  decide +kernel

section Step

variable {w : Nat} (words : w = 32 ∨ w = 64)

/-- Metrics and decisions of the first `n` states of a step, whose map starts at word `base`. -/
structure Acs.Filled (base : Nat) (old : Array (BitVec w)) (best : Nat → Int) (second : Nat → Bool)
    (n : Nat) (a : Acs w) : Prop where
  nmetric : ∀ s < n, a.nmetric s = best s
  size : a.paths.size = old.size
  decided : ∀ s < n, test a.paths base s = second s
  clear : ∀ s, n ≤ s → test a.paths base s = false
  below : ∀ b s, b + s / w < base → test a.paths b s = test old b s

include words in
theorem Acs.Filled.select {base : Nat} {old : Array (BitVec w)} {best : Nat → Int}
    {second : Nat → Bool} {n : Nat} {a : Acs w} (filled : a.Filled base old best second n)
    (pp : a.pp = base + n / w) (inside : base + n / w < old.size) {m0 m1 : Int}
    (better : best n = if m1 > m0 then m1 else m0) (chosen : second n = decide (m1 > m0)) :
    (a.select n m0 m1 (1#w <<< (n % w))).Filled base old best second (n + 1) := by
  obtain ⟨nmetric, size, decided, clear, below⟩ := filled
  have positive : 0 < w := by omega
  have room : base + n / w < a.paths.size := by omega
  unfold Acs.select
  split
  · next first =>
    rw [if_pos first] at better
    rw [decide_eq_true first] at chosen
    refine ⟨fun s bound => ?_, by simpa using size, fun s bound => ?_, fun s bound => ?_,
      fun b s bound => ?_⟩
    · dsimp only
      rw [store_apply, store_apply]
      by_cases newest : s = n
      · rw [if_pos newest, newest, better]
      · rw [if_neg newest, if_neg newest, nmetric s (by omega)]
    · dsimp only
      rw [pp, test_mark positive a.paths room]
      by_cases newest : s = n
      · simp [newest, chosen]
      · simp [newest, decided s (by omega)]
    · dsimp only
      rw [pp, test_mark positive a.paths room, clear s (by omega)]
      simp
      omega
    · dsimp only
      rw [pp, test_mark_below a.paths _ (Nat.lt_of_lt_of_le bound (Nat.le_add_right ..)),
        below b s bound]
  · next first =>
    rw [if_neg first] at better
    rw [decide_eq_false first] at chosen
    refine ⟨fun s bound => ?_, size, fun s bound => ?_, fun s bound => clear s (by omega), below⟩
    · dsimp only
      rw [store_apply]
      by_cases newest : s = n
      · rw [if_pos newest, newest, better]
      · rw [if_neg newest, nmetric s (by omega)]
    · by_cases newest : s = n
      · rw [newest, chosen]
        exact clear n (Nat.le_refl n)
      · exact decided s (by omega)

@[simp] theorem select_pp (i : Nat) (m0 m1 : Int) (bit : BitVec w) (a : Acs w) :
    (a.select i m0 m1 bit).pp = a.pp := by
  unfold Acs.select
  split <;> rfl

@[simp] theorem select_mask (i : Nat) (m0 m1 : Int) (bit : BitVec w) (a : Acs w) :
    (a.select i m0 m1 bit).mask = a.mask := by
  unfold Acs.select
  split <;> rfl

structure Acs.Stands (base : Nat) (old : Array (BitVec w)) (best : Nat → Int)
    (second : Nat → Bool) (k : Nat) (a : Acs w) : Prop where
  filled : a.Filled base old best second (2 * k)
  pp : a.pp = base + 2 * k / w
  mask : a.mask = 1#w <<< (2 * k % w)

include words in
theorem mask_places (k : Nat) : (2 * k + 1) / w = 2 * k / w ∧ (2 * k + 1) % w = 2 * k % w + 1 ∧
    (2 * (k + 1) % w = 0 ∧ 2 * k % w + 2 = w ∧ 2 * (k + 1) / w = 2 * k / w + 1 ∨
      2 * (k + 1) % w = 2 * k % w + 2 ∧ 2 * k % w + 2 < w ∧ 2 * (k + 1) / w = 2 * k / w) := by
  rcases words with rfl | rfl <;> omega

theorem one_shift_ne_zero {n : Nat} (inside : n < w) : 1#w <<< n ≠ 0 := fun zero => by
  have bit := congrArg (fun v => v.getLsbD n) zero
  simp [getLsbD_one_shift inside] at bit

def entering (mets cmetric : Nat → Int) (s : Nat) (second : Bool) : Int :=
  cmetric (before s second) + mets (syms (2 * before s second + s % 2))

theorem entering_even (mets cmetric : Nat → Int) {k : Nat} (small : k < 32) :
    entering mets cmetric (2 * k) false = cmetric (2 * k / 2) + mets (syms (2 * k)) ∧
      entering mets cmetric (2 * k) true = cmetric (2 * k / 2 + 2 ^ 5) + mets (syms (2 * k + 1)) := by
  have half : 2 * k / 2 = k := by omega
  have even : 2 * k % 2 = 0 := by omega
  simp [entering, before, half, even, (syms_opposite k small).1]

theorem entering_odd (mets cmetric : Nat → Int) {k : Nat} (small : k < 32) :
    entering mets cmetric (2 * k + 1) false =
        cmetric (2 * k / 2) + mets (syms (2 * k)) - (mets (syms (2 * k)) - mets (syms (2 * k + 1))) ∧
      entering mets cmetric (2 * k + 1) true = cmetric (2 * k / 2 + 2 ^ 5) + mets (syms (2 * k + 1)) +
        (mets (syms (2 * k)) - mets (syms (2 * k + 1))) := by
  have half : (2 * k + 1) / 2 = k ∧ 2 * k / 2 = k := by omega
  have odd : (2 * k + 1) % 2 = 1 := by omega
  simp only [entering, before, half, odd, (syms_opposite k small).2, Bool.false_eq_true, if_false,
    if_true, Nat.add_zero, Nat.reducePow]
  omega

def Decides (mets cmetric best : Nat → Int) (second : Nat → Bool) : Prop := ∀ s < 64,
  best s = (if entering mets cmetric s true > entering mets cmetric s false
    then entering mets cmetric s true else entering mets cmetric s false) ∧
  second s = decide (entering mets cmetric s true > entering mets cmetric s false)

include words in
theorem Acs.Stands.butterfly {base : Nat} {old : Array (BitVec w)} {best cmetric : Nat → Int}
    {mets : Nat → Int} {second : Nat → Bool} {k : Nat} {a : Acs w}
    (stands : a.Stands base old best second k) (inside : base + 2 * k / w < old.size)
    (decides : Decides mets cmetric best second) (small : k < 32) :
    (a.butterfly mets cmetric k).Stands base old best second (k + 1) := by
  obtain ⟨filled, pp, mask⟩ := stands
  obtain ⟨word, place, next⟩ := mask_places words k
  obtain ⟨best₀, second₀⟩ := decides (2 * k) (by omega)
  obtain ⟨best₁, second₁⟩ := decides (2 * k + 1) (by omega)
  rw [(entering_even mets cmetric small).1, (entering_even mets cmetric small).2] at best₀ second₀
  rw [(entering_odd mets cmetric small).1, (entering_odd mets cmetric small).2] at best₁ second₁
  have first := filled.select words pp inside best₀ second₀
  have both := first.select words (by rw [select_pp, pp, word]) (by rwa [word]) best₁ second₁
  rw [place, BitVec.shiftLeft_add, ← mask] at both
  simp only [Acs.butterfly, select_mask, select_pp]
  have shifted : a.mask <<< 2 = 1#w <<< (2 * k % w + 2) := by rw [mask, ← BitVec.shiftLeft_add]
  rcases next with ⟨full, last, up⟩ | ⟨more, room, same⟩
  · have wrapped : a.mask <<< 2 = 0 := by
      rw [shifted, last]
      exact BitVec.shiftLeft_eq_zero (Nat.le_refl w)
    rw [if_pos wrapped]
    refine ⟨⟨both.nmetric, both.size, both.decided, both.clear, both.below⟩, ?_, ?_⟩
    · simp only [pp, up, Nat.add_assoc]
    · rw [full, BitVec.shiftLeft_zero]
      rfl
  · have unwrapped : a.mask <<< 2 ≠ 0 := by
      rw [shifted]
      exact one_shift_ne_zero room
    rw [if_neg unwrapped]
    refine ⟨⟨both.nmetric, both.size, both.decided, both.clear, both.below⟩, ?_, ?_⟩
    · simp only [pp, same]
    · simp only [shifted, more]

variable (mettab : Nat → Nat → Int) (symbols : Nat → UInt8)

def best (t s : Nat) : Int := metric before (branch mettab symbols) started t s

def second (t s : Nat) : Bool := choice before (branch mettab symbols) started t s

structure Paths.Holds (size t : Nat) (v : Paths w) : Prop where
  cmetric : ∀ s < 64, v.cmetric s = best mettab symbols t s
  size : v.paths.size = size
  pp : v.pp = t * (64 / w)
  decided : ∀ t' < t, ∀ s < 64, test v.paths (t' * (64 / w)) s = second mettab symbols t' s
  clear : ∀ s, test v.paths v.pp s = false

include words in
theorem words_per_step : 64 % w = 0 ∧ ∀ s, (64 + s) / w = 64 / w + s / w ∧
    (64 + s) % w = s % w ∧ (s < 64 → s / w < 64 / w) := by
  rcases words with rfl | rfl <;> exact ⟨by decide, fun s => by omega⟩

/-- The add-compare-select loop of a step after `k` of its 32 rounds. -/
def Paths.rounds (t k : Nat) (v : Paths w) : Acs w :=
  loop k (Acs.butterfly (mets mettab (shift symbols (4 * t))) v.cmetric) ⟨v.cmetric, v.paths, v.pp, 1⟩

include words in
theorem Paths.Holds.rounds {size t : Nat} {v : Paths w} (holds : v.Holds mettab symbols size t)
    (room : (t + 1) * (64 / w) ≤ size) {k : Nat} (small : k ≤ 32) :
    (v.rounds mettab symbols t k).Stands v.pp v.paths (best mettab symbols (t + 1))
      (second mettab symbols t) k := by
  obtain ⟨cmetric, sized, pp, decided, clear⟩ := holds
  obtain ⟨whole, places⟩ := words_per_step words
  rw [Nat.succ_mul, ← pp, ← sized] at room
  have decides : Decides (mets mettab (shift symbols (4 * t))) v.cmetric
      (best mettab symbols (t + 1)) (second mettab symbols t) := by
    intro s small
    have enters (b : Bool) : entering (mets mettab (shift symbols (4 * t))) v.cmetric s b =
        best mettab symbols t (before s b) + branch mettab symbols t (before s b) s := by
      rw [entering, cmetric _ (before_lt small b), branch]
    rw [enters, enters]
    exact ⟨rfl, rfl⟩
  have start : Acs.Stands v.pp v.paths (best mettab symbols (t + 1)) (second mettab symbols t) 0
      ⟨v.cmetric, v.paths, v.pp, 1⟩ := by
    refine ⟨⟨fun s bound => absurd bound (by omega), rfl, fun s bound => absurd bound (by omega),
      fun s _ => clear s, fun _ _ _ => rfl⟩, ?_, ?_⟩
    · simp
    · simp
  refine loop_invariant (fun k a => Acs.Stands v.pp v.paths (best mettab symbols (t + 1))
    (second mettab symbols t) k a) start fun k bound a before => ?_
  have inside := (places (2 * k)).2.2 (by omega)
  exact before.butterfly words (by omega) decides (by omega)

include words in
theorem Paths.Holds.advance {size t : Nat} {v : Paths w} (holds : v.Holds mettab symbols size t)
    (room : (t + 1) * (64 / w) ≤ size) :
    (v.advance mettab symbols t).Holds mettab symbols size (t + 1) := by
  obtain ⟨filled, stop, mask⟩ := holds.rounds words mettab symbols room (Nat.le_refl 32)
  obtain ⟨-, sized, pp, decided, -⟩ := holds
  obtain ⟨whole, places⟩ := words_per_step words
  have done : ¬(v.rounds mettab symbols t 32).mask ≠ 1 := by
    rw [mask, whole, BitVec.shiftLeft_zero]
    exact fun apart => apart rfl
  have next : v.advance mettab symbols t = ⟨(v.rounds mettab symbols t 32).nmetric,
      (v.rounds mettab symbols t 32).paths, (v.rounds mettab symbols t 32).pp⟩ :=
    congrArg (Paths.mk _ _) (if_neg done)
  rw [next]
  refine ⟨filled.nmetric, filled.size.trans sized, ?_, fun t' earlier s small => ?_, fun s => ?_⟩
  · exact (stop.trans (by rw [pp])).trans (Nat.succ_mul ..).symm
  · rcases Nat.lt_succ_iff_lt_or_eq.mp earlier with old | rfl
    · have inside := (places s).2.2 small
      have gap : (t' + 1) * (64 / w) ≤ t * (64 / w) := Nat.mul_le_mul_right _ old
      rw [Nat.succ_mul] at gap
      rw [filled.below _ _ (by omega), decided t' old s small]
    · rw [← pp]
      exact filled.decided s small
  · have beyond := filled.clear (64 + s) (by omega)
    rwa [test, (places s).1, (places s).2.1, ← Nat.add_assoc, ← stop] at beyond

theorem paths_start (size : Nat) : Paths.Holds mettab symbols size 0
    (⟨store (fun _ => -999999) 0 0, Array.replicate size 0, 0⟩ : Paths w) := by
  refine ⟨fun s _ => ?_, by simp, by simp, fun t bound => absurd bound (by omega), fun s => ?_⟩
  · exact (store_apply (fun _ => -999999) 0 s 0).trans rfl
  · simp only [test, Array.getD_eq_getD_getElem?, Array.getElem?_replicate]
    split <;> simp

include words in
theorem paths_run (size n : Nat) (room : n * (64 / w) ≤ size) :
    Paths.Holds mettab symbols size n (loop n (Paths.advance mettab symbols)
      (⟨store (fun _ => -999999) 0 0, Array.replicate size 0, 0⟩ : Paths w)) := by
  refine loop_invariant (fun t v => Paths.Holds mettab symbols size t v)
    (paths_start mettab symbols size) fun t inside v holds => holds.advance words mettab symbols ?_
  exact Nat.le_trans (Nat.mul_le_mul_right _ inside) room

end Step

section ChainBack

/-- The preprocessor knows the width of `unsigned long`. -/
def Target.Native (T : Target) : Prop := T.longbits = T.width

theorem Target.Native.places {T : Target} (native : T.Native) :
    (T.width = 32 ∨ T.width = 64) ∧ T.d = 64 / T.width ∧ ∀ s, s >>> T.loglongbits = s / T.width ∧
      s &&& (T.longbits - 1) = s % T.width := by
  cases T with
  | lp64 => exact absurd native (show ¬(32 = 64) by decide)
  | x86_64 =>
    refine ⟨.inr rfl, rfl, fun s => ⟨Nat.shiftRight_eq_div_pow s 6, ?_⟩⟩
    exact Nat.and_two_pow_sub_one_eq_mod s 6
  | ilp32 =>
    refine ⟨.inl rfl, rfl, fun s => ⟨Nat.shiftRight_eq_div_pow s 5, ?_⟩⟩
    exact Nat.and_two_pow_sub_one_eq_mod s 5

theorem chain_step {s : Nat} (small : s < 64) :
    (s ||| 1 <<< 6) >>> 1 = before s true ∧ s >>> 1 = before s false := by
  have or : ∀ s < 64, (s ||| 1 <<< 6) = s + 64 := by decide
  rw [or s small, Nat.shiftRight_eq_div_pow, Nat.shiftRight_eq_div_pow, before, before]
  simp only [Bool.false_eq_true, if_true, if_false]
  omega

/-- The walk that survives in register 0 after `n` steps. -/
def surviving (mettab : Nat → Nat → Int) (symbols : Nat → UInt8) (n : Nat) : Nat → Nat :=
  survivor before (branch mettab symbols) started n 0

theorem surviving_lt (mettab : Nat → Nat → Int) (symbols : Nat → UInt8) (n t : Nat) :
    surviving mettab symbols n t < 64 := by
  have general : ∀ n s, s < 64 → survivor before (branch mettab symbols) started n s t < 64 := by
    intro n
    induction n with
    | zero => exact fun s small => small
    | succ n ih =>
      intro s small
      rw [survivor]
      dsimp only
      split
      · exact ih _ (before_lt small _)
      · exact small
  exact general n 0 (by decide)

theorem surviving_before (mettab : Nat → Nat → Int) (symbols : Nat → UInt8) {n t : Nat}
    (inside : t < n) : surviving mettab symbols n t =
      before (surviving mettab symbols n (t + 1))
        (second mettab symbols t (surviving mettab symbols n (t + 1))) :=
  survivor_pred before (branch mettab symbols) started n 0 inside

/-- Reading the choices backwards follows the surviving walk. -/
theorem chainBack_survivor {T : Target} (native : T.Native) {mettab : Nat → Nat → Int}
    {symbols : Nat → UInt8} {n : Nat} {v : Paths T.width}
    (holds : v.Holds mettab symbols (n * T.d) n) (i : Nat) (inside : i + 6 ≤ n)
    (data : Nat → UInt8) :
    ∃ data', chainBack T v.paths i ((i + 6) * T.d) (surviving mettab symbols n (i + 6)) data =
        some data' ∧ ∀ j, data' j = if j < i ∧
          second mettab symbols (j + 6) (surviving mettab symbols n (j + 7)) = true
        then 1 else data j := by
  obtain ⟨words, d, places⟩ := native.places
  obtain ⟨-, steps⟩ := words_per_step words
  induction i generalizing data with
  | zero => exact ⟨data, rfl, fun j => by simp⟩
  | succ i ih =>
    have small := surviving_lt mettab symbols n (i + 7)
    have row := (steps (surviving mettab symbols n (i + 7))).2.2 small
    have room : (i + 7) * T.d ≤ n * T.d := Nat.mul_le_mul_right _ (by omega)
    have pp : (i + 7) * T.d = (i + 6) * T.d + T.d := Nat.succ_mul ..
    have size := holds.size
    have address : (i + 6) * T.d + surviving mettab symbols n (i + 7) / T.width < v.paths.size := by
      omega
    have bit := holds.decided (i + 6) (by omega) _ small
    rw [← d, test, Array.getD_eq_getD_getElem?, Array.getElem?_eq_getElem address,
      Option.getD_some] at bit
    have place := Nat.mod_lt (surviving mettab symbols n (i + 7)) (show 0 < T.width by omega)
    have previous := surviving_before mettab symbols (show i + 6 < n by omega)
    rw [chainBack, show i + 1 + 6 = i + 7 by omega, if_pos (by omega)]
    simp only [pp, Nat.add_sub_cancel, (places _).1, (places _).2, Array.getElem?_eq_getElem address,
      Option.bind_some, and_one_shift _ place, bit, (chain_step small).1, (chain_step small).2]
    by_cases chosen : second mettab symbols (i + 6) (surviving mettab symbols n (i + 7)) = true
    · rw [chosen] at previous
      obtain ⟨data', run, read⟩ := ih (by omega) (store data i 1)
      refine ⟨data', ?_, fun j => ?_⟩
      · rw [if_pos chosen, ← previous, run]
      · rw [read, store_apply]
        grind
    · rw [Bool.not_eq_true] at chosen
      rw [chosen] at previous
      obtain ⟨data', run, read⟩ := ih (by omega) data
      refine ⟨data', ?_, fun j => ?_⟩
      · rw [chosen, if_neg (by decide), ← previous, run]
      · rw [read]
        grind

end ChainBack

end OpenDab
