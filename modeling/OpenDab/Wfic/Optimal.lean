import OpenDab.Wfic.Decoder

/-! The decoder returns a message whose codeword has the largest metric, as long as the
metrics are narrow enough for the penalty on the other starting states. -/
namespace OpenDab

open Buffers Trellis

def pathMetric (mettab : Nat → Nat → Int) (symbols c : Nat → UInt8) : Nat → Int
  | 0 => 0
  | n + 1 => pathMetric mettab symbols c n + mettab (c n).toNat (symbols n).toNat

/-- The metrics of the symbols of the first six steps lie between `lo` and `hi`: behind these the
decoder has left the state that it started in. -/
def Bounded (mettab : Nat → Nat → Int) (symbols : Nat → UInt8) (lo hi : Int) : Prop :=
  ∀ b < 2, ∀ p < 24, lo ≤ mettab b (symbols p).toNat ∧ mettab b (symbols p).toNat ≤ hi

theorem syms_bits : ∀ i < 128, ∀ j < 4,
    syms i >>> (4 - j - 1) &&& 1 = (parity (i &&& polys j)).toNat := by
  decide +kernel

theorem mets_window (mettab : Nat → Nat → Int) (symbols : Nat → UInt8) {i : Nat} (small : i < 128) :
    mets mettab symbols (syms i) =
      mettab (parity (i &&& polys 0)).toNat (symbols 0).toNat +
        mettab (parity (i &&& polys 1)).toNat (symbols 1).toNat +
        mettab (parity (i &&& polys 2)).toNat (symbols 2).toNat +
        mettab (parity (i &&& polys 3)).toNat (symbols 3).toNat := by
  have bits := syms_bits i small
  simp only [mets, loop_succ, loop_zero, bits 0 (by decide), bits 1 (by decide), bits 2 (by decide),
    bits 3 (by decide), Int.zero_add]

section Messages

variable (mettab : Nat → Nat → Int) (symbols : Nat → UInt8) (x : Nat → Bool)

theorem register_next (t : Nat) : register x (t + 1) = (2 * register x t + (x t).toNat) % 64 := rfl

theorem window_edge (t : Nat) : 2 * register x t + register x (t + 1) % 2 = window x t := by
  have bit := (x t).toNat_le
  rw [register_next, window]
  omega

theorem register_walk (n : Nat) : Walk before n (register x) := by
  intro t _
  have small := register_lt x t
  have bit := (x t).toNat_le
  refine ⟨decide (32 ≤ register x t), ?_⟩
  rw [before, register_next]
  by_cases top : 32 ≤ register x t
  · simp only [top, decide_true, if_true]
    omega
  · simp only [top, decide_false, Bool.false_eq_true, if_false]
    omega

theorem branch_register (t : Nat) :
    pathMetric mettab symbols (codeword x) (4 * t) +
      branch mettab symbols t (register x t) (register x (t + 1)) =
    pathMetric mettab symbols (codeword x) (4 * (t + 1)) := by
  have bit (j : Nat) (low : j < 4) : codeword x (4 * t + j) = parity (window x t &&& polys j) := by
    have place : (4 * t + j) / 4 = t ∧ (4 * t + j) % 4 = j := by omega
    rw [codeword, place.1, place.2]
  have four : pathMetric mettab symbols (codeword x) (4 * (t + 1)) =
      pathMetric mettab symbols (codeword x) (4 * t) +
        mettab (codeword x (4 * t + 0)).toNat (symbols (4 * t + 0)).toNat +
        mettab (codeword x (4 * t + 1)).toNat (symbols (4 * t + 1)).toNat +
        mettab (codeword x (4 * t + 2)).toNat (symbols (4 * t + 2)).toNat +
        mettab (codeword x (4 * t + 3)).toNat (symbols (4 * t + 3)).toNat := rfl
  rw [four, bit 0 (by decide), bit 1 (by decide), bit 2 (by decide), bit 3 (by decide), branch,
    window_edge, mets_window mettab _ (window_lt x t)]
  simp only [shift_apply]
  omega

/-- The score of a message's walk is the metric of its codeword. -/
theorem score_register (n : Nat) : score (branch mettab symbols) started (register x) n =
    pathMetric mettab symbols (codeword x) (4 * n) := by
  induction n with
  | zero => rfl
  | succ n ih => rw [score, ih, branch_register]

theorem shift_bit {k : Nat} (low : k < 5) (r b : Nat) (bit : b ≤ 1) :
    (2 * r + b) % 64 / 2 ^ (k + 1) % 2 = r / 2 ^ k % 2 := by
  have cases : k = 0 ∨ k = 1 ∨ k = 2 ∨ k = 3 ∨ k = 4 := by omega
  rcases cases with rfl | rfl | rfl | rfl | rfl <;> omega

/-- Bit `k` of the register is the input `k + 1` steps ago. -/
theorem register_bit (t : Nat) {k : Nat} (low : k < 6) :
    register x (t + k + 1) / 2 ^ k % 2 = (x t).toNat := by
  induction k with
  | zero =>
    have bit := (x t).toNat_le
    rw [Nat.add_zero, register_next]
    omega
  | succ k ih =>
    rw [register_next, shift_bit (by omega) _ _ (x _).toNat_le]
    exact ih (by omega)

/-- A number is divisible by `2 ^ n` if its low bits are zero. -/
theorem low_bits_zero {r n : Nat} (zero : ∀ k < n, r / 2 ^ k % 2 = 0) : r % 2 ^ n = 0 := by
  induction n with
  | zero => exact Nat.mod_one r
  | succ n ih =>
    rw [Nat.mod_pow_succ, ih fun k low => zero k (by omega), zero n (by omega), Nat.mul_zero]

theorem register_tail {n : Nat} (tail : ∀ t, n ≤ t → t < n + 6 → x t = false) :
    register x (n + 6) = 0 := by
  have zero (k : Nat) (low : k < 6) : register x (n + 6) / 2 ^ k % 2 = 0 := by
    have bit := register_bit x (n + (5 - k)) low
    rw [show n + (5 - k) + k + 1 = n + 6 by omega, tail _ (by omega) (by omega)] at bit
    exact bit
  rw [← Nat.mod_eq_of_lt (register_lt x (n + 6))]
  exact low_bits_zero zero

theorem tail_of_register {n : Nat} (empty : register x (n + 6) = 0) {t : Nat} (late : n ≤ t)
    (early : t < n + 6) : x t = false := by
  have bit := register_bit x t (show n + 5 - t < 6 by omega)
  rw [show t + (n + 5 - t) + 1 = n + 6 by omega, empty, Nat.zero_div] at bit
  cases input : x t with
  | false => rfl
  | true => simp [input] at bit

/-- The oldest bit of the register is the input six steps ago. -/
theorem register_oldest (t : Nat) : register x (t + 6) / 32 = (x t).toNat := by
  have bit := register_bit x t (show 5 < 6 by decide)
  have small := register_lt x (t + 6)
  rw [show t + 5 + 1 = t + 6 by omega] at bit
  omega

end Messages

section Inputs

variable {p : Nat → Nat} {n : Nat}

def inputs (p : Nat → Nat) (n t : Nat) : Bool := decide (t < n) && decide (p (t + 1) % 2 = 1)

theorem walk_next (walk : Walk before n p) (small : ∀ t, p t < 64) {t : Nat} (inside : t < n) :
    p (t + 1) = (2 * p t + (inputs p n t).toNat) % 64 := by
  obtain ⟨second, edge⟩ := walk t inside
  have here := small (t + 1)
  unfold before at edge
  by_cases odd : p (t + 1) % 2 = 1
  · have input : inputs p n t = true := by simp [inputs, inside, odd]
    rw [input, Bool.toNat_true]
    split at edge <;> omega
  · have input : inputs p n t = false := by simp [inputs, odd]
    rw [input, Bool.toNat_false]
    split at edge <;> omega

theorem register_inputs (walk : Walk before n p) (small : ∀ t, p t < 64) (start : p 0 = 0) {t : Nat}
    (inside : t ≤ n) : register (inputs p n) t = p t := by
  induction t with
  | zero => exact start.symm
  | succ t ih => rw [register_next, ih (by omega), walk_next walk small inside]

/-- The inputs forget where the walk started after six steps. -/
theorem register_merges (walk : Walk before n p) (small : ∀ t, p t < 64) {t : Nat} (inside : t ≤ n) :
    register (inputs p n) t % 2 ^ min t 6 = p t % 2 ^ min t 6 := by
  induction t with
  | zero => exact (Nat.mod_one _).trans (Nat.mod_one _).symm
  | succ t ih =>
    have same := ih (by omega)
    have bit := (inputs p n t).toNat_le
    rw [register_next, walk_next walk small inside]
    by_cases late : 6 ≤ t
    · rw [Nat.min_eq_right late] at same
      rw [Nat.min_eq_right (by omega)]
      omega
    · rw [Nat.min_eq_left (by omega)] at same ⊢
      have cases : t = 0 ∨ t = 1 ∨ t = 2 ∨ t = 3 ∨ t = 4 ∨ t = 5 := by omega
      rcases cases with rfl | rfl | rfl | rfl | rfl | rfl <;> omega

theorem register_late (walk : Walk before n p) (small : ∀ t, p t < 64) {t : Nat} (late : 6 ≤ t)
    (inside : t ≤ n) : register (inputs p n) t = p t := by
  have same := register_merges walk small inside
  have first := register_lt (inputs p n) t
  have second := small t
  rw [Nat.min_eq_right late] at same
  omega

end Inputs

section Best

variable {mettab : Nat → Nat → Int} {symbols : Nat → UInt8} {lo hi : Int}
  (bounded : Bounded mettab symbols lo hi) (narrow : 24 * (hi - lo) < 999999)

include bounded in
theorem branch_bounds {t : Nat} (early : t < 6) (s s' : Nat) :
    4 * lo ≤ branch mettab symbols t s s' ∧ branch mettab symbols t s s' ≤ 4 * hi := by
  have entry (i : Nat) {j : Nat} (low : j < 4) : lo ≤ mettab (i &&& 1) (shift symbols (4 * t) j).toNat ∧
      mettab (i &&& 1) (shift symbols (4 * t) j).toNat ≤ hi := by
    apply bounded
    · rw [Nat.and_one_is_mod]
      omega
    · omega
  have e0 := entry (syms (2 * s + s' % 2) >>> (4 - 0 - 1)) (show 0 < 4 by decide)
  have e1 := entry (syms (2 * s + s' % 2) >>> (4 - 1 - 1)) (show 1 < 4 by decide)
  have e2 := entry (syms (2 * s + s' % 2) >>> (4 - 2 - 1)) (show 2 < 4 by decide)
  have e3 := entry (syms (2 * s + s' % 2) >>> (4 - 3 - 1)) (show 3 < 4 by decide)
  simp only [branch, mets, loop_succ, loop_zero]
  omega

theorem surviving_walk (mettab : Nat → Nat → Int) (symbols : Nat → UInt8) (n : Nat) :
    Walk before n (surviving mettab symbols n) :=
  survivor_walk before (branch mettab symbols) started n 0

theorem surviving_end (mettab : Nat → Nat → Int) (symbols : Nat → UInt8) (n : Nat) :
    surviving mettab symbols n n = 0 :=
  survivor_last before (branch mettab symbols) started n 0

include bounded narrow in
/-- The walk that survives started in register 0. -/
theorem surviving_start {n : Nat} (long : 6 ≤ n) : surviving mettab symbols n 0 = 0 := by
  by_contra other
  have walk := surviving_walk mettab symbols n
  have small := surviving_lt mettab symbols n
  have merge : ∀ t, 6 ≤ t → t ≤ n →
      register (inputs (surviving mettab symbols n) n) t = surviving mettab symbols n t :=
    fun t late inside => register_late walk small late inside
  have best := survivor_best before (branch mettab symbols) started
    (register_walk (inputs (surviving mettab symbols n) n) n)
  rw [merge n long (Nat.le_refl n), surviving_end] at best
  change score _ _ _ n ≤ score _ _ (surviving mettab symbols n) n at best
  have tail := score_merge (branch mettab symbols) started long merge
  have bounds : ∀ t < 6, ∀ s s', 4 * lo ≤ branch mettab symbols t s s' ∧
      branch mettab symbols t s s' ≤ 4 * hi := fun t early => branch_bounds bounded early
  have low := (score_bounds (branch mettab symbols) started bounds
    (register (inputs (surviving mettab symbols n) n))).1
  have high := (score_bounds (branch mettab symbols) started bounds (surviving mettab symbols n)).2
  have zero : started (register (inputs (surviving mettab symbols n) n) 0) = 0 := rfl
  have penalty : started (surviving mettab symbols n 0) = -999999 := if_neg other
  omega

def decoded (mettab : Nat → Nat → Int) (symbols : Nat → UInt8) (nbits : Nat) : Nat → Bool :=
  inputs (surviving mettab symbols (nbits + 6)) (nbits + 6)

include bounded narrow in
theorem register_decoded {nbits t : Nat} (inside : t ≤ nbits + 6) :
    register (decoded mettab symbols nbits) t = surviving mettab symbols (nbits + 6) t :=
  register_inputs (surviving_walk mettab symbols _) (surviving_lt mettab symbols _)
    (surviving_start bounded narrow (by omega)) inside

include bounded narrow in
theorem decoded_tail {nbits t : Nat} (late : nbits ≤ t) : decoded mettab symbols nbits t = false := by
  by_cases inside : t < nbits + 6
  · refine tail_of_register _ ?_ late inside
    rw [register_decoded bounded narrow (Nat.le_refl _), surviving_end]
  · simp [decoded, inputs, inside]

include bounded narrow in
/-- The choice read at step `i + 6` is input `i`. -/
theorem second_decoded {nbits i : Nat} (inside : i < nbits) :
    second mettab symbols (i + 6) (surviving mettab symbols (nbits + 6) (i + 7)) =
      decoded mettab symbols nbits i := by
  have edge := surviving_before mettab symbols (show i + 6 < nbits + 6 by omega)
  have oldest := register_oldest (decoded mettab symbols nbits) i
  have small := surviving_lt mettab symbols (nbits + 6) (i + 7)
  rw [register_decoded bounded narrow (by omega), edge] at oldest
  change before (surviving mettab symbols (nbits + 6) (i + 7)) (second mettab symbols (i + 6)
    (surviving mettab symbols (nbits + 6) (i + 7))) / 32 = _ at oldest
  rw [before] at oldest
  generalize second mettab symbols (i + 6) (surviving mettab symbols (nbits + 6) (i + 7)) = b at *
  generalize decoded mettab symbols nbits i = c at *
  cases b <;> cases c <;>
    simp only [Bool.false_eq_true, if_true, if_false, Bool.toNat_true, Bool.toNat_false] at oldest <;>
    first | rfl | omega

include bounded narrow in
/-- No message has a codeword of a larger metric. -/
theorem decoded_best (nbits : Nat) {x : Nat → Bool} (ends : ∀ t, nbits ≤ t → x t = false) :
    pathMetric mettab symbols (codeword x) (4 * (nbits + 6)) ≤
      pathMetric mettab symbols (codeword (decoded mettab symbols nbits)) (4 * (nbits + 6)) := by
  have best := survivor_best before (branch mettab symbols) started (register_walk x (nbits + 6))
  rw [register_tail x fun t late _ => ends t late] at best
  change score _ _ _ (nbits + 6) ≤ score _ _ (surviving mettab symbols (nbits + 6)) _ at best
  have same : score (branch mettab symbols) started (surviving mettab symbols (nbits + 6)) (nbits + 6) =
      score (branch mettab symbols) started (register (decoded mettab symbols nbits)) (nbits + 6) :=
    score_congr _ _ fun t inside => (register_decoded bounded narrow inside).symm
  rwa [same, score_register, score_register] at best

include bounded narrow in
/-- The decoder returns that message and the metric of its codeword. -/
theorem kViterbi_decoded {T : Target} (native : T.Native) (nbits : Nat) (data : Nat → UInt8) :
    ∃ r, kViterbi T data symbols nbits mettab 0 0 = some r ∧
      (∀ i, r.data i =
        if i < nbits then if decoded mettab symbols nbits i then 1 else 0 else data i) ∧
      (r.metric : Int) = pathMetric mettab symbols (codeword (decoded mettab symbols nbits))
        (4 * (nbits + 6)) % 2 ^ 32 := by
  obtain ⟨words, d, -⟩ := native.places
  have holds := paths_run words mettab symbols ((nbits + 6) * T.d) (nbits + 6) (by rw [d])
  have pp := holds.pp
  rw [← d] at pp
  obtain ⟨data', run, read⟩ := chainBack_survivor native holds nbits (Nat.le_refl _)
    fun i => if i < nbits then 0 else data i
  rw [surviving_end] at run
  have returned : kViterbi T data symbols nbits mettab 0 0 = some ⟨((loop (nbits + 6)
      (Paths.advance mettab symbols) (⟨store (fun _ => -999999) 0 0,
        Array.replicate ((nbits + 6) * T.d) 0, 0⟩ : Paths T.width)).cmetric 0 % 2 ^ 32).toNat,
      data'⟩ := by
    unfold kViterbi
    simp only [Nat.zero_div, Nat.zero_mul]
    rw [pp, run]
    rfl
  refine ⟨_, returned, fun i => ?_, ?_⟩
  · dsimp only
    rw [read]
    by_cases inside : i < nbits
    · rw [second_decoded bounded narrow inside]
      simp [inside]
    · simp [inside]
  · have top := survivor_score before (branch mettab symbols) started (nbits + 6) 0
    have same : score (branch mettab symbols) started (surviving mettab symbols (nbits + 6)) (nbits + 6) =
        score (branch mettab symbols) started (register (decoded mettab symbols nbits)) (nbits + 6) :=
      score_congr _ _ fun t inside => (register_decoded bounded narrow inside).symm
    change score _ _ (surviving mettab symbols (nbits + 6)) _ = best mettab symbols _ _ at top
    rw [same, score_register] at top
    dsimp only
    rw [holds.cmetric 0 (by decide), top, Int.toNat_of_nonneg (Int.emod_nonneg _ (by decide))]

end Best

end OpenDab
