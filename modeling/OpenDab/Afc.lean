import OpenDab.Library.Steps
import OpenDab.Rounding
import Mathlib.Tactic.Linarith

/-! Automatic frequency control, in exact arithmetic. The offset is an integrator; the value for
the DAC is cut off at the upper end of its range and masked to sixteen bits. -/
namespace OpenDab

structure AfcCall where
  tvSec : Int
  tvNsec : Int
  afcv : ℚ

structure AfcState where
  offset : ℚ
  lmsec : Int

def AfcState.initial : AfcState := ⟨325 / 1000, 0⟩

def AfcCall.cmsec (c : AfcCall) : Int := c.tvSec.tmod 1000000 * 1000 + c.tvNsec.tdiv 1000000

/-- There must be at least 250ms between AFC messages. -/
def AfcState.Due (st : AfcState) (c : AfcCall) : Prop :=
  250 < c.cmsec - st.lmsec ∧ (75 < c.afcv ∨ c.afcv < -75)

instance (st : AfcState) (c : AfcCall) : Decidable (st.Due c) :=
  inferInstanceAs (Decidable (_ ∧ _))

/-- The new offset: a large error is corrected in proportion, a small one step by step. -/
def afcOffset (offset afcv : ℚ) : ℚ :=
  if 350 < afcv ∨ afcv < -350 then
    let a := afcv * (-22 / 1000000)
    a + offset
  else
    let a : ℚ := 1 / 4096
    let a := if 0 < afcv then -a else a
    offset + a

def afcVal (i : Int) : BitVec 16 :=
  let i := if 0xffff < i then 0xffff else i
  (BitVec.ofInt 32 i &&& 0xfffc#32).setWidth 16

def wfAfc (st : AfcState) (c : AfcCall) : Option (AfcState × Option (BitVec 16)) :=
  if st.Due c then do
    let a := afcOffset st.offset c.afcv
    let i ← toInt (a * 65535)
    return (⟨a, c.cmsec⟩, some (afcVal i))
  else some ({ st with lmsec := c.cmsec }, none)

/-- A sequence of calls, with what each of them has written and the offset it was written for. -/
structure AfcRun where
  st : AfcState
  written : List (ℚ × BitVec 16)

def AfcRun.step (r : AfcRun) (c : AfcCall) : Option AfcRun := do
  let (st, value) ← wfAfc r.st c
  return ⟨st, r.written ++ (value.map (st.offset, ·)).toList⟩

def afcRun (calls : List AfcCall) : Option AfcRun :=
  calls.foldlM AfcRun.step ⟨AfcState.initial, []⟩

theorem afcRun_push (calls : List AfcCall) (c : AfcCall) :
    afcRun (calls ++ [c]) = (afcRun calls).bind (·.step c) := by
  simp [afcRun, List.foldlM_append]

/-- The value that belongs to an offset: limited to the range of the DAC, without the two lowest
bits. -/
def dacValue (offset : ℚ) : Int := min (max (trunc (65535 * offset)) 0) 65535 / 4 * 4

/-- A lower offset never has a higher value. -/
theorem dacValue_mono {offset offset' : ℚ} (le : offset ≤ offset') :
    dacValue offset ≤ dacValue offset' := by
  have scaled : 65535 * offset ≤ 65535 * offset' := by linarith
  have lower := trunc_mono scaled
  unfold dacValue
  omega

def afcCorrection (afcv : ℚ) : ℚ :=
  if 350 < |afcv| then -(22 / 1000000) * afcv else if 0 < afcv then -(1 / 4096) else 1 / 4096

theorem afcOffset_eq (offset afcv : ℚ) : afcOffset offset afcv = offset + afcCorrection afcv := by
  have large : 350 < |afcv| ↔ 350 < afcv ∨ afcv < -350 := by rw [lt_abs, lt_neg]
  unfold afcOffset afcCorrection
  simp only [large]
  split
  · ring
  · split <;> rfl

theorem and_fffc (x : Nat) : x &&& 0xfffc = x % 65536 / 4 * 4 := by
  have mask : 0xfffc = (2 ^ 14 - 1) <<< 2 := by decide
  have value : x % 65536 / 4 * 4 = ((x % 2 ^ 16) >>> 2) <<< 2 := by
    rw [Nat.shiftLeft_eq, Nat.shiftRight_eq_div_pow]
    rfl
  rw [mask, value]
  refine Nat.eq_of_testBit_eq fun j => ?_
  rw [Nat.testBit_and, Nat.testBit_shiftLeft, Nat.testBit_shiftLeft, Nat.testBit_two_pow_sub_one,
    Nat.testBit_shiftRight, Nat.testBit_mod_two_pow]
  by_cases high : 2 ≤ j
  · have place : 2 + (j - 2) = j := by omega
    have inside : j - 2 < 14 ↔ j < 16 := by omega
    simp [high, place, inside, Bool.and_comm]
  · simp [high]

theorem afcVal_eq (i : Int) : ((afcVal i).toNat : Int) = min i 0xffff % 65536 / 4 * 4 := by
  have limited : (if 0xffff < i then 0xffff else i) = min i 0xffff := by
    rw [min_comm, min_def]
    split <;> split <;> omega
  have bits (x : Int) : ((x % 4294967296).toNat : Int) = x % 4294967296 := by omega
  unfold afcVal
  simp only [limited, BitVec.toNat_setWidth, BitVec.toNat_and, BitVec.toNat_ofInt]
  change ((((min i 0xffff % 4294967296).toNat &&& 0xfffc) % 65536 : Nat) : Int) = _
  rw [and_fffc]
  generalize min i 0xffff = m
  omega

/-- An offset is not negative, or so far below that the masked value is zero again, and not so far
off that the conversion is undefined. -/
def DacFits (offset : ℚ) : Prop :=
  trunc (65535 * offset) ≤ 0x7fffffff ∧
    (0 ≤ trunc (65535 * offset) ∨
      -0x80000000 ≤ trunc (65535 * offset) ∧ trunc (65535 * offset) % 65536 < 4)

theorem dacFits_iff (offset : ℚ) :
    (∃ i, toInt (offset * 65535) = some i ∧ ((afcVal i).toNat : Int) = dacValue offset) ↔
      DacFits offset := by
  rw [mul_comm offset, toInt, dacValue, DacFits]
  generalize trunc (65535 * offset) = t
  split
  · next inside =>
    simp only [Option.some.injEq, exists_eq_left', afcVal_eq]
    omega
  · next outside =>
    simp only [reduceCtorEq, false_and, exists_false, false_iff]
    omega

def AfcRun.Saturated (r : AfcRun) : Prop := ∀ w ∈ r.written, (w.2.toNat : Int) = dacValue w.1

/-- What one call does: nothing but keep the time, or write the value for the new offset. -/
theorem AfcRun.step_eq_some_iff {r r' : AfcRun} {c : AfcCall} :
    r.step c = some r' ↔
      (¬r.st.Due c ∧ r' = ⟨{ r.st with lmsec := c.cmsec }, r.written⟩) ∨
      (r.st.Due c ∧ ∃ i, toInt (afcOffset r.st.offset c.afcv * 65535) = some i ∧
        r' = ⟨⟨afcOffset r.st.offset c.afcv, c.cmsec⟩,
          r.written ++ [(afcOffset r.st.offset c.afcv, afcVal i)]⟩) := by
  by_cases due : r.st.Due c
  · cases value : toInt (afcOffset r.st.offset c.afcv * 65535) with
    | none => simp [AfcRun.step, wfAfc, due, value]
    | some i => simp [AfcRun.step, wfAfc, due, value, eq_comm]
  · simp [AfcRun.step, wfAfc, due, eq_comm]

theorem AfcRun.step_written {r r' : AfcRun} {c : AfcCall} (step : r.step c = some r') :
    r.written <+: r'.written := by
  rcases AfcRun.step_eq_some_iff.mp step with ⟨-, rfl⟩ | ⟨-, i, -, rfl⟩
  · exact List.prefix_rfl
  · exact List.prefix_append _ _

/-- One call goes right unless it is due and its offset does not fit. -/
theorem AfcRun.step_saturated_iff {r : AfcRun} (before : r.Saturated) (c : AfcCall) :
    (∃ r', r.step c = some r' ∧ r'.Saturated) ↔
      (r.st.Due c → DacFits (r.st.offset + afcCorrection c.afcv)) := by
  rw [← afcOffset_eq, ← dacFits_iff]
  by_cases due : r.st.Due c
  · simp only [due, true_implies, AfcRun.step_eq_some_iff, not_true_eq_false, false_and, false_or,
      true_and]
    constructor
    · rintro ⟨r', ⟨i, value, rfl⟩, after⟩
      exact ⟨i, value, after (_, afcVal i) (List.mem_append_right _ (List.mem_singleton_self _))⟩
    · rintro ⟨i, value, right⟩
      refine ⟨_, ⟨i, value, rfl⟩, List.forall_mem_append.mpr ⟨before, ?_⟩⟩
      simpa using right
  · simp only [due, false_implies, iff_true]
    exact ⟨_, AfcRun.step_eq_some_iff.mpr (.inl ⟨due, rfl⟩), before⟩

structure AfcSaturates (calls : List AfcCall) : Prop where
  values : ∃ r, afcRun calls = some r ∧ r.Saturated
  ordered : ∀ r, afcRun calls = some r → ∀ w ∈ r.written, ∀ w' ∈ r.written, w.1 ≤ w'.1 →
    w.2.toNat ≤ w'.2.toNat

def OffsetsFit (calls : List AfcCall) : Prop :=
  ∀ earlier c, earlier ++ [c] <+: calls → ∀ r, afcRun earlier = some r → r.st.Due c →
    DacFits (r.st.offset + afcCorrection c.afcv)

theorem saturated_run_iff (calls : List AfcCall) :
    (∃ r, afcRun calls = some r ∧ r.Saturated) ↔ OffsetsFit calls := by
  induction calls using List.reverseRecOn with
  | nil => exact iff_of_true ⟨_, rfl, fun w member => by cases member⟩ Steps.forall_nil
  | append_singleton calls c ih =>
    rw [OffsetsFit, Steps.forall_push, ← OffsetsFit, ← ih, afcRun_push]
    constructor
    · rintro ⟨r', run, after⟩
      obtain ⟨r, run, step⟩ := Option.bind_eq_some_iff.mp run
      have before : r.Saturated := fun w member => after w ((AfcRun.step_written step).subset member)
      refine ⟨⟨r, run, before⟩, fun other same => ?_⟩
      obtain rfl : r = other := Option.some.inj (run.symm.trans same)
      exact (AfcRun.step_saturated_iff before c).mp ⟨r', step, after⟩
    · rintro ⟨⟨r, run, before⟩, last⟩
      rw [run, Option.bind_some, AfcRun.step_saturated_iff before]
      exact last r run

/-- The output saturates exactly when every offset that is sent fits: there is no lower limit. -/
theorem afc_saturates_iff (calls : List AfcCall) : AfcSaturates calls ↔ OffsetsFit calls := by
  rw [← saturated_run_iff]
  constructor
  · exact fun saturates => saturates.values
  · rintro ⟨r, run, saturated⟩
    refine ⟨⟨r, run, saturated⟩, fun other same w member w' member' le => ?_⟩
    obtain rfl : r = other := Option.some.inj (run.symm.trans same)
    have lower := dacValue_mono le
    rw [← saturated w member, ← saturated w' member'] at lower
    exact Int.ofNat_le.mp lower

/-- One large error before the lock: the offset becomes negative, and its sixteen bits a large
value. -/
theorem negative_offset_wraps :
    |(⟨1, 0, 20000⟩ : AfcCall).afcv| ≤ 1024000 ∧ ¬AfcSaturates [⟨1, 0, 20000⟩] := by
  refine ⟨by norm_num, fun saturates => ?_⟩
  have due : AfcState.initial.Due ⟨1, 0, 20000⟩ := ⟨by decide, by norm_num⟩
  have offset : (AfcState.initial.offset + afcCorrection 20000 : ℚ) = -115 / 1000 := by
    norm_num [AfcState.initial, afcCorrection]
  have below : trunc (65535 * (-115 / 1000)) = -7536 := by
    rw [trunc, if_neg (by norm_num), Int.ceil_eq_iff]
    norm_num
  have fits := (saturated_run_iff _).mp saturates.values [] ⟨1, 0, 20000⟩ List.prefix_rfl _ rfl due
  rw [offset, DacFits, below] at fits
  omega

end OpenDab
