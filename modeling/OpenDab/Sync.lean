import OpenDab.AfcPacing
import OpenDab.Raverage
import OpenDab.Spectrum
import OpenDab.Wfimp
import OpenDab.Wfpk
import OpenDab.Wfusb

/-! One call of `wf_sync` for a phase reference symbol, in exact arithmetic: it measures the offset of
the carriers and the position of the impulse, decides whether the receiver is in step, and sends the
corrections. What `wfimp` returns and what an undefined conversion in `wf_afc` gives is left open. -/
namespace OpenDab

open Buffers

structure Timespec where
  tvSec : Int
  tvNsec : Int

def Timespec.ms (tp : Timespec) : Int := tp.tvSec.tmod 1000000 * 1000 + tp.tvNsec.tdiv 1000000

def outreg0 : UInt16 := 0xc01e

def dacvalue : UInt16 := 0x0366

structure SyncState where
  syncLocked : Bool
  lckcnt : Nat
  lms : Int
  average : Average
  afc : AfcState

def SyncState.initial : SyncState := ⟨false, 3, 0, Average.initial, AfcState.initial⟩

/-- What a call gets: the symbol, the symbol selection, and the readings of the clock in `wf_sync` and
in `wf_afc`. -/
structure SyncCall where
  prsb : Nat → UInt8
  selstr : Nat → UInt8
  tp : Timespec
  tpAfc : Timespec

structure SyncOutcome where
  c : ℚ
  ir : ℚ
  afcv : ℚ
  sent : List ControlMsg

/-- `do … while ((1000*stf) > 2.5e-2)`; `none` if that takes more than `n` rounds. -/
def Refinement.search (imp : ℚ → ℚ) : Nat → Refinement → Option Refinement
  | 0, _ => none
  | n + 1, s =>
    let s := s.round imp
    if 1000 * s.stf > 2.5e-2 then s.search imp n else some s

section Calls

variable (tools : Instruments ℚ) (imp : (Nat → ℚ × ℚ) → ℚ → ℚ)

/-- The offset of the carriers in units of `c`: from the window with the largest sum if the receiver
is in step, else from the shift that matches best. -/
def carrierOffset (syncLocked : Bool) (prsb : Nat → UInt8) : Int :=
  if syncLocked then
    let magdata := magnitudes tools syncLocked (receivedPoints tools prsb) 0
    let n := (wfpk magdata (maxext magdata prsPoints).2).tdiv 15
    if n > 12 then -80 else if n < -12 then 80 else -n
  else signedIndex (coarseSearch tools syncLocked prsb).2

def impulsePosition (syncLocked : Bool) (prsb : Nat → UInt8) : Option ℚ := do
  let indxv := signedIndex (coarseSearch tools syncLocked prsb).2
  let response := impulseResponse tools prsb indxv
  let magdata := mag tools.sqrt prsPoints response.2
  let found := maxext magdata prsPoints
  let max := if 14 * meanMag magdata prsPoints > found.1 then 0 else found.1
  let s ← Refinement.search (imp response.1) 64 ⟨startPosition found.2, max, 0.666666666, []⟩
  return s.ir * 1000

def Near (c ir : ℚ) : Prop := |c| < 2.4609375e-4 / 2 ∧ |ir| < 350

instance (c ir : ℚ) : Decidable (Near c ir) := inferInstanceAs (Decidable (_ ∧ _))

/-- `sync_locked` and `lckcnt`: a symbol outside the limits starts the countdown again. -/
def lockStep (c ir : ℚ) (lckcnt : Nat) : Bool × Nat :=
  if Near c ir then if lckcnt = 0 then (true, lckcnt) else (false, lckcnt - 1) else (false, 3)

def outputValue (i : Int) : UInt16 :=
  let i := i + 0x7f
  let cv : UInt16 := if i > 0 then if UInt16.ofInt i > 0xff then 0xff else UInt16.ofInt i else 0
  0x1000 ||| cv

def imsg : List UInt8 :=
  [0x7f, 0x00, 0xff, 0xff, 0xff, 0xff, 0xff, 0xff, 0xff, 0xff, 0xff, 0xff, 0x00, 0x00, 0x00, 0x00,
    0x00, 0x00, 0x00, 0x00, 0x00, 0x00, 0x00, 0xff, 0x00, 0x00, 0x00, 0x00, 0x00, 0x00, 0x0f, 0x00]

def timingBytes (selstr : Nat → UInt8) (w1 w2 : UInt16) : List UInt8 :=
  let m := copy (ofList imsg fun _ => 0) 2 selstr 10
  let m := store m 24 (lowByte w1)
  let m := store m 25 (highByte w1)
  let m := store m 26 (lowByte w2)
  let m := store m 27 (highByte w2)
  cells m 0 32

variable (convert : ℚ → Int)

/-- `none` for a conversion that is undefined, or where `raverage` is. -/
def wfSync (s : SyncState) (p : SyncCall) : Option (SyncState × SyncOutcome) := do
  let c : ℚ := 4.8828125e-7 * carrierOffset tools s.syncLocked p.prsb
  let ir ← impulsePosition tools imp s.syncLocked p.prsb
  let (syncLocked, lckcnt) := lockStep c ir s.lckcnt
  let i ← toInt (c * -8192000)
  let ems := p.tp.ms
  let dt := ems - s.lms
  let output := if dt > 60 ∧ i ≠ 0 then [wfMemWrite outreg0 (outputValue i)] else []
  let (average, afcv) ← raverage s.average ir
  let (afc, value) := wfAfcWith convert s.afc ⟨p.tpAfc.tvSec, p.tpAfc.tvNsec, afcv⟩
  let dac := value.toList.map fun v => wfMemWrite dacvalue (UInt16.ofBitVec v)
  let w1 ← toInt (afcv * 81.66400146484375)
  let w2 ← toInt (afcv * 1.024)
  let timing := wfTimingMsg (timingBytes p.selstr (UInt16.ofInt w1) (UInt16.ofInt w2))
  return (⟨syncLocked, lckcnt, ems, average, afc⟩, ⟨c, ir, afcv, output ++ dac ++ [timing]⟩)

def syncRun (calls : List SyncCall) : Option (SyncState × List (SyncCall × SyncOutcome)) :=
  calls.foldlM (fun r p => (wfSync tools imp convert r.1 p).map fun (s, o) => (s, r.2 ++ [(p, o)]))
    (SyncState.initial, [])

end Calls

theorem refinePosition_stf (imp : ℚ → ℚ) (max : ℚ) (indx n : Nat) :
    (refinePosition imp max indx n).stf = 0.666666666 / 2 ^ n := by
  induction n with
  | zero => norm_num [refinePosition]
  | succ n ih =>
    rw [refinePosition] at ih ⊢
    rw [loop_succ, Refinement.round, (Refinement.attempt_cases imp _ _).2.1,
      (Refinement.attempt_cases imp _ _).2.1, ih, pow_succ, div_div]

/-- The step is fine enough after 15 rounds. -/
theorem search_rounds (imp : ℚ → ℚ) (max : ℚ) (indx : Nat) {k fuel : Nat} (before : k < 15)
    (enough : 15 - k ≤ fuel) : Refinement.search imp fuel (refinePosition imp max indx k) =
      some (refinePosition imp max indx 15) := by
  obtain ⟨left, few⟩ : ∃ left, left = 14 - k := ⟨_, rfl⟩
  have round (j : Nat) : (refinePosition imp max indx j).round imp = refinePosition imp max indx (j + 1) := by
    rw [refinePosition, refinePosition, loop_succ]
  induction left generalizing k fuel with
  | zero =>
    obtain rfl : k = 14 := by omega
    obtain ⟨n, rfl⟩ : ∃ n, fuel = n + 1 := ⟨fuel - 1, by omega⟩
    have fine : ¬1000 * (refinePosition imp max indx 15).stf > 2.5e-2 := by
      rw [refinePosition_stf]
      norm_num
    rw [Refinement.search, round]
    exact if_neg fine
  | succ left ih =>
    obtain ⟨n, rfl⟩ : ∃ n, fuel = n + 1 := ⟨fuel - 1, by omega⟩
    have coarse : 1000 * (refinePosition imp max indx (k + 1)).stf > 2.5e-2 := by
      have power : (2 : ℚ) ^ (k + 1) ≤ 2 ^ 14 := pow_le_pow_right₀ (by norm_num) (by omega)
      have positive : (0 : ℚ) < 2 ^ (k + 1) := by positivity
      rw [refinePosition_stf, gt_iff_lt, ← mul_div_assoc, lt_div_iff₀ positive]
      linarith
    rw [Refinement.search, round]
    exact (if_pos coarse).trans (ih (by omega) (by omega) (by omega))

section Bounds

variable (tools : Instruments ℚ) (imp : (Nat → ℚ × ℚ) → ℚ → ℚ)

theorem carrierOffset_bounds (syncLocked : Bool) (prsb : Nat → UInt8) :
    -1023 ≤ carrierOffset tools syncLocked prsb ∧ carrierOffset tools syncLocked prsb ≤ 1024 ∧
      (syncLocked = true → |carrierOffset tools syncLocked prsb| ≤ 80) := by
  unfold carrierOffset
  cases syncLocked with
  | false =>
    have inside := coarseSearch_index tools false prsb
    simp only [Bool.false_eq_true, if_false, signedIndex]
    split
    · exact ⟨by omega, by omega, nofun⟩
    · exact ⟨by omega, by omega, nofun⟩
  | true =>
    simp only [if_true, abs_le]
    generalize (wfpk _ _).tdiv 15 = n
    split
    · omega
    · split <;> omega

theorem startPosition_bound {indx : Nat} (small : indx < 0x800) : |startPosition indx| ≤ 1024 := by
  have bound : (indx : ℚ) ≤ 2047 := by exact_mod_cast Nat.le_of_lt_succ small
  rw [startPosition, abs_le]
  split
  · next late =>
    have above : (0x400 : ℚ) ≤ indx := by exact_mod_cast late
    constructor <;> linarith
  · next early =>
    have below : (indx : ℚ) ≤ 0x400 := by exact_mod_cast (Nat.lt_of_not_ge early).le
    have positive : (0 : ℚ) ≤ indx := Nat.cast_nonneg indx
    constructor <;> linarith

/-- The refinement ends, within one sample of where it has started. -/
theorem impulsePosition_some (syncLocked : Bool) (prsb : Nat → UInt8) :
    ∃ ir, impulsePosition tools imp syncLocked prsb = some ir ∧ |ir| ≤ 1025000 := by
  obtain ⟨response, same⟩ : ∃ response, response = impulseResponse tools prsb
      (signedIndex (coarseSearch tools syncLocked prsb).2) := ⟨_, rfl⟩
  obtain ⟨magdata, values⟩ : ∃ magdata, magdata = mag tools.sqrt prsPoints response.2 := ⟨_, rfl⟩
  obtain ⟨indx, place⟩ : ∃ indx, indx = (maxext magdata prsPoints).2 := ⟨_, rfl⟩
  obtain ⟨max, standing⟩ : ∃ max, max = if 14 * meanMag magdata prsPoints >
      (maxext magdata prsPoints).1 then 0 else (maxext magdata prsPoints).1 := ⟨_, rfl⟩
  have small : indx < 0x800 := place ▸ (maxext_first magdata (show 0 < prsPoints by decide)).2.inside
  have found : Refinement.search (imp response.1) 64 (refinePosition (imp response.1) max indx 0) =
      some (refinePosition (imp response.1) max indx 15) := search_rounds _ _ _ (by decide) (by decide)
  refine ⟨(refinePosition (imp response.1) max indx 15).ir * 1000, ?_, ?_⟩
  · unfold impulsePosition
    dsimp only
    rw [← same, ← values, ← place, ← standing]
    exact congrArg (Option.bind · _) found
  · have near := refinePosition_near (imp response.1) max indx 15
    have step := near.positive
    obtain ⟨low, high⟩ := abs_le.mp near.ir
    obtain ⟨first, last⟩ := abs_le.mp (startPosition_bound small)
    rw [abs_le]
    constructor <;> linarith

end Bounds

theorem toInt_some {q : ℚ} (small : |q| ≤ 0x7fffffff) : toInt q = some (trunc q) := by
  obtain ⟨low, high⟩ := abs_le.mp small
  have lower : -0x7fffffff ≤ trunc q := by
    rw [← trunc_intCast (-0x7fffffff)]
    apply trunc_mono
    exact_mod_cast low
  have upper : trunc q ≤ 0x7fffffff := by
    rw [← trunc_intCast 0x7fffffff]
    apply trunc_mono
    exact_mod_cast high
  rw [toInt, if_pos ⟨by omega, upper⟩]

theorem abs_mean_le {l : List ℚ} {b : ℚ} (nonneg : 0 ≤ b) (small : ∀ x ∈ l, |x| ≤ b) : |mean l| ≤ b := by
  have sum : |l.sum| ≤ b * l.length := by
    induction l with
    | nil => simp
    | cons x l ih =>
      obtain ⟨first, rest⟩ := List.forall_mem_cons.mp small
      have tail := ih rest
      have both := abs_add_le x l.sum
      rw [List.sum_cons, List.length_cons, Nat.cast_succ]
      linarith
  rw [mean, abs_div, Nat.abs_cast]
  exact div_le_of_le_mul₀ (Nat.cast_nonneg _) nonneg sum

/-- The word for an offset is cut off at both ends of a byte. -/
theorem outputValue_eq {i : Int} (low : -0x7fff ≤ i) (high : i < 0x7fff) :
    (outputValue i).toNat = 0x1000 + (min (max (i + 0x7f) 0) 0xff).toNat := by
  have byte (n : Nat) (small : n < 256) : (0x1000 ||| UInt16.ofNat n).toNat = 0x1000 + n := by
    have apart := Nat.two_pow_add_eq_or_of_lt (i := 12) (b := n) (by omega) 1
    rw [UInt16.toNat_or, UInt16.toNat_ofNat', Nat.mod_eq_of_lt (by omega)]
    exact apart.symm
  unfold outputValue
  dsimp only
  split
  · next positive =>
    obtain ⟨n, value⟩ : ∃ n : Nat, i + 0x7f = n := ⟨(i + 0x7f).toNat, by omega⟩
    have small : n < 65536 := by omega
    have large : UInt16.ofNat n > 0xff ↔ 0xff < n := by
      rw [gt_iff_lt, UInt16.lt_iff_toNat_lt, UInt16.toNat_ofNat', Nat.mod_eq_of_lt small]
      rfl
    have converted : UInt16.ofInt (n : Int) = UInt16.ofNat n := by
      have rest : ((n : Int) % 2 ^ 16).toNat = n := by omega
      rw [UInt16.ofInt, rest]
    rw [value, converted]
    split
    · next above =>
      have more := large.mp above
      have place : (min (max (n : Int) 0) 0xff).toNat = 255 := by omega
      rw [place]
      rfl
    · next below =>
      have less : n ≤ 0xff := Nat.le_of_not_lt fun more => below (large.mpr more)
      rw [byte n (by omega)]
      omega
  · next negative =>
    have place : (min (max (i + 0x7f) 0) 0xff).toNat = 0 := by omega
    rw [place]
    rfl

/-! The run of the calls. -/

def streak (log : List (SyncCall × SyncOutcome)) : Nat :=
  (log.rtakeWhile fun e => decide (Near e.2.c e.2.ir)).length

theorem streak_push (log : List (SyncCall × SyncOutcome)) (p : SyncCall) (o : SyncOutcome) :
    streak (log ++ [(p, o)]) = if Near o.c o.ir then streak log + 1 else 0 := by
  rw [streak, List.rtakeWhile_concat]
  by_cases near : Near o.c o.ir
  · simp [near, streak]
  · simp [near]

/-- The countdown is what is missing to three calls. -/
theorem lockStep_streak (c ir : ℚ) (n : Nat) : lockStep c ir (3 - n) =
    (decide (4 ≤ if Near c ir then n + 1 else 0), 3 - if Near c ir then n + 1 else 0) := by
  rw [lockStep]
  by_cases near : Near c ir
  · rw [if_pos near, if_pos near]
    split
    · rw [decide_eq_true (by omega)]
      exact Prod.ext rfl (by dsimp only; omega)
    · rw [decide_eq_false (by omega)]
      exact Prod.ext rfl (by dsimp only; omega)
  · rw [if_neg near, if_neg near]
    rfl

def lastTime (tp : SyncCall → Timespec) (log : List (SyncCall × SyncOutcome)) : Int :=
  (log.getLast?.map fun e => (tp e.1).ms).getD 0

section Run

variable (tools : Instruments ℚ) (imp : (Nat → ℚ × ℚ) → ℚ → ℚ) (convert : ℚ → Int)

/-- What a call measures, after some others. -/
structure Measured (earlier : List (SyncCall × SyncOutcome)) (p : SyncCall) (o : SyncOutcome) : Prop where
  c : o.c = carrierOffset tools (decide (4 ≤ streak earlier)) p.prsb / 2048000
  ir : impulsePosition tools imp (decide (4 ≤ streak earlier)) p.prsb = some o.ir
  bound : |o.ir| ≤ 1025000

/-- What a call sends, after some others: at most one word for the carriers, at most one for the
oscillator, and always the symbol selection with the position. -/
structure Reported (earlier : List (SyncCall × SyncOutcome)) (p : SyncCall) (o : SyncOutcome) : Prop where
  average : ∃ start, LastRestart ((earlier ++ [(p, o)]).map (·.2.afcv)) earlier.length start ∧
    o.afcv = mean ((earlier.map (·.2.ir) ++ [o.ir]).rtake (min 8 (earlier.length - start + 1)))
  sent : ∃ carriers oscillator, o.sent = carriers ++ oscillator ++ [wfTimingMsg ([0x7f, 0] ++
      cells p.selstr 0 10 ++ List.replicate 11 0 ++
      let w1 := UInt16.ofInt (trunc (o.afcv * 81.66400146484375))
      let w2 := UInt16.ofInt (trunc (o.afcv * 1.024))
      [0xff, lowByte w1, highByte w1, lowByte w2, highByte w2, 0, 0, 0x0f, 0])] ∧
    (if 60 < p.tp.ms - lastTime (·.tp) earlier ∧
        carrierOffset tools (decide (4 ≤ streak earlier)) p.prsb ≠ 0 then
      ∃ v, carriers = [wfMemWrite outreg0 v] ∧ v.toNat = 0x1000 +
        (min (max (-4 * carrierOffset tools (decide (4 ≤ streak earlier)) p.prsb + 0x7f) 0) 0xff).toNat
      else carriers = []) ∧
    (if 250 < p.tpAfc.ms - lastTime (·.tpAfc) earlier ∧ 75 < |o.afcv| then
      ∃ v, oscillator = [wfMemWrite dacvalue v] else oscillator = [])

structure SyncState.After (log : List (SyncCall × SyncOutcome)) (s : SyncState) : Prop where
  locked : s.syncLocked = decide (4 ≤ streak log)
  lckcnt : s.lckcnt = 3 - streak log
  lms : s.lms = lastTime (·.tp) log
  lmsec : s.afc.lmsec = lastTime (·.tpAfc) log
  average : AverageRun.Follows (log.map (·.2.ir)) ⟨s.average, log.map (·.2.afcv)⟩
  bounded : ∀ e ∈ log, |e.2.ir| ≤ 1025000

theorem SyncState.after_initial : SyncState.initial.After [] := by
  refine ⟨rfl, rfl, rfl, rfl, ⟨rfl, fun n bound => absurd bound (Nat.not_lt_zero n), 0, ?_, ?_⟩, nofun⟩
  · exact ⟨le_refl _, .inl rfl, fun m later upTo => absurd later (Nat.not_lt.mpr upTo)⟩
  · apply Average.holds_nil
    · rfl
    · rfl

/-- The word for the oscillator is sent when it is due. -/
theorem wfAfcWith_sent (st : AfcState) (call : AfcCall) :
    (wfAfcWith convert st call).1.lmsec = call.cmsec ∧
      if 250 < call.cmsec - st.lmsec ∧ 75 < |call.afcv| then
        ∃ v, (wfAfcWith convert st call).2 = some v
      else (wfAfcWith convert st call).2 = none := by
  have due_iff : (250 < call.cmsec - st.lmsec ∧ 75 < |call.afcv|) ↔ st.Due call := by
    rw [lt_abs, lt_neg]
    rfl
  unfold wfAfcWith
  by_cases due : st.Due call
  · rw [if_pos due, if_pos (due_iff.mpr due)]
    exact ⟨rfl, _, rfl⟩
  · rw [if_neg due, if_neg (due_iff.not.mpr due)]
    exact ⟨rfl, rfl⟩

/-- The average stays within the bounds of the positions. -/
theorem average_next {irs afcvs : List ℚ} {average : Average} {b : ℚ}
    (follows : AverageRun.Follows irs ⟨average, afcvs⟩) (nonneg : 0 ≤ b) (bounded : ∀ x ∈ irs, |x| ≤ b)
    {ir : ℚ} (bound : |ir| ≤ b) : ∃ average' afcv, raverage average ir = some (average', afcv) ∧
      AverageRun.Follows (irs ++ [ir]) ⟨average', afcvs ++ [afcv]⟩ ∧ |afcv| ≤ b ∧
      ∃ start, LastRestart (afcvs ++ [afcv]) irs.length start ∧
        afcv = mean ((irs ++ [ir]).rtake (min 8 (irs.length - start + 1))) := by
  obtain ⟨r, called, next⟩ := follows.step ir
  obtain ⟨⟨average', afcv⟩, averaged, rfl⟩ := Option.map_eq_some_iff.mp called
  dsimp only at next averaged
  obtain ⟨start, last, value⟩ := next.means irs.length (by simp)
  have result : afcv = mean ((irs ++ [ir]).rtake (min 8 (irs.length - start + 1))) := by
    have newest : (afcvs ++ [afcv])[irs.length]? = some afcv := by
      rw [← follows.length, List.getElem?_concat_length]
    have all : (irs ++ [ir]).take (irs.length + 1) = irs ++ [ir] := List.take_of_length_le (by simp)
    rw [all] at value
    exact Option.some.inj (newest.symm.trans value)
  refine ⟨average', afcv, averaged, next, ?_, start, last, result⟩
  rw [result]
  refine abs_mean_le nonneg fun x member => ?_
  rcases List.mem_append.mp (List.mem_of_mem_drop member) with old | new
  · exact bounded x old
  · rwa [List.mem_singleton.mp new]

/-- A call with everything it computes. -/
theorem wfSync_eq {s : SyncState} {p : SyncCall} {ir afcv : ℚ} {average : Average}
    (position : impulsePosition tools imp s.syncLocked p.prsb = some ir)
    (averaged : raverage s.average ir = some (average, afcv)) (small : |afcv| ≤ 1025000) :
    let k := carrierOffset tools s.syncLocked p.prsb
    let lock := lockStep (k / 2048000) ir s.lckcnt
    let afc := wfAfcWith convert s.afc ⟨p.tpAfc.tvSec, p.tpAfc.tvNsec, afcv⟩
    wfSync tools imp convert s p = some (⟨lock.1, lock.2, p.tp.ms, average, afc.1⟩,
      ⟨k / 2048000, ir, afcv,
        (if p.tp.ms - s.lms > 60 ∧ -4 * k ≠ 0 then [wfMemWrite outreg0 (outputValue (-4 * k))] else []) ++
          (afc.2.toList.map fun v => wfMemWrite dacvalue (UInt16.ofBitVec v)) ++
          [wfTimingMsg (timingBytes p.selstr (UInt16.ofInt (trunc (afcv * 81.66400146484375)))
            (UInt16.ofInt (trunc (afcv * 1.024))))]⟩) := by
  obtain ⟨low, high, -⟩ := carrierOffset_bounds tools s.syncLocked p.prsb
  obtain ⟨k, offset⟩ : ∃ k, k = carrierOffset tools s.syncLocked p.prsb := ⟨_, rfl⟩
  rw [← offset] at low high ⊢
  have scaled : (4.8828125e-7 : ℚ) * k = k / 2048000 := by
    rw [div_eq_mul_inv, mul_comm]
    norm_num
  have steps : toInt ((k : ℚ) / 2048000 * -8192000) = some (-4 * k) := by
    have whole : (k : ℚ) / 2048000 * -8192000 = ((-4 * k : Int) : ℚ) := by
      push_cast
      ring
    have size : |((-4 * k : Int) : ℚ)| ≤ 0x7fffffff := by
      rw [abs_le]
      constructor
      · exact_mod_cast (by omega : -0x7fffffff ≤ -4 * k)
      · exact_mod_cast (by omega : -4 * k ≤ 0x7fffffff)
    rw [whole, toInt_some size, trunc_intCast]
  have word {f : ℚ} (nonneg : 0 ≤ f) (limit : f ≤ 100) : toInt (afcv * f) = some (trunc (afcv * f)) := by
    refine toInt_some ?_
    rw [abs_mul, abs_of_nonneg nonneg]
    calc |afcv| * f ≤ 1025000 * 100 := mul_le_mul small limit nonneg (by norm_num)
      _ ≤ 0x7fffffff := by norm_num
  have first := word (f := 81.66400146484375) (by norm_num) (by norm_num)
  have second := word (f := 1.024) (by norm_num) (by norm_num)
  unfold wfSync
  rw [position, ← offset, scaled]
  simp only [Option.bind_eq_bind, Option.bind_some, steps, averaged, first, second]
  rfl

theorem SyncState.After.step {log : List (SyncCall × SyncOutcome)} {s : SyncState} (after : s.After log)
    (p : SyncCall) : ∃ s' o, wfSync tools imp convert s p = some (s', o) ∧
      Measured tools imp log p o ∧ Reported tools log p o ∧ s'.After (log ++ [(p, o)]) := by
  obtain ⟨locked, lckcnt, lms, lmsec, average, bounded⟩ := after
  obtain ⟨ir, position, bound⟩ := impulsePosition_some tools imp s.syncLocked p.prsb
  have irs : ∀ x ∈ log.map (·.2.ir), |x| ≤ 1025000 := List.forall_mem_map.mpr bounded
  obtain ⟨average', afcv, averaged, next, small, start, last, result⟩ :=
    average_next average (by norm_num) irs bound
  have call := wfSync_eq tools imp convert position averaged small
  obtain ⟨low, high, -⟩ := carrierOffset_bounds tools s.syncLocked p.prsb
  have afc := wfAfcWith_sent convert s.afc ⟨p.tpAfc.tvSec, p.tpAfc.tvNsec, afcv⟩
  rw [lmsec] at afc
  have lock := lockStep_streak (carrierOffset tools s.syncLocked p.prsb / 2048000) ir (streak log)
  rw [← lckcnt] at lock
  refine ⟨_, _, call, ⟨?_, ?_, bound⟩, ⟨⟨start, ?_, ?_⟩, ⟨_, _, rfl, ?_, ?_⟩⟩, ⟨?_, ?_, ?_, ?_, ?_, ?_⟩⟩
  · rw [locked]
  · rw [← locked]
    exact position
  · rw [List.length_map] at last
    rwa [List.map_append]
  · rw [List.length_map] at result
    exact result
  · rw [← locked, ← lms]
    by_cases due : 60 < p.tp.ms - s.lms ∧ carrierOffset tools s.syncLocked p.prsb ≠ 0
    · rw [if_pos due, if_pos ⟨due.1, by omega⟩]
      exact ⟨_, rfl, outputValue_eq (by omega) (by omega)⟩
    · rw [if_neg due, if_neg (fun both => due ⟨both.1, by omega⟩)]
  · by_cases due : 250 < p.tpAfc.ms - lastTime (·.tpAfc) log ∧ 75 < |afcv|
    · obtain ⟨v, value⟩ := (if_pos due).mp afc.2
      rw [if_pos due, value]
      exact ⟨_, rfl⟩
    · rw [if_neg due, (if_neg due).mp afc.2]
      rfl
  · rw [streak_push, lock]
  · rw [streak_push, lock]
  · rw [lastTime, List.getLast?_concat, Option.map_some, Option.getD_some]
  · rw [lastTime, List.getLast?_concat, Option.map_some, Option.getD_some]
    exact afc.1
  · rw [List.map_append, List.map_append]
    exact next
  · exact List.forall_mem_append.mpr ⟨bounded, List.forall_mem_singleton.mpr bound⟩

theorem syncRun_push (calls : List SyncCall) (p : SyncCall) :
    syncRun tools imp convert (calls ++ [p]) = (syncRun tools imp convert calls).bind fun r =>
      (wfSync tools imp convert r.1 p).map fun (s, o) => (s, r.2 ++ [(p, o)]) := by
  simp [syncRun, List.foldlM_append]

theorem syncRun_after (calls : List SyncCall) : ∃ s log,
    syncRun tools imp convert calls = some (s, log) ∧ log.map Prod.fst = calls ∧ s.After log ∧
      ∀ earlier e, earlier ++ [e] <+: log →
        Measured tools imp earlier e.1 e.2 ∧ Reported tools earlier e.1 e.2 := by
  induction calls using List.reverseRecOn with
  | nil => exact ⟨_, [], rfl, rfl, SyncState.after_initial, Steps.forall_nil⟩
  | append_singleton calls p ih =>
    obtain ⟨s, log, run, inputs, after, every⟩ := ih
    obtain ⟨s', o, call, measured, reported, next⟩ := after.step tools imp convert p
    refine ⟨s', log ++ [(p, o)], ?_, ?_, next, Steps.forall_push.mpr ⟨every, measured, reported⟩⟩
    · rw [syncRun_push, run, Option.bind_some, call, Option.map_some]
    · rw [List.map_append, inputs]
      rfl

/-- In step, the offset of the carriers is always within its limit. -/
theorem carriers_within {k : Int} (small : |k| ≤ 80) : |(k : ℚ) / 2048000| < 2.4609375e-4 / 2 := by
  have bound : |(k : ℚ)| ≤ 80 := by exact_mod_cast small
  rw [abs_div, abs_of_pos (by norm_num : (0 : ℚ) < 2048000), div_lt_iff₀ (by norm_num)]
  refine bound.trans_lt ?_
  norm_num

/-- Over any calls nothing is undefined, and the receiver is in step exactly when the last four calls
were all within the limits; in step, only the position can be outside them. -/
theorem sync_lock (calls : List SyncCall) : ∃ s log,
    syncRun tools imp convert calls = some (s, log) ∧ log.map Prod.fst = calls ∧
      (s.syncLocked = true ↔ 4 ≤ streak log) ∧
      ∀ earlier p o, earlier ++ [(p, o)] <+: log → Measured tools imp earlier p o ∧
        (4 ≤ streak earlier → (Near o.c o.ir ↔ |o.ir| < 350)) := by
  obtain ⟨s, log, run, inputs, after, every⟩ := syncRun_after tools imp convert calls
  refine ⟨s, log, run, inputs, ?_, fun earlier p o inside => ⟨(every earlier _ inside).1, ?_⟩⟩
  · rw [after.locked, decide_eq_true_eq]
  · intro locked
    have c : o.c = carrierOffset tools (decide (4 ≤ streak earlier)) p.prsb / 2048000 :=
      (every earlier _ inside).1.c
    have small := (carrierOffset_bounds tools (decide (4 ≤ streak earlier)) p.prsb).2.2
      (decide_eq_true locked)
    have within : |o.c| < 2.4609375e-4 / 2 := c ▸ carriers_within small
    exact and_iff_right within

/-- What every call of a run sends. -/
theorem sync_messages (calls : List SyncCall) : ∃ s log,
    syncRun tools imp convert calls = some (s, log) ∧ log.map Prod.fst = calls ∧
      ∀ earlier p o, earlier ++ [(p, o)] <+: log → Reported tools earlier p o := by
  obtain ⟨s, log, run, inputs, -, every⟩ := syncRun_after tools imp convert calls
  exact ⟨s, log, run, inputs, fun earlier p o inside => (every earlier _ inside).2⟩

end Run

end OpenDab
