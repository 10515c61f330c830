import OpenDab.Library.Buffers
import OpenDab.Library.Ring
import Mathlib.Algebra.BigOperators.Fin
import Mathlib.Algebra.BigOperators.Intervals
import Mathlib.Algebra.Order.Ring.Rat
import Mathlib.Data.List.DropRight
import Mathlib.Order.Interval.Finset.Nat
import Mathlib.Tactic.NormNum

/-! The average of the impulse position, in exact arithmetic. The eight samples are a ring that is
started again after a large result, with the old samples still in it. -/
namespace OpenDab

open Buffers

structure Average where
  prevIr : ℚ
  sa : Nat → ℚ
  j : Nat
  k : Nat

def Average.initial : Average := ⟨0, fun _ => 0, 0, 0⟩

def Average.restart (s : Average) : Average :=
  if |s.prevIr| > 350 then { s with k := 0, j := 0 } else s

/-- `sa[k++] = ir`, and round to the start of the ring. -/
def Average.push (ir : ℚ) (s : Average) : Average :=
  let sa := store s.sa s.k ir
  let k := s.k + 1
  if k = 8 then { s with sa := sa, k := 0, j := 1 } else { s with sa := sa, k := k }

def Average.d (s : Average) : Nat := if s.j ≠ 0 then 8 else s.k

/-- Keep the sample and return the mean; `none` for an index outside `sa` or a division by 0. -/
def Average.sample (ir : ℚ) (s : Average) : Option (Average × ℚ) :=
  if s.k < 8 then
    let s := s.push ir
    let t := if s.d > 0 then loop s.d (fun i t => t + s.sa i) (0 : ℚ) else 0
    if s.d = 0 then none
    else
      let prevIr := t / s.d
      some ({ s with prevIr := prevIr }, prevIr)
  else none

def raverage (s : Average) (ir : ℚ) : Option (Average × ℚ) := s.restart.sample ir

structure AverageRun where
  st : Average
  returned : List ℚ

def AverageRun.step (r : AverageRun) (ir : ℚ) : Option AverageRun :=
  (raverage r.st ir).map fun (st, result) => ⟨st, r.returned ++ [result]⟩

def averageRun (inputs : List ℚ) : Option AverageRun :=
  inputs.foldlM AverageRun.step ⟨Average.initial, []⟩

def mean (l : List ℚ) : ℚ := l.sum / l.length

/-- Call `n` starts again: it is the first one, or the result before it was large. -/
def Restarts (returned : List ℚ) (n : Nat) : Prop :=
  n = 0 ∨ ∃ result, returned[n - 1]? = some result ∧ 350 < |result|

structure LastRestart (returned : List ℚ) (n start : Nat) : Prop where
  before : start ≤ n
  restarts : Restarts returned start
  last : ∀ m, start < m → m ≤ n → ¬Restarts returned m

structure Average.Holds (history : List ℚ) (s : Average) : Prop where
  k : s.k = history.length % 8
  j : s.j = if 8 ≤ history.length then 1 else 0
  held : Ring.Held 1 8 history (fun slot _ => s.sa slot)

theorem loop_sum (f : Nat → ℚ) (n : Nat) :
    loop n (fun i t => t + f i) 0 = ∑ i ∈ Finset.range n, f i := by
  induction n with
  | zero => rfl
  | succ n ih => rw [loop_succ, ih, Finset.sum_range_succ]

/-- Once round the ring, from wherever. -/
theorem sum_ring (f : Nat → ℚ) (start m : Nat) :
    ∑ i ∈ Finset.range m, f ((start + i) % m) = ∑ i ∈ Finset.range m, f i := by
  conv_rhs => rw [← Nat.image_Ico_mod start m, Finset.sum_image (Nat.mod_injOn_Ico start m),
    Finset.sum_Ico_eq_sum_range, Nat.add_sub_cancel_left]

theorem sum_range_list {l : List ℚ} {n : Nat} (length : l.length = n) (f : Nat → ℚ)
    (cells : ∀ i (inside : i < l.length), l[i] = f i) : l.sum = ∑ i ∈ Finset.range n, f i := by
  subst length
  rw [← Fin.sum_univ_getElem, Finset.sum_range]
  exact Finset.sum_congr rfl fun i _ => cells i i.isLt

/-- The samples that are added are the last eight, or all of them. -/
theorem Average.Holds.sum {history : List ℚ} {s : Average} (holds : s.Holds history) :
    ∑ i ∈ Finset.range (min 8 history.length), s.sa i = (history.rtake 8).sum := by
  have held (i : Nat) (inside : i < history.length) (recent : history.length - 1 < i + 8) :
      s.sa (i % 8) = history[i] := by
    have stored := holds.held i inside (by simpa using recent)
    rwa [Nat.div_one] at stored
  have length : (history.rtake 8).length = min 8 history.length := by
    rw [List.rtake, List.length_drop]
    omega
  have cells : ∀ i (inside : i < (history.rtake 8).length),
      (history.rtake 8)[i] = s.sa ((history.length - 8 + i) % 8) := by
    intro i inside
    rw [length] at inside
    rw [held _ (by omega) (by omega)]
    exact List.getElem_drop ..
  rw [sum_range_list length (fun i => s.sa ((history.length - 8 + i) % 8)) cells]
  by_cases full : 8 ≤ history.length
  · rw [Nat.min_eq_left full, sum_ring]
  · refine Finset.sum_congr rfl fun i bound => congrArg s.sa ?_
    have inside := Finset.mem_range.mp bound
    omega

theorem Average.holds_nil (s : Average) (k : s.k = 0) (j : s.j = 0) : s.Holds [] :=
  ⟨k, by rw [j]; rfl, Ring.Held.nil _ _ _⟩

theorem Average.Holds.d {history : List ℚ} {s : Average} (holds : s.Holds history)
    (nonempty : history ≠ []) : s.d = min 8 history.length ∧ 0 < s.d := by
  have some := List.length_pos_iff.mpr nonempty
  rw [Average.d, holds.j, holds.k]
  split <;> split at * <;> omega

/-- The new sample takes the place of the oldest one. -/
theorem Average.Holds.push {history : List ℚ} {s : Average} (holds : s.Holds history) (ir : ℚ) :
    (s.push ir).Holds (history ++ [ir]) := by
  obtain ⟨k, j, held⟩ := holds
  have length : (history ++ [ir]).length = history.length + 1 := by simp
  have ring : Ring.Held 1 8 (history ++ [ir]) (fun slot _ => store s.sa s.k ir slot) := by
    refine held.push (by decide) ?_ fun slot place _ one apart => store_other _ _ fun same => apart ?_
    · rw [Nat.div_one, ← k]
      exact store_same ..
    · exact ⟨by rw [same, k, Nat.div_one], by omega⟩
  unfold Average.push
  dsimp only
  split
  · next last =>
    refine ⟨?_, ?_, ring⟩
    · rw [length]
      dsimp only
      omega
    · rw [length, if_pos (by omega)]
  · next inner =>
    refine ⟨?_, ?_, ring⟩
    · rw [length]
      dsimp only
      omega
    · rw [length]
      dsimp only
      rw [j]
      exact if_congr (by omega) rfl rfl

/-- One call on a ring with some samples: the mean of the last eight, the new one included. -/
theorem Average.Holds.sample {history : List ℚ} {s : Average} (holds : s.Holds history) (ir : ℚ) :
    ∃ s', s.sample ir = some (s', mean ((history ++ [ir]).rtake 8)) ∧ s'.Holds (history ++ [ir]) ∧
      s'.prevIr = mean ((history ++ [ir]).rtake 8) := by
  have slot : s.k < 8 := by
    rw [holds.k]
    omega
  have after := holds.push ir
  obtain ⟨d, positive⟩ := after.d (by simp)
  have average : loop (s.push ir).d (fun i t => t + (s.push ir).sa i) (0 : ℚ) / (s.push ir).d =
      mean ((history ++ [ir]).rtake 8) := by
    have length : ((history ++ [ir]).rtake 8).length = (s.push ir).d := by
      rw [d, List.rtake, List.length_drop]
      omega
    rw [mean, length, loop_sum, d, after.sum]
  refine ⟨{ s.push ir with prevIr := mean ((history ++ [ir]).rtake 8) }, ?_,
    ⟨after.k, after.j, after.held⟩, rfl⟩
  rw [Average.sample, if_pos slot]
  dsimp only
  rw [if_pos positive, if_neg positive.ne', average]

theorem restarts_push {returned : List ℚ} (result : ℚ) {n : Nat} (known : n ≤ returned.length) :
    Restarts (returned ++ [result]) n ↔ Restarts returned n := by
  unfold Restarts
  rcases Nat.eq_zero_or_pos n with rfl | positive
  · simp
  · rw [List.getElem?_append_left (by omega)]

theorem LastRestart.push {returned : List ℚ} {n start : Nat} (last : LastRestart returned n start)
    (result : ℚ) (known : n ≤ returned.length) : LastRestart (returned ++ [result]) n start := by
  obtain ⟨before, restarts, later⟩ := last
  refine ⟨before, (restarts_push result (by omega)).mpr restarts, fun m after upTo => ?_⟩
  rw [restarts_push result (by omega)]
  exact later m after upTo

/-- The samples since the start are the last ones of all. -/
theorem rtake_since (inputs : List ℚ) (ir : ℚ) {start : Nat} (before : start ≤ inputs.length) :
    (inputs.drop start ++ [ir]).rtake 8 =
      (inputs ++ [ir]).rtake (min 8 (inputs.length - start + 1)) := by
  rw [← List.drop_append_of_le_length before, List.rtake, List.rtake, List.drop_drop,
    List.length_drop, List.length_append, List.length_singleton]
  exact congrArg (List.drop · _) (by omega)

structure AverageRun.Follows (inputs : List ℚ) (r : AverageRun) : Prop where
  length : r.returned.length = inputs.length
  means : ∀ n < inputs.length, ∃ start, LastRestart r.returned n start ∧
    r.returned[n]? = some (mean ((inputs.take (n + 1)).rtake (min 8 (n - start + 1))))
  current : ∃ start, LastRestart r.returned inputs.length start ∧
    r.st.restart.Holds (inputs.drop start)

theorem AverageRun.Follows.step {inputs : List ℚ} {r : AverageRun} (follows : r.Follows inputs)
    (ir : ℚ) : ∃ r', r.step ir = some r' ∧ r'.Follows (inputs ++ [ir]) := by
  obtain ⟨length, means, start, last, holds⟩ := follows
  obtain ⟨s', result, after, previous⟩ := holds.sample ir
  rw [rtake_since inputs ir last.before] at result previous
  generalize average : mean ((inputs ++ [ir]).rtake (min 8 (inputs.length - start + 1))) = y at *
  have size : (inputs ++ [ir]).length = inputs.length + 1 := by simp
  have newest : (r.returned ++ [y])[inputs.length]? = some y := by
    rw [← length, List.getElem?_concat_length]
  have known := last.push y length.ge
  refine ⟨⟨s', r.returned ++ [y]⟩, ?_, ?_, fun n bound => ?_, ?_⟩
  · rw [AverageRun.step, raverage, result]
    rfl
  · rw [List.length_append, List.length_append, length]
    rfl
  · rw [size] at bound
    rcases Nat.lt_succ_iff_lt_or_eq.mp bound with old | rfl
    · obtain ⟨start', before, value⟩ := means n old
      refine ⟨start', before.push y (by omega), ?_⟩
      rw [List.getElem?_append_left (by omega), value, List.take_append_of_le_length (by omega)]
    · refine ⟨start, known, ?_⟩
      rw [newest, ← size, List.take_length, average]
  · rw [size]
    by_cases large : 350 < |y|
    · refine ⟨inputs.length + 1, ⟨le_refl _, .inr ⟨y, newest, large⟩, fun m _ _ => by omega⟩, ?_⟩
      rw [← size, List.drop_length, Average.restart, previous, if_pos large]
      exact Average.holds_nil _ rfl rfl
    · have calm : ¬Restarts (r.returned ++ [y]) (inputs.length + 1) := by
        rintro (zero | ⟨result, found, more⟩)
        · omega
        · obtain rfl : y = result := Option.some.inj (newest.symm.trans found)
          exact large more
      refine ⟨start, ⟨by have := last.before; omega, known.restarts, fun m later upTo => ?_⟩, ?_⟩
      · rcases Nat.le_succ_iff.mp upTo with within | rfl
        · exact known.last m later within
        · exact calm
      · rw [Average.restart, previous, if_neg large,
          List.drop_append_of_le_length last.before]
        exact after

/-- Every call returns, and returns the mean of the last eight samples since the last start. -/
theorem raverage_mean (inputs : List ℚ) :
    ∃ r, averageRun inputs = some r ∧ r.returned.length = inputs.length ∧
      ∀ n < inputs.length, ∃ start, LastRestart r.returned n start ∧
        r.returned[n]? = some (mean ((inputs.take (n + 1)).rtake (min 8 (n - start + 1)))) := by
  have run : ∃ r, averageRun inputs = some r ∧ r.Follows inputs := by
    induction inputs using List.reverseRecOn with
    | nil =>
      refine ⟨_, rfl, rfl, fun n bound => absurd bound (Nat.not_lt_zero n), 0, ?_, ?_⟩
      · exact ⟨le_refl _, .inl rfl, fun m _ _ => by simp at *; omega⟩
      · rw [Average.restart, if_neg (by norm_num [Average.initial])]
        exact Average.holds_nil _ rfl rfl
    | append_singleton inputs ir ih =>
      obtain ⟨r, ran, follows⟩ := ih
      obtain ⟨r', step, next⟩ := follows.step ir
      refine ⟨r', ?_, next⟩
      rw [averageRun] at ran ⊢
      rw [List.foldlM_append, ran]
      simpa using step
  obtain ⟨r, ran, follows⟩ := run
  exact ⟨r, ran, follows.length, follows.means⟩

end OpenDab
