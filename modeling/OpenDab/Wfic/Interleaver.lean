import OpenDab.Library.Buffers
import Mathlib.Tactic.Common

/-! QPSK symbol mapping and frequency interleaving for transmission mode I. The
carrier order comes from a linear congruential sequence of full period, which is
what makes the interleaver a permutation of the 1536 carriers. -/
namespace OpenDab

open Buffers

def carriers : Nat := 1536

def qpskSymbolMapper (P q : Nat → UInt8) : Nat → UInt8 :=
  loop carriers (fun n q => store (store q (2 * n + 0) (P n)) (2 * n + 1) (P (n + carriers))) q

def qpskSymbolDemapper (q P : Nat → UInt8) : Nat → UInt8 :=
  loop carriers (fun n P => store (store P n (q (2 * n + 0))) (n + carriers) (q (2 * n + 1))) P

def ki : Nat → Nat
  | 0 => 0
  | i + 1 => (13 * ki i + 511) % 2048

def usable (v : Nat) : Prop := 256 ≤ v ∧ v ≤ 1792 ∧ v ≠ 1024

instance : DecidablePred usable := fun v => by unfold usable; infer_instance

/-- `init_table49`: the usable values of `KI` in order of appearance, with their number. -/
def initTable49 : Nat × (Nat → Int) :=
  loop 2048 (fun i (s : Nat × (Nat → Int)) =>
    if usable (ki i) then (s.1 + 1, store s.2 s.1 ((ki i : Int) - 1024)) else s) (0, fun _ => 0)

def table49 : Nat → Int := initTable49.2

/-- The index of a carrier number `-K/2 .. K/2` (without 0) among the `K` transmitted ones. -/
def carrier (k : Int) : Nat :=
  (if k < 0 then (carriers / 2 : Int) + k else if k > 0 then (carriers / 2 : Int) + k - 1 else k).toNat

def frequencyInterleaver (q y : Nat → UInt8) : Nat → UInt8 :=
  loop carriers (fun n y =>
    let k := carrier (table49 n)
    store (store y (2 * k + 0) (q (2 * n + 0))) (2 * k + 1) (q (2 * n + 1))) y

def frequencyDeinterleaver (y q : Nat → UInt8) : Nat → UInt8 :=
  loop carriers (fun n q =>
    let k := carrier (table49 n)
    store (store q (2 * n + 0) (y (2 * k + 0))) (2 * n + 1) (y (2 * k + 1))) q

theorem qpskSymbolMapper_apply (P q : Nat → UInt8) (a : Nat) :
    qpskSymbolMapper P q a =
      if a / 2 < 1536 then if a % 2 = 0 then P (a / 2) else P (a / 2 + 1536) else q a := by
  refine loop_owned (· / 2) (fun a => if a % 2 = 0 then P (a / 2) else P (a / 2 + 1536)) ?_ ?_ q a
  · rintro n _ m a rfl
    simp only [store_apply, carriers]
    split <;> split <;> first | rfl | omega | skip
    all_goals split <;> first | rfl | omega
  · intro n _ m a apart
    rw [store_other _ _ (by omega), store_other _ _ (by omega)]

theorem qpskSymbolDemapper_apply (q P : Nat → UInt8) (a : Nat) (bound : a < 3072) :
    qpskSymbolDemapper q P a = if a < 1536 then q (2 * a) else q (2 * (a - 1536) + 1) := by
  unfold qpskSymbolDemapper carriers
  split
  · next low =>
    refine loop_last_write low (fun m => ?_) (fun j lt hj m => ?_)
    · rw [store_other _ _ (by omega), store_same]
      rfl
    · rw [store_other _ _ (by omega), store_other _ _ (by omega)]
  · next high =>
    refine loop_last_write (show a - 1536 < 1536 by omega) (fun m => ?_) (fun j lt hj m => ?_)
    · rw [Nat.sub_add_cancel (by omega), store_same]
    · rw [store_other _ _ (by omega), store_other _ _ (by omega)]

theorem frequencyDeinterleaver_apply (y q : Nat → UInt8) (a : Nat) (bound : a < 3072) :
    frequencyDeinterleaver y q a = y (2 * carrier (table49 (a / 2)) + a % 2) := by
  unfold frequencyDeinterleaver carriers
  refine loop_last_write (show a / 2 < 1536 by omega) (fun m => ?_) (fun j lt hj m => ?_)
  · rcases Nat.mod_two_eq_zero_or_one a with even | odd
    · rw [store_other _ _ (by omega), store_apply, if_pos (by omega), even]
    · rw [store_apply, if_pos (by omega), odd]
  · rw [store_other _ _ (by omega), store_other _ _ (by omega)]

/-- The congruential step is injective on residues: 13 is invertible modulo 2048. -/
theorem ki_step_injective (a b : Nat) (ha : a < 2048) (hb : b < 2048)
    (same : (13 * a + 511) % 2048 = (13 * b + 511) % 2048) : a = b := by
  omega

theorem ki_lt (i : Nat) : ki i < 2048 := by
  cases i with
  | zero => decide
  | succ i => exact Nat.mod_lt _ (by decide)

/-- Equal values can be walked back to the start of the sequence. -/
theorem ki_return (i d : Nat) (same : ki i = ki (i + d)) : ki d = 0 := by
  induction i with
  | zero => simpa [ki] using same.symm
  | succ i ih =>
    apply ih
    rw [Nat.add_right_comm] at same
    exact ki_step_injective _ _ (ki_lt _) (ki_lt _) same

/-- `ki` run forward from a value, testing each one against 0. -/
def avoidsZero : Nat → Nat → Bool
  | 0, _ => true
  | n + 1, v => v != 0 && avoidsZero n ((13 * v + 511) % 2048)

theorem avoidsZero_ki (n i : Nat) (avoids : avoidsZero n (ki i) = true) (d : Nat) (bound : d < n) :
    ki (i + d) ≠ 0 := by
  induction n generalizing i d with
  | zero => omega
  | succ n ih =>
    simp only [avoidsZero, Bool.and_eq_true, bne_iff_ne] at avoids
    cases d with
    | zero => exact avoids.1
    | succ d =>
      have later := ih (i + 1) avoids.2 d (by omega)
      rwa [Nat.add_right_comm] at later

theorem ki_nonzero (d : Nat) (positive : 0 < d) (bound : d < 2048) : ki d ≠ 0 := by
  have run : avoidsZero 2047 511 = true := by decide +kernel
  have := avoidsZero_ki 2047 1 run (d - 1) (by omega)
  rwa [Nat.add_sub_cancel' positive] at this

theorem ki_injective (i j : Nat) (hi : i < 2048) (hj : j < 2048) (same : ki i = ki j) : i = j := by
  rcases Nat.lt_trichotomy i j with lt | eq | gt
  · have back := ki_return i (j - i) (by rwa [Nat.add_sub_cancel' (Nat.le_of_lt lt)])
    exact absurd back (ki_nonzero _ (by omega) (by omega))
  · exact eq
  · have back := ki_return j (i - j) (by rw [Nat.add_sub_cancel' (Nat.le_of_lt gt)]; exact same.symm)
    exact absurd back (ki_nonzero _ (by omega) (by omega))

def countUsable : Nat → Nat → Nat
  | 0, _ => 0
  | n + 1, v => (if usable v then 1 else 0) + countUsable n ((13 * v + 511) % 2048)

structure Collected (i : Nat) (s : Nat × (Nat → Int)) (origin : Nat → Nat) : Prop where
  entry : ∀ m < s.1, origin m < i ∧ usable (ki (origin m)) ∧ s.2 m = (ki (origin m) : Int) - 1024
  ordered : ∀ m m', m < m' → m' < s.1 → origin m < origin m'
  count : s.1 + countUsable (2048 - i) (ki i) = 1536

theorem initTable49_collected : ∃ origin, Collected 2048 initTable49 origin := by
  unfold initTable49
  apply loop_invariant (fun i s => ∃ origin, Collected i s origin)
  · have total : countUsable 2048 0 = 1536 := by decide +kernel
    refine ⟨id, ⟨fun m hm => by simp at hm, fun m m' _ hm => by simp at hm, ?_⟩⟩
    simpa only [ki, Nat.sub_zero, Nat.zero_add] using total
  · rintro i hi ⟨n, t⟩ ⟨origin, entry, ordered, count⟩
    have rest : 2048 - i = (2048 - (i + 1)) + 1 := by omega
    rw [rest, countUsable] at count
    by_cases use : usable (ki i)
    · rw [if_pos use]
      refine ⟨store origin n i, fun m hm => ?_, fun m m' lt hm => ?_, ?_⟩
      · by_cases last : m = n
        · subst last
          simp [use]
        · obtain ⟨before, good, value⟩ := entry m (by simp only at hm ⊢; omega)
          simp only [store_other _ _ last]
          exact ⟨by omega, good, value⟩
      · simp only at hm
        have inner : m ≠ n := by omega
        rw [store_other _ _ inner, store_apply]
        split
        · exact (entry m (by simp only; omega)).1
        · exact ordered m m' lt (by simp only; omega)
      · simp only [if_pos use] at count ⊢
        rw [← count]
        simp only [ki]
        omega
    · rw [if_neg use]
      refine ⟨origin, fun m hm => ?_, ordered, ?_⟩
      · obtain ⟨before, good, value⟩ := entry m hm
        exact ⟨by omega, good, value⟩
      · simpa only [if_neg use, Nat.zero_add, ki] using count

theorem Collected.total {s : Nat × (Nat → Int)} (collected : Collected 2048 s origin) :
    s.1 = 1536 := by
  simpa [countUsable] using collected.count

theorem Collected.usable_entry {s : Nat × (Nat → Int)} (collected : Collected 2048 s origin)
    (n : Nat) (bound : n < 1536) : ∃ v, usable v ∧ s.2 n = (v : Int) - 1024 := by
  obtain ⟨-, good, value⟩ := collected.entry n (collected.total ▸ bound)
  exact ⟨_, good, value⟩

theorem Collected.injective {s : Nat × (Nat → Int)} (collected : Collected 2048 s origin)
    (m n : Nat) (hm : m < 1536) (hn : n < 1536) (same : s.2 m = s.2 n) : m = n := by
  have total := collected.total
  obtain ⟨bm, -, vm⟩ := collected.entry m (by omega)
  obtain ⟨bn, -, vn⟩ := collected.entry n (by omega)
  have indices := ki_injective _ _ bm bn (by omega)
  rcases Nat.lt_trichotomy m n with lt | eq | gt
  · have := collected.ordered m n lt (by omega)
    omega
  · exact eq
  · have := collected.ordered n m gt (by omega)
    omega

theorem table49_entry (n : Nat) (bound : n < 1536) :
    ∃ v, usable v ∧ table49 n = (v : Int) - 1024 :=
  initTable49_collected.elim fun _ collected => collected.usable_entry n bound

theorem table49_injective (m n : Nat) (hm : m < 1536) (hn : n < 1536)
    (same : table49 m = table49 n) : m = n :=
  initTable49_collected.elim fun _ collected => collected.injective m n hm hn same

theorem carrier_bound (n : Nat) (bound : n < 1536) : carrier (table49 n) < 1536 := by
  obtain ⟨v, good, value⟩ := table49_entry n bound
  simp only [usable] at good
  rw [value, carrier, carriers]
  split <;> [skip; split] <;> omega

theorem carrier_injective (m n : Nat) (hm : m < 1536) (hn : n < 1536)
    (same : carrier (table49 m) = carrier (table49 n)) : m = n := by
  apply table49_injective m n hm hn
  obtain ⟨u, gu, vu⟩ := table49_entry m hm
  obtain ⟨v, gv, vv⟩ := table49_entry n hn
  simp only [usable] at gu gv
  rw [vu, vv] at same ⊢
  simp only [carrier, carriers] at same
  split at same <;> split at same <;> (try split at same) <;> (try split at same) <;> omega

theorem frequencyInterleaver_at (q y : Nat → UInt8) (n : Nat) (bound : n < 1536) (r : Nat)
    (part : r < 2) : frequencyInterleaver q y (2 * carrier (table49 n) + r) = q (2 * n + r) := by
  unfold frequencyInterleaver carriers
  refine loop_last_write bound (fun m => ?_) (fun j lt hj m => ?_)
  · rcases (show r = 0 ∨ r = 1 by omega) with rfl | rfl
    · rw [store_other _ _ (by omega), store_same]
    · rw [store_same]
  · have apart : carrier (table49 n) ≠ carrier (table49 j) := fun same => by
      have := carrier_injective n j bound hj same
      omega
    rw [store_other _ _ (by omega), store_other _ _ (by omega)]

/-- Deinterleaving after interleaving gives back every cell of a symbol. -/
theorem deinterleave_interleave (q y z : Nat → UInt8) (a : Nat) (bound : a < 3072) :
    frequencyDeinterleaver (frequencyInterleaver q y) z a = q a := by
  rw [frequencyDeinterleaver_apply _ _ a bound,
    frequencyInterleaver_at q y (a / 2) (by omega) (a % 2) (by omega), Nat.div_add_mod]

/-- Demapping after mapping gives back both halves of a symbol. -/
theorem demapper_mapper (P q z : Nat → UInt8) (a : Nat) (bound : a < 3072) :
    qpskSymbolDemapper (qpskSymbolMapper P q) z a = P a := by
  rw [qpskSymbolDemapper_apply _ _ a bound]
  split
  · next low =>
    rw [qpskSymbolMapper_apply, if_pos (by omega), if_pos (by omega)]
    congr 1; omega
  · next high =>
    rw [qpskSymbolMapper_apply, if_pos (by omega), if_neg (by omega)]
    congr 1; omega

end OpenDab
