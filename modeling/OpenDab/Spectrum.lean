import OpenDab.Library.Peak
import Mathlib.Algebra.Field.Basic

/-! The arrays that `wf_sync` works on, in exact arithmetic: complex numbers are pairs, and the
transforms of the FFT library and the square root are parameters. -/
namespace OpenDab

open Buffers Peak

def prsPoints : Nat := 0x800

/-- What `wf_sync` has from outside: the transforms, the square root, and the tables that
`wfrefinit` loads and computes. -/
structure Instruments (R : Type) where
  fft : (Nat → R × R) → Nat → R × R
  ifft : (Nat → R × R) → Nat → R × R
  sqrt : R → R
  cosTable : Int → Int
  prs1 : Nat → R × R
  prs2 : Nat → R × R

section Arrays

variable {R : Type} [Field R]

/-- Rescales and removes the offset: each byte becomes an imaginary part. -/
def prsScale (prsdata : Nat → UInt8) (k : Nat) : R × R := (0, ((prsdata k).toNat : R) - 128)

def reverseReal (pts : Nat) (rdata : Nat → R × R) : Nat → R × R :=
  loop (pts / 2 - 1) (fun k rdata =>
    let i := k + 1
    let t := (rdata i).1
    let rdata := store rdata i ((rdata i).1 - t + (rdata (pts - i)).1, (rdata i).2)
    store rdata (pts - i) ((rdata (pts - i)).1 - (rdata (pts - i)).1 + t, (rdata (pts - i)).2)) rdata

def reversePoints {α : Type} (pts : Nat) (mdata : Nat → α) : Nat → α :=
  loop (pts / 2 - 1) (fun k mdata =>
    let i := k + 1
    let tc := mdata i
    let mdata := store mdata i (mdata (pts - i))
    store mdata (pts - i) tc) mdata

def wfref {α : Type} (indx : Int) (pts : Nat) (outp inp : Nat → α) : Nat → α :=
  if indx = 0 then copy outp 0 inp pts
  else if indx > 0 then
    let indx := indx.toNat
    copy (copy outp 0 (shift inp (pts - indx)) indx) indx inp (pts - indx)
  else
    let indx := (-indx).toNat
    copy (copy outp (pts - indx) inp indx) 0 (shift inp indx) (pts - indx)

/-- Multiply point by point and divide by `d`: `mpy3` with 1024, `mpy` with 32. -/
def mpyBy (d : R) (srca srcb : Nat → R × R) (k : Nat) : R × R :=
  (((srca k).1 * (srcb k).1 - (srca k).2 * (srcb k).2) / d,
    ((srca k).1 * (srcb k).2 + (srca k).2 * (srcb k).1) / d)

def mpy3 (srca srcb : Nat → R × R) : Nat → R × R := mpyBy 1024 srca srcb

def mpy (srca srcb : Nat → R × R) : Nat → R × R := mpyBy 32 srca srcb

def mag (sqrt : R → R) (pts : Nat) (points : Nat → R × R) (i : Nat) : R :=
  sqrt ((points i).1 * (points i).1 + (points i).2 * (points i).2) / pts

def meanMag (values : Nat → R) (n : Nat) : R := loop n (fun i out => out + values i) 0 / n

def maxext [LinearOrder R] (values : Nat → R) (n : Nat) : R × Nat :=
  loop (n - 1) (fun k s => if values (k + 1) > s.1 then (values (k + 1), k + 1) else s) (values 0, 0)

variable (tools : Instruments R)

def receivedPoints (prsb : Nat → UInt8) : Nat → R × R :=
  reverseReal prsPoints (tools.ifft (prsScale prsb))

/-- The reference with its first 24 points repeated at its end, rotated by 12 points if all the
shifts are going to be tried. -/
def localReference (syncLocked : Bool) : Nat → R × R :=
  loop 0x18 (fun i prslocal => store prslocal (0x800 + i) (prslocal i))
    (wfref (if syncLocked then 0 else 0x0c) prsPoints (fun _ => (0, 0)) tools.prs1)

def correlation (syncLocked : Bool) (rdata : Nat → R × R) (j : Nat) : Nat → R × R :=
  reversePoints prsPoints (tools.fft (mpy3 rdata (shift (localReference tools syncLocked) j)))

/-- One shift: the largest magnitude counts if it stands out against the mean. -/
def coarseRound [LinearOrder R] (syncLocked : Bool) (rdata : Nat → R × R) (j : Nat) (s : R × Nat) :
    R × Nat :=
  let magdata := mag tools.sqrt prsPoints (correlation tools syncLocked rdata j)
  let found := maxext magdata prsPoints
  let vmean := meanMag magdata prsPoints
  let max := if vmean * 12 > found.1 then 0 else found.1
  if max > s.1 then (max, found.2) else s

/-- `maxv` and `indxv` behind the loop over the shifts, of which there is one if the receiver is in
step. -/
def coarseSearch [LinearOrder R] (syncLocked : Bool) (prsb : Nat → UInt8) : R × Nat :=
  loop (if syncLocked then 1 else 25) (coarseRound tools syncLocked (receivedPoints tools prsb)) (0, 0)

/-- The offset that an index stands for. -/
def signedIndex (indxv : Nat) : Int := if indxv < 0x400 then -indxv else 0x800 - indxv

/-- The impulse response of the channel: the received symbol against the other reference. -/
def impulseResponse (prsb : Nat → UInt8) (indxv : Int) : (Nat → R × R) × (Nat → R × R) :=
  let mdata := mpy (prsScale prsb) (wfref (-indxv) prsPoints (fun _ => (0, 0)) tools.prs2)
  (mdata, reversePoints prsPoints (tools.fft mdata))

end Arrays

/-! What the loops do. -/

def reversed (pts k : Nat) : Nat := if k = 0 then 0 else pts - k

/-- A loop that works on the pairs of points `i` and `pts - i`. -/
theorem loop_pairs {β : Type} (f : β → β → β) {pts n : Nat} (short : 2 * n < pts) (m : Nat → β)
    (address : Nat) :
    loop n (fun k m => store (store m (k + 1) (f (m (k + 1)) (m (pts - (k + 1)))))
        (pts - (k + 1)) (f (m (pts - (k + 1))) (m (k + 1)))) m address =
      if 1 ≤ address ∧ address ≤ n ∨ pts - n ≤ address ∧ address < pts then
        f (m address) (m (pts - address))
      else m address := by
  induction n generalizing address with
  | zero => rw [loop_zero, if_neg (by omega)]
  | succ n ih =>
    have before := ih (by omega)
    have first := before (n + 1)
    have second := before (pts - (n + 1))
    rw [if_neg (by omega)] at first second
    rw [loop_succ]
    by_cases low : address = n + 1
    · subst low
      rw [store_other _ _ (by omega), store_same, first, second, if_pos (by omega)]
    · by_cases high : address = pts - (n + 1)
      · subst high
        rw [store_same, first, second, if_pos (by omega), show pts - (pts - (n + 1)) = n + 1 by omega]
      · rw [store_other _ _ high, store_other _ _ low, before]
        by_cases done : 1 ≤ address ∧ address ≤ n ∨ pts - n ≤ address ∧ address < pts
        · rw [if_pos done, if_pos (by omega)]
        · rw [if_neg done, if_neg (by omega)]

theorem reversed_place {pts k : Nat} (even : pts % 2 = 0) (inside : k < pts) :
    (1 ≤ k ∧ k ≤ pts / 2 - 1 ∨ pts - (pts / 2 - 1) ≤ k ∧ k < pts) ∧ reversed pts k = pts - k ∨
      ¬(1 ≤ k ∧ k ≤ pts / 2 - 1 ∨ pts - (pts / 2 - 1) ≤ k ∧ k < pts) ∧ reversed pts k = k := by
  unfold reversed
  split <;> omega

theorem reversePoints_apply {α : Type} {pts : Nat} (even : pts % 2 = 0) (mdata : Nat → α) {k : Nat}
    (inside : k < pts) : reversePoints pts mdata k = mdata (reversed pts k) := by
  refine (loop_pairs (fun _ y => y) (by omega) mdata k).trans ?_
  rcases reversed_place even inside with ⟨moved, place⟩ | ⟨fixed, place⟩
  · rw [if_pos moved, place]
  · rw [if_neg fixed, place]

theorem reverseReal_apply {R : Type} [Field R] {pts : Nat} (even : pts % 2 = 0)
    (rdata : Nat → R × R) {k : Nat} (inside : k < pts) :
    reverseReal pts rdata k = ((rdata (reversed pts k)).1, (rdata k).2) := by
  have pairs : reverseReal pts rdata =
      loop (pts / 2 - 1) (fun k m => store (store m (k + 1) ((m (pts - (k + 1))).1, (m (k + 1)).2))
        (pts - (k + 1)) ((m (k + 1)).1, (m (pts - (k + 1))).2)) rdata := by
    refine loop_congr fun k short m => ?_
    have apart : pts - (k + 1) ≠ k + 1 := by omega
    simp only [store_other _ _ apart, sub_self, zero_add]
  rw [pairs]
  refine (loop_pairs (fun x y => (y.1, x.2)) (by omega) rdata k).trans ?_
  rcases reversed_place even inside with ⟨moved, place⟩ | ⟨fixed, place⟩
  · rw [if_pos moved, place]
  · rw [if_neg fixed, place]

/-- A rotation takes every point from `indx` places before it, round the table. -/
theorem wfref_apply {α : Type} {indx : Int} {pts : Nat} (low : -(pts : Int) < indx) (high : indx < pts)
    (outp inp : Nat → α) {k : Nat} (inside : k < pts) :
    wfref indx pts outp inp k = inp (((k : Int) - indx) % pts).toNat := by
  unfold wfref
  split
  · next none =>
    have same : (((k : Int) - indx) % pts).toNat = k := by
      rw [none, Int.sub_zero, Int.emod_eq_of_lt (by omega) (by omega), Int.toNat_natCast]
    rw [same, copy, if_pos (by omega), Nat.sub_zero]
  · split
    · next later =>
      obtain ⟨d, rfl⟩ : ∃ d : Nat, indx = d := ⟨indx.toNat, by omega⟩
      dsimp only
      rw [Int.toNat_natCast]
      by_cases early : k < d
      · have place : (((k : Int) - d) % pts).toNat = pts - d + k := by
          rw [← Int.add_emod_right, Int.emod_eq_of_lt (by omega) (by omega)]
          omega
        rw [copy_outside _ _ (by omega), copy, if_pos (by omega), shift_apply, Nat.sub_zero, place]
      · have place : (((k : Int) - d) % pts).toNat = k - d := by
          rw [Int.emod_eq_of_lt (by omega) (by omega)]
          omega
        rw [copy, if_pos (by omega), place]
    · next sooner =>
      obtain ⟨d, rfl⟩ : ∃ d : Nat, indx = -d := ⟨(-indx).toNat, by omega⟩
      dsimp only
      rw [Int.neg_neg, Int.toNat_natCast]
      by_cases early : k < pts - d
      · have place : (((k : Int) - -(d : Int)) % pts).toNat = d + k := by
          rw [Int.emod_eq_of_lt (by omega) (by omega)]
          omega
        rw [copy, if_pos (by omega), shift_apply, Nat.sub_zero, place]
      · have place : (((k : Int) - -(d : Int)) % pts).toNat = k - (pts - d) := by
          rw [← Int.sub_emod_right, Int.emod_eq_of_lt (by omega) (by omega)]
          omega
        rw [copy_outside _ _ (by omega), copy, if_pos (by omega), place]

/-- The first `n` points once more, behind the others. -/
theorem repeated_apply {α : Type} {pts n : Nat} (few : n ≤ pts) (base : Nat → α) (a : Nat) :
    loop n (fun i m => store m (pts + i) (m i)) base a =
      if pts ≤ a ∧ a < pts + n then base (a - pts) else base a := by
  induction n generalizing a with
  | zero => rw [loop_zero, if_neg (by omega)]
  | succ n ih =>
    have before := ih (by omega)
    have first : loop n (fun i m => store m (pts + i) (m i)) base n = base n :=
      (before n).trans (if_neg (by omega))
    rw [loop_succ, store_apply, first, before a]
    by_cases last : a = pts + n
    · rw [if_pos last, if_pos (by omega), last, Nat.add_sub_cancel_left]
    · rw [if_neg last]
      by_cases done : pts ≤ a ∧ a < pts + n
      · rw [if_pos done, if_pos (by omega)]
      · rw [if_neg done, if_neg (by omega)]

def referenceShift (syncLocked : Bool) (j : Nat) : Int := if syncLocked then j else (j : Int) - 12

/-- The reference goes on with its first points. -/
theorem localReference_apply {R : Type} [Field R] (tools : Instruments R) (syncLocked : Bool) {a : Nat}
    (inside : a < 0x818) : localReference tools syncLocked a =
      tools.prs1 (referenceShift syncLocked a % 2048).toNat := by
  have rotated {k : Nat} (small : k < 0x800) :
      wfref (if syncLocked then 0 else 0x0c) prsPoints (fun _ => (0, 0)) tools.prs1 k =
        tools.prs1 (referenceShift syncLocked k % 2048).toNat := by
    cases syncLocked with
    | false => exact wfref_apply (by decide) (by decide) _ _ small
    | true =>
      have place : wfref 0 prsPoints (fun _ => ((0 : R), (0 : R))) tools.prs1 k =
          tools.prs1 (((k : Int) - 0) % prsPoints).toNat :=
        wfref_apply (by decide) (by decide) _ _ small
      rwa [Int.sub_zero] at place
  rw [localReference, repeated_apply (by decide)]
  split
  · next behind =>
    have turned : referenceShift syncLocked a = referenceShift syncLocked (a - 0x800 : Nat) + 2048 := by
      cases syncLocked <;> simp only [referenceShift, if_true, if_false, Bool.false_eq_true] <;> omega
    rw [rotated (by omega), turned, Int.add_emod_right]
  · exact rotated (by omega)

theorem maxext_first {R : Type} [LinearOrder R] (values : Nat → R) {n : Nat} (positive : 0 < n) :
    maxext values n = (values (maxext values n).2, (maxext values n).2) ∧
      First values n (maxext values n).2 := by
  suffices every : maxext values n = (values (maxext values n).2, (maxext values n).2) ∧
      First values (n - 1 + 1) (maxext values n).2 by
    rwa [Nat.sub_add_cancel positive] at every
  unfold maxext
  apply loop_invariant (fun k s => s = (values s.2, s.2) ∧ First values (k + 1) s.2)
  · refine ⟨rfl, Nat.zero_lt_one, fun i bound => ?_, fun i bound => absurd bound (Nat.not_lt_zero i)⟩
    rw [Nat.lt_one_iff.mp bound]
  · rintro k - s ⟨same, found⟩
    rw [same]
    dsimp only
    split
    · next exceeds =>
      have lower (i : Nat) (bound : i < k + 1) : values i < values (k + 1) :=
        (found.largest i bound).trans_lt exceeds
      exact ⟨rfl, Nat.lt_succ_self _, Nat.forall_lt_succ_right.mpr
        ⟨fun i bound => (lower i bound).le, le_refl _⟩, lower⟩
    · next exceeds =>
      exact ⟨rfl, found.inside.trans (Nat.lt_succ_self _), Nat.forall_lt_succ_right.mpr
        ⟨found.largest, not_lt.mp exceeds⟩, found.first⟩

theorem meanMag_eq {R : Type} [Field R] (values : Nat → R) (n : Nat) :
    meanMag values n = (∑ i ∈ Finset.range n, values i) / n := by
  have sum : loop n (fun i out => out + values i) 0 = ∑ i ∈ Finset.range n, values i := by
    induction n with
    | zero => rfl
    | succ n ih => rw [loop_succ, ih, Finset.sum_range_succ]
  rw [meanMag, sum]

section Search

variable {R : Type} [Field R] [LinearOrder R] (tools : Instruments R) (syncLocked : Bool)
  (rdata : Nat → R × R)

def magnitudes (j : Nat) : Nat → R := mag tools.sqrt prsPoints (correlation tools syncLocked rdata j)

def shiftValue (j : Nat) : R :=
  let max := (maxext (magnitudes tools syncLocked rdata j) prsPoints).1
  if meanMag (magnitudes tools syncLocked rdata j) prsPoints * 12 > max then 0 else max

/-- The loop over the shifts keeps the first one with the largest value. -/
theorem coarseSearch_scan (prsb : Nat → UInt8) : coarseSearch tools syncLocked prsb =
    let found := scan (shiftValue tools syncLocked (receivedPoints tools prsb)) 0
      (if syncLocked then 1 else 25)
    (found.1, (found.2.map fun j =>
      (maxext (magnitudes tools syncLocked (receivedPoints tools prsb) j) prsPoints).2).getD 0) := by
  unfold coarseSearch
  generalize (if syncLocked then 1 else 25) = n
  induction n with
  | zero => rfl
  | succ n ih =>
    have round (s : R × Nat) : coarseRound tools syncLocked (receivedPoints tools prsb) n s =
        if s.1 < shiftValue tools syncLocked (receivedPoints tools prsb) n then
          (shiftValue tools syncLocked (receivedPoints tools prsb) n,
            (maxext (magnitudes tools syncLocked (receivedPoints tools prsb) n) prsPoints).2)
        else s := rfl
    rw [loop_succ, ih, scan_succ, round]
    dsimp only
    by_cases exceeds : (scan (shiftValue tools syncLocked (receivedPoints tools prsb)) 0 n).1 <
        shiftValue tools syncLocked (receivedPoints tools prsb) n
    · rw [if_pos exceeds, if_pos exceeds, Option.map_some, Option.getD_some]
    · rw [if_neg exceeds, if_neg exceeds]

theorem coarseSearch_index (prsb : Nat → UInt8) : (coarseSearch tools syncLocked prsb).2 < 2048 := by
  rw [coarseSearch_scan]
  dsimp only
  cases (scan (shiftValue tools syncLocked (receivedPoints tools prsb)) 0
      (if syncLocked then 1 else 25)).2 with
  | none => exact Nat.zero_lt_succ 2047
  | some j => exact (maxext_first _ (show 0 < prsPoints by decide)).2.inside

end Search

end OpenDab
