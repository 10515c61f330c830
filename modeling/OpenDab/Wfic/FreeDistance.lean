import OpenDab.Wfic.Optimal
import Mathlib.Data.Nat.Bitwise
import Mathlib.Data.Nat.Count
import Mathlib.Algebra.Order.BigOperators.Group.Finset
import Mathlib.Algebra.BigOperators.Intervals

/-! The distance between codewords. The code is linear, and its first two outputs alone
separate two messages that start and end together in at least ten places. -/
namespace OpenDab

open Finset

section Linear

variable (x y : Nat → Bool)

theorem window_bit (t : Nat) : window x t = Nat.bit (x t) (register x t) := by
  rw [window, Nat.bit_val]

theorem register_xor (t : Nat) :
    register (fun t => x t ^^ y t) t = register x t ^^^ register y t := by
  induction t with
  | zero => exact (Nat.xor_self 0).symm
  | succ t ih =>
    rw [register_succ, register_succ, register_succ, window_bit, window_bit, window_bit, ih,
      show 64 = 2 ^ 6 from rfl, ← Nat.xor_mod_two_pow, Nat.xor_bit]

theorem window_xor (t : Nat) : window (fun t => x t ^^ y t) t = window x t ^^^ window y t := by
  rw [window_bit, window_bit, window_bit, register_xor, Nat.xor_bit]

def oddBits (f : Nat → Bool) (l : List Nat) : Bool := l.foldr (fun k odd => f k ^^ odd) false

theorem oddBits_xor (f g : Nat → Bool) (l : List Nat) :
    oddBits (fun k => f k ^^ g k) l = (oddBits f l ^^ oddBits g l) := by
  induction l with
  | nil => rfl
  | cons k l ih =>
    simp only [oddBits, List.foldr_cons] at ih ⊢
    rw [ih]
    generalize List.foldr _ false l = a, List.foldr _ false l = b
    cases f k <;> cases g k <;> cases a <;> cases b <;> rfl

theorem parity_oddBits : ∀ i < 128, parity i = (oddBits i.testBit (List.range 7)).toUInt8 := by
  decide +kernel

theorem toUInt8_xor (a b : Bool) : (a ^^ b).toUInt8 = a.toUInt8 ^^^ b.toUInt8 := by
  cases a <;> cases b <;> rfl

theorem parity_xor {i j : Nat} (small : i < 128) (small' : j < 128) :
    parity (i ^^^ j) = parity i ^^^ parity j := by
  have both : i ^^^ j < 128 := Nat.xor_lt_two_pow (n := 7) small small'
  have bits : (i ^^^ j).testBit = fun k => i.testBit k ^^ j.testBit k :=
    funext fun k => Nat.testBit_xor i j k
  rw [parity_oddBits _ both, parity_oddBits i small, parity_oddBits j small', bits, oddBits_xor,
    toUInt8_xor]

/-- Code bits of a sum of messages are sums of code bits. -/
theorem codeword_xor (p : Nat) :
    codeword (fun t => x t ^^ y t) p = codeword x p ^^^ codeword y p := by
  have inside (z : Nat → Bool) : window z (p / 4) &&& polys (p % 4) < 128 :=
    Nat.lt_of_le_of_lt Nat.and_le_left (window_lt z _)
  rw [codeword, codeword, codeword, window_xor, Nat.and_xor_distrib_right,
    parity_xor (inside x) (inside y)]

end Linear

/-- A lower bound for the weight of the first two outputs on the way from each register back to
the empty one. -/
def distances : List Nat := [
  0, 8, 7, 7, 5, 7, 6, 6, 3, 5, 6, 6, 6, 6, 5, 7, 3, 7, 4, 6, 6, 6, 5, 7, 4, 6, 7, 5, 5, 7, 6, 6,
  2, 8, 5, 7, 3, 7, 6, 6, 5, 5, 6, 6, 4, 6, 7, 7, 3, 5, 4, 6, 6, 6, 5, 7, 4, 4, 7, 7, 5, 7, 6, 6]

def distance (r : Nat) : Nat := distances.getD r 0

def firstWeight (i : Nat) : Nat := (parity (i &&& polys 0)).toNat + (parity (i &&& polys 1)).toNat

/-- One input shortens the way by no more than the weight that it sends. -/
theorem distance_step : ∀ i < 128, distance (i / 2) ≤ firstWeight i + distance (i % 64) := by
  decide +kernel

theorem distance_run (x : Nat → Bool) {a n : Nat} (after : a ≤ n) :
    distance (register x a) ≤ ∑ t ∈ Ico a n, firstWeight (window x t) + distance (register x n) := by
  induction n, after using Nat.le_induction with
  | base => simp
  | succ n after ih =>
    have step := distance_step (window x n) (window_lt x n)
    have bit := (x n).toNat_le
    rw [← register_succ, show window x n / 2 = register x n by rw [window]; omega] at step
    rw [Finset.sum_Ico_succ_top after]
    omega

theorem register_empty {x : Nat → Bool} {n : Nat} (silent : ∀ t < n, x t = false) :
    register x n = 0 := by
  induction n with
  | zero => rfl
  | succ n ih =>
    rw [register_succ, window, ih fun t before => silent t (by omega),
      silent n (by omega)]
    rfl

/-- A message that is not all zero and leaves the register empty. -/
theorem free_distance {x : Nat → Bool} {n : Nat} (nonzero : ∃ t < n, x t = true)
    (empty : register x n = 0) : 10 ≤ ∑ t ∈ range n, firstWeight (window x t) := by
  have found : ∃ t, x t = true := nonzero.imp fun _ => And.right
  obtain ⟨t, inside, one⟩ := nonzero
  -- the first input that is 1 sends two ones and leaves register 1
  have start : register x (Nat.find found) = 0 :=
    register_empty fun t before => Bool.not_eq_true _ ▸ Nat.find_min found before
  have input : window x (Nat.find found) = 1 := by
    rw [window, start, Nat.find_spec found]
    rfl
  have first : Nat.find found < n := Nat.lt_of_le_of_lt (Nat.find_min' found one) inside
  have rest := distance_run x (show Nat.find found + 1 ≤ n from first)
  rw [register_succ, input, empty] at rest
  have split : ∑ t ∈ Ico (Nat.find found) n, firstWeight (window x t) =
      firstWeight 1 + ∑ t ∈ Ico (Nat.find found + 1) n, firstWeight (window x t) := by
    rw [Finset.sum_eq_sum_Ico_succ_bot first, input]
  have part : ∑ t ∈ Ico (Nat.find found) n, firstWeight (window x t) ≤
      ∑ t ∈ range n, firstWeight (window x t) := by
    refine Finset.sum_le_sum_of_subset fun t member => ?_
    rw [Finset.mem_Ico] at member
    exact Finset.mem_range.mpr member.2
  have two : firstWeight 1 = 2 := by decide +kernel
  have eight : distance (1 % 64) = 8 := rfl
  have zero : distance 0 = 0 := rfl
  omega

end OpenDab
