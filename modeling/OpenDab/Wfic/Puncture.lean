import OpenDab.Library.Puncturing

/-! The puncturing scheme of the FIC. Both directions walk over the code bits in groups of
four and keep the first two or three of each group. -/
namespace OpenDab

open Buffers Puncturing

structure Punctured where
  obuf : Nat → UInt8
  k : Nat

def punctureGroup (ibuf : Nat → UInt8) (n i : Nat) (s : Punctured) : Punctured :=
  ⟨loop n (fun r obuf => store obuf (s.k + r) (ibuf (i + r))) s.obuf, s.k + n⟩

/-- Put the `n` bits of a group back and mark the others, for soft decision. -/
def depunctureGroup (ibuf : Nat → UInt8) (n i : Nat) (s : Punctured) : Punctured :=
  ⟨loop 4 (fun r obuf => store obuf (i + r) (if r < n then ibuf (s.k + r) else 8)) s.obuf, s.k + n⟩

/-- 21 blocks that keep 24 of 32 bits, 3 blocks that keep 23 of 32, and 24 bits that keep 12. -/
def groups (group : Nat → Nat → Punctured → Punctured) (s : Punctured) : Punctured :=
  let s := loop (21 * 4) (fun b => loop 8 fun j => group 3 (32 * b + j * 4)) s
  let s := loop (3 * 4) (fun b s =>
    let i := 21 * 128 + 32 * b
    group 2 (i + 7 * 4) (loop 7 (fun j => group 3 (i + j * 4)) s)) s
  loop 6 (fun j => group 2 (24 * 128 + j * 4)) s

def puncture (ibuf obuf : Nat → UInt8) : (Nat → UInt8) × Nat :=
  let s := groups (punctureGroup ibuf) ⟨obuf, 0⟩
  (s.obuf, s.k)

def depuncture (ibuf obuf : Nat → UInt8) : (Nat → UInt8) × Nat :=
  let s := groups (depunctureGroup ibuf) ⟨obuf, 0⟩
  (s.obuf, 24 * 128 + (6 - 1) * 4 + 4)

@[simp] theorem depuncture_length (ibuf obuf : Nat → UInt8) : (depuncture ibuf obuf).2 = 3096 := rfl

def keptBits (g : Nat) : Nat := if g < 672 then 3 else if g < 768 ∧ g % 8 ≠ 7 then 3 else 2

def ficKeeps (p : Nat) : Bool := decide (p % 4 < keptBits (p / 4))

theorem keptBits_cases (g : Nat) : keptBits g = 2 ∨ keptBits g = 3 := by
  unfold keptBits
  split
  · exact .inr rfl
  · split
    · exact .inr rfl
    · exact .inl rfl

theorem ficKeeps_group (g : Nat) {r : Nat} (inside : r < 4) :
    ficKeeps (4 * g + r) = decide (r < keptBits g) := by
  rw [ficKeeps, show (4 * g + r) % 4 = r by omega, show (4 * g + r) / 4 = g by omega]

theorem rank_group (g : Nat) {r : Nat} (inside : r ≤ keptBits g) :
    rank ficKeeps (4 * g + r) = rank ficKeeps (4 * g) + r := by
  induction r with
  | zero => rfl
  | succ r ih =>
    have small := keptBits_cases g
    have chosen : ficKeeps (4 * g + r) = true := by
      rw [ficKeeps_group g (by omega), decide_eq_true (show r < keptBits g from inside)]
    rw [← Nat.add_assoc, rank, ih (by omega), if_pos chosen, Nat.add_assoc]

theorem rank_next (g : Nat) : rank ficKeeps (4 * (g + 1)) = rank ficKeeps (4 * g) + keptBits g := by
  have dropped : ∀ r, keptBits g ≤ r → r < 4 → ficKeeps (4 * g + r) = false := by
    intro r late inside
    rw [ficKeeps_group g inside, decide_eq_false (by omega)]
  have front := rank_group g (Nat.le_refl _)
  have size := keptBits_cases g
  rw [show 4 * (g + 1) = 4 * g + 3 + 1 by omega, rank, dropped 3 (by omega) (by omega)]
  rcases size with two | three
  · rw [two] at front dropped ⊢
    rw [show 4 * g + 3 = 4 * g + 2 + 1 by omega, rank, dropped 2 (by omega) (by omega), front]
    rfl
  · rw [three] at front ⊢
    rw [front]
    rfl

/-- What holds of `g` groups and is kept by the next group holds after all 774. -/
theorem groups_invariant {group : Nat → Nat → Punctured → Punctured}
    (holds : Nat → Punctured → Prop) {s : Punctured} (start : holds 0 s)
    (step : ∀ g < 774, ∀ s, holds g s → holds (g + 1) (group (keptBits g) (4 * g) s)) :
    holds 774 (groups group s) := by
  have next (g : Nat) (inside : g < 774) {n i : Nat} (kept : keptBits g = n) (place : 4 * g = i)
      (s : Punctured) (before : holds g s) : holds (g + 1) (group n i s) := by
    rw [← kept, ← place]
    exact step g inside s before
  unfold groups
  refine loop_invariant (n := 6) (fun j s => holds (768 + j) s) ?_ fun j low s before =>
    next (768 + j) (by omega) ?_ (by omega) s before
  · refine loop_invariant (n := 3 * 4) (fun b s => holds (672 + 8 * b) s) ?_ fun b low s before =>
      next (672 + 8 * b + 7) (by omega) ?_ (by omega) _ ?_
    · refine loop_invariant (n := 21 * 4) (fun b s => holds (8 * b) s) start fun b low s before =>
        loop_invariant (n := 8) (fun j s => holds (8 * b + j) s) before fun j inner s before =>
          next (8 * b + j) (by omega) ?_ (by omega) s before
      rw [keptBits, if_pos (by omega)]
    · rw [keptBits, if_neg (by omega), if_neg (by omega)]
    · refine loop_invariant (n := 7) (fun j s => holds (672 + 8 * b + j) s) before
        fun j inner s before => next (672 + 8 * b + j) (by omega) ?_ (by omega) s before
      rw [keptBits, if_neg (by omega), if_pos (by omega)]
  · rw [keptBits, if_neg (by omega), if_neg (by omega)]

structure Punctured.Sent (ibuf : Nat → UInt8) (n : Nat) (s : Punctured) : Prop where
  written : s.k = rank ficKeeps n
  obuf : ∀ p < n, ficKeeps p = true → s.obuf (rank ficKeeps p) = ibuf p

structure Punctured.Restored (ibuf : Nat → UInt8) (n : Nat) (s : Punctured) : Prop where
  read : s.k = rank ficKeeps n
  obuf : ∀ p < n, s.obuf p = if ficKeeps p then ibuf (rank ficKeeps p) else 8

theorem Punctured.Sent.group {ibuf : Nat → UInt8} {g : Nat} {s : Punctured}
    (sent : s.Sent ibuf (4 * g)) :
    (punctureGroup ibuf (keptBits g) (4 * g) s).Sent ibuf (4 * (g + 1)) := by
  obtain ⟨written, obuf⟩ := sent
  rw [punctureGroup, loop_store, written]
  refine ⟨(rank_next g).symm, fun p inside chosen => ?_⟩
  dsimp only
  by_cases older : p < 4 * g
  · rw [copy_outside _ _ (.inl (rank_lt older chosen)), obuf p older chosen]
  · obtain ⟨r, rfl⟩ : ∃ r, p = 4 * g + r := ⟨p - 4 * g, by omega⟩
    rw [ficKeeps_group g (by omega), decide_eq_true_eq] at chosen
    rw [rank_group g (Nat.le_of_lt chosen), copy_inside _ _ _ chosen]

theorem Punctured.Restored.group {ibuf : Nat → UInt8} {g : Nat} {s : Punctured}
    (restored : s.Restored ibuf (4 * g)) :
    (depunctureGroup ibuf (keptBits g) (4 * g) s).Restored ibuf (4 * (g + 1)) := by
  obtain ⟨read, obuf⟩ := restored
  rw [depunctureGroup, loop_store, read]
  refine ⟨(rank_next g).symm, fun p inside => ?_⟩
  dsimp only
  by_cases older : p < 4 * g
  · rw [copy_outside _ _ (.inl older), obuf p older]
  · obtain ⟨r, rfl⟩ : ∃ r, p = 4 * g + r := ⟨p - 4 * g, by omega⟩
    rw [copy_inside _ _ _ (show r < 4 by omega), ficKeeps_group g (by omega)]
    by_cases chosen : r < keptBits g
    · rw [if_pos chosen, if_pos (decide_eq_true chosen), rank_group g (Nat.le_of_lt chosen)]
    · rw [if_neg chosen, if_neg (by simpa using chosen)]

theorem puncture_sent (ibuf obuf : Nat → UInt8) {p : Nat} (inside : p < 3096)
    (chosen : ficKeeps p = true) : (puncture ibuf obuf).1 (rank ficKeeps p) = ibuf p := by
  have start : Punctured.Sent ibuf 0 ⟨obuf, 0⟩ := ⟨rfl, fun p inside => absurd inside (by omega)⟩
  have all : (groups (punctureGroup ibuf) ⟨obuf, 0⟩).Sent ibuf (4 * 774) :=
    groups_invariant (fun g s => s.Sent ibuf (4 * g)) start fun _ _ _ sent => sent.group
  exact all.obuf p inside chosen

theorem depuncture_apply (ibuf obuf : Nat → UInt8) {p : Nat} (inside : p < 3096) :
    (depuncture ibuf obuf).1 p = if ficKeeps p then ibuf (rank ficKeeps p) else 8 := by
  have start : Punctured.Restored ibuf 0 ⟨obuf, 0⟩ :=
    ⟨rfl, fun p inside => absurd inside (by omega)⟩
  have all : (groups (depunctureGroup ibuf) ⟨obuf, 0⟩).Restored ibuf (4 * 774) :=
    groups_invariant (fun g s => s.Restored ibuf (4 * g)) start fun _ _ _ restored => restored.group
  exact all.obuf p inside

theorem rank_block : rank ficKeeps 3096 = 2304 := by decide +kernel

theorem rank_inside {p : Nat} (inside : p < 3096) (chosen : ficKeeps p = true) :
    rank ficKeeps p < 2304 := by
  rw [← rank_block]
  exact rank_lt inside chosen

theorem ficKeeps_first (t : Nat) : ficKeeps (4 * t) = true := by
  have some := keptBits_cases t
  rw [← Nat.add_zero (4 * t), ficKeeps_group t (by omega), decide_eq_true (by omega)]

end OpenDab
