import Mathlib.Data.List.Induction
import Mathlib.Tactic.Ring

/-! Records of unsigned fields packed into a bit string, each with its most significant bit
first. -/
namespace BitFields

def bits (width v : Nat) : List Bool := (List.range width).map fun i => v.testBit (width - 1 - i)

/-- The number that a bit string spells. -/
def value (l : List Bool) : Nat := l.foldl (fun v b => 2 * v + b.toNat) 0

/-- A record of fields, given by their widths and values. -/
def write (fields : List (Nat × Nat)) : List Bool := fields.flatMap fun f => bits f.1 f.2

def read : List Nat → List Bool → List Nat
  | [], _ => []
  | width :: widths, l => value (l.take width) :: read widths (l.drop width)

@[simp] theorem length_bits (width v : Nat) : (bits width v).length = width := by simp [bits]

theorem bits_succ (width v : Nat) : bits (width + 1) v = bits width (v / 2) ++ [v.testBit 0] := by
  rw [bits, List.range_succ, List.map_append]
  refine congrArg₂ (· ++ ·) (List.map_congr_left fun i member => ?_) (by simp)
  have inside := List.mem_range.mp member
  rw [Nat.testBit_div_two]
  exact congrArg _ (by omega)

theorem bits_mod (width v : Nat) : bits width (v % 2 ^ width) = bits width v := by
  refine List.map_congr_left fun i member => ?_
  have inside := List.mem_range.mp member
  rw [Nat.testBit_mod_two_pow, decide_eq_true (show width - 1 - i < width by omega), Bool.true_and]

/-- A field in two parts. -/
theorem bits_add (m n v : Nat) : bits (m + n) v = bits m (v / 2 ^ n) ++ bits n v := by
  induction n generalizing v with
  | zero => simp [bits]
  | succ n ih =>
    rw [← Nat.add_assoc, bits_succ, ih, bits_succ n, List.append_assoc, Nat.div_div_eq_div_mul,
      Nat.pow_succ']

theorem value_append (l l' : List Bool) : value (l ++ l') = value l * 2 ^ l'.length + value l' := by
  induction l' using List.reverseRecOn with
  | nil => simp [value]
  | append_singleton l' b ih =>
    have last (k : List Bool) : value (k ++ [b]) = 2 * value k + b.toNat := by simp [value]
    rw [← List.append_assoc, last, last, ih, List.length_append, List.length_singleton, Nat.pow_succ]
    ring

/-- A number that fits is read back. -/
theorem value_bits {width v : Nat} (fits : v < 2 ^ width) : value (bits width v) = v := by
  induction width generalizing v with
  | zero =>
    obtain rfl : v = 0 := by simpa using fits
    rfl
  | succ width ih =>
    rw [bits_succ, value_append, ih (by omega), Nat.testBit_zero]
    rcases Nat.mod_two_eq_zero_or_one v with even | odd
    · simp [value, even]
      omega
    · simp [value, odd]
      omega

/-- Fields that fit are read back, whatever is behind them. -/
theorem read_write_append (fields : List (Nat × Nat)) (fits : ∀ f ∈ fields, f.2 < 2 ^ f.1)
    (widths : List Nat) (l : List Bool) : read (fields.map Prod.fst ++ widths) (write fields ++ l) =
      fields.map Prod.snd ++ read widths l := by
  induction fields with
  | nil => rfl
  | cons f fields ih =>
    have split : write (f :: fields) ++ l = bits f.1 f.2 ++ (write fields ++ l) := by
      rw [write, List.flatMap_cons, List.append_assoc]
      rfl
    rw [split, List.map_cons, List.cons_append, read, List.take_left' (length_bits _ _),
      List.drop_left' (length_bits _ _), value_bits (fits f List.mem_cons_self),
      ih fun g member => fits g (List.mem_cons_of_mem _ member), List.map_cons, List.cons_append]

theorem read_write (fields : List (Nat × Nat)) (fits : ∀ f ∈ fields, f.2 < 2 ^ f.1) :
    read (fields.map Prod.fst) (write fields) = fields.map Prod.snd := by
  have exact := read_write_append fields fits [] []
  simpa [read] using exact

end BitFields
