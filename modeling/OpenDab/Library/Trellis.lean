import Mathlib.Tactic.Common
import Mathlib.Order.Basic
import Mathlib.Algebra.Order.Group.Nat

/-! Add-compare-select decoding over a trellis in which every state has two predecessors.
The metric of a state bounds the score of every walk that ends in it, and the walk
traced back from the recorded choices attains it. -/
namespace Trellis

variable {σ : Type} (pred : σ → Bool → σ) (gain : Nat → σ → σ → Int) (start : σ → Int)

/-- The better of the two ways into a state, the first one if they are equal. -/
def metric : Nat → σ → Int
  | 0, s => start s
  | t + 1, s =>
    let first := metric t (pred s false) + gain t (pred s false) s
    let second := metric t (pred s true) + gain t (pred s true) s
    if second > first then second else first

def choice (t : Nat) (s : σ) : Bool :=
  metric pred gain start t (pred s true) + gain t (pred s true) s >
    metric pred gain start t (pred s false) + gain t (pred s false) s

def Walk (n : Nat) (p : Nat → σ) : Prop := ∀ t < n, ∃ second, p t = pred (p (t + 1)) second

/-- What a walk collects on its first `n` edges. -/
def score (p : Nat → σ) : Nat → Int
  | 0 => start (p 0)
  | n + 1 => score p n + gain n (p n) (p (n + 1))

/-- The walk that the choices trace back from state `s` at time `n`. -/
def survivor : Nat → σ → Nat → σ
  | 0, s => fun _ => s
  | n + 1, s => fun t =>
    if t ≤ n then survivor n (pred s (choice pred gain start n s)) t else s

theorem Walk.prefix {n : Nat} {p : Nat → σ} (walk : Walk pred (n + 1) p) : Walk pred n p :=
  fun t before => walk t (by omega)

theorem metric_choice (t : Nat) (s : σ) : metric pred gain start (t + 1) s =
    metric pred gain start t (pred s (choice pred gain start t s)) +
      gain t (pred s (choice pred gain start t s)) s := by
  simp only [metric, choice]
  split
  · next better => rw [decide_eq_true better]
  · next worse => rw [decide_eq_false worse]

theorem metric_bound (t : Nat) (s : σ) (second : Bool) :
    metric pred gain start t (pred s second) + gain t (pred s second) s ≤
      metric pred gain start (t + 1) s := by
  simp only [metric]
  cases second <;> split <;> omega

/-- The metric of a state bounds every walk that ends in it. -/
theorem score_le_metric (n : Nat) {p : Nat → σ} (walk : Walk pred n p) :
    score gain start p n ≤ metric pred gain start n (p n) := by
  induction n with
  | zero => exact Int.le_refl _
  | succ n ih =>
    have before := ih walk.prefix
    obtain ⟨second, edge⟩ := walk n (by omega)
    have bound := metric_bound pred gain start n (p (n + 1)) second
    rw [← edge] at bound
    rw [score]
    omega

theorem survivor_last (n : Nat) (s : σ) : survivor pred gain start n s n = s := by
  cases n with
  | zero => rfl
  | succ n => exact if_neg (by omega)

theorem survivor_earlier {n t : Nat} (s : σ) (before : t ≤ n) :
    survivor pred gain start (n + 1) s t =
      survivor pred gain start n (pred s (choice pred gain start n s)) t := if_pos before

theorem survivor_pred (n : Nat) (s : σ) {t : Nat} (before : t < n) :
    survivor pred gain start n s t = pred (survivor pred gain start n s (t + 1))
      (choice pred gain start t (survivor pred gain start n s (t + 1))) := by
  induction n generalizing s with
  | zero => omega
  | succ n ih =>
    rw [survivor_earlier pred gain start s (by omega)]
    by_cases last : t = n
    · rw [last, survivor_last, survivor_last]
    · rw [survivor_earlier pred gain start s (by omega), ih _ (by omega)]

theorem survivor_walk (n : Nat) (s : σ) : Walk pred n (survivor pred gain start n s) :=
  fun _ before => ⟨_, survivor_pred pred gain start n s before⟩

theorem score_congr {n : Nat} {p q : Nat → σ} (same : ∀ t ≤ n, p t = q t) :
    score gain start p n = score gain start q n := by
  induction n with
  | zero => rw [score, score, same 0 (Nat.le_refl 0)]
  | succ n ih =>
    rw [score, score, ih fun t before => same t (by omega), same n (by omega),
      same (n + 1) (Nat.le_refl _)]

/-- Two walks that run together from time `m` on collect the same from then on. -/
theorem score_merge {m n : Nat} (after : m ≤ n) {p q : Nat → σ}
    (same : ∀ t, m ≤ t → t ≤ n → p t = q t) :
    score gain start p n - score gain start p m = score gain start q n - score gain start q m := by
  induction n, after using Nat.le_induction with
  | base => omega
  | succ n after ih =>
    have before := ih fun t late early => same t late (by omega)
    rw [score, score, same n after (by omega), same (n + 1) (by omega) (Nat.le_refl _)]
    omega

/-- Bounds on what an edge gives bound what a walk collects. -/
theorem score_bounds {lo hi : Int} {n : Nat}
    (bounds : ∀ t < n, ∀ s s', lo ≤ gain t s s' ∧ gain t s s' ≤ hi) (p : Nat → σ) :
    start (p 0) + n * lo ≤ score gain start p n ∧
      score gain start p n ≤ start (p 0) + n * hi := by
  induction n with
  | zero => simp [score]
  | succ n ih =>
    have ih := ih fun t before => bounds t (by omega)
    have edge := bounds n (Nat.lt_succ_self n) (p n) (p (n + 1))
    have times (x : Int) : ((n + 1 : Nat) : Int) * x = n * x + x := by
      rw [Int.natCast_succ, Int.add_mul, Int.one_mul]
    have low := times lo
    have high := times hi
    rw [score, low, high]
    omega

/-- The traced walk attains the metric. -/
theorem survivor_score (n : Nat) (s : σ) :
    score gain start (survivor pred gain start n s) n = metric pred gain start n s := by
  induction n generalizing s with
  | zero => rfl
  | succ n ih =>
    have earlier : score gain start (survivor pred gain start (n + 1) s) n =
        score gain start (survivor pred gain start n (pred s (choice pred gain start n s))) n :=
      score_congr gain start fun t before => survivor_earlier pred gain start s before
    rw [score, earlier, ih, survivor_earlier pred gain start s (Nat.le_refl n), survivor_last,
      survivor_last, metric_choice]

/-- The traced walk is as good as any other walk to the same state. -/
theorem survivor_best {n : Nat} {p : Nat → σ} (walk : Walk pred n p) :
    score gain start p n ≤ score gain start (survivor pred gain start n (p n)) n := by
  rw [survivor_score]
  exact score_le_metric pred gain start n walk

end Trellis
