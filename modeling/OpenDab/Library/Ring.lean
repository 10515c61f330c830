import Mathlib.Data.Nat.ModEq

/-! A ring of `m` slots with `n` places each, filled place by place. Item `k` of
the insertion history belongs to group `k / n`, which occupies slot `k / n % m`
until the ring comes round again. -/
namespace Ring

/-- The step from item `k` to item `k + 1` either fills the group or stays inside it. -/
theorem next_place (k n : Nat) (positive : 0 < n) :
    (k % n + 1 = n ∧ (k + 1) / n = k / n + 1 ∧ (k + 1) % n = 0) ∨
    (k % n + 1 < n ∧ (k + 1) / n = k / n ∧ (k + 1) % n = k % n + 1) := by
  have whole := Nat.div_add_mod k n
  have small := Nat.mod_lt k positive
  by_cases last : k % n + 1 = n
  · left
    have value : (k + 1) / n = k / n + 1 ∧ (k + 1) % n = 0 := by
      apply (Nat.div_mod_unique positive).mpr
      rw [Nat.mul_add, Nat.mul_one]
      omega
    exact ⟨last, value⟩
  · right
    have value : (k + 1) / n = k / n ∧ (k + 1) % n = k % n + 1 := by
      apply (Nat.div_mod_unique positive).mpr
      omega
    exact ⟨by omega, value⟩

/-- Every item of the last `m` groups is still in its place. -/
def Held (n m : Nat) (history : List α) (cell : Nat → Nat → α) : Prop :=
  ∀ (k : Nat) (bound : k < history.length), (history.length - 1) / n < k / n + m →
    cell (k / n % m) (k % n) = history[k]

theorem Held.nil (n m : Nat) (cell : Nat → Nat → α) : Held n m [] cell := by
  intro k bound
  simp at bound

/-- Two groups less than one turn apart that share a slot are the same group. -/
theorem slot_injective {m a b : Nat} (order : a ≤ b) (near : b < a + m)
    (same : a % m = b % m) : a = b := by
  obtain ⟨d, rfl⟩ := Nat.exists_eq_add_of_le order
  have divides : m ∣ d := by
    have := (Nat.modEq_iff_dvd' order).mp same
    rwa [Nat.add_sub_cancel_left] at this
  have := Nat.eq_zero_of_dvd_of_lt divides (by omega)
  omega

/-- Writing the next item into its place, and nothing else, keeps the window. -/
theorem Held.push {n m : Nat} {history : List α} {cell next : Nat → Nat → α} {item : α}
    (held : Held n m history cell) (positive : 0 < n)
    (written : next (history.length / n % m) (history.length % n) = item)
    (kept : ∀ slot place, slot < m → place < n →
      ¬(slot = history.length / n % m ∧ place = history.length % n) →
      next slot place = cell slot place) : Held n m (history ++ [item]) next := by
  intro k bound recent
  simp only [List.length_append, List.length_singleton, Nat.add_sub_cancel] at bound recent
  by_cases last : k = history.length
  · subst last
    simpa using written
  · have inside : k < history.length := by omega
    have slots : 0 < m := by
      have := Nat.div_le_div_right (c := n) inside.le
      omega
    have apart : ¬(k / n % m = history.length / n % m ∧ k % n = history.length % n) := by
      rintro ⟨slot, place⟩
      have group := slot_injective (Nat.div_le_div_right inside.le) recent slot
      have first := Nat.div_add_mod k n
      have second := Nat.div_add_mod history.length n
      rw [group, place] at first
      omega
    have older : (history.length - 1) / n < k / n + m :=
      (Nat.div_le_div_right (Nat.sub_le _ _)).trans_lt recent
    rw [kept _ _ (Nat.mod_lt _ slots) (Nat.mod_lt _ positive) apart, held k inside older]
    exact (List.getElem_append_left inside).symm

theorem item_position (g : Nat) {n place : Nat} (inside : place < n) :
    (g * n + place) / n = g ∧ (g * n + place) % n = place := by
  apply (Nat.div_mod_unique (by omega)).mpr
  rw [Nat.mul_comm]
  omega

/-- The last item of group `g` ends it. -/
theorem group_end (g : Nat) {n : Nat} (positive : 0 < n) :
    ∃ k, (g + 1) * n = k + 1 ∧ k / n = g ∧ k % n = n - 1 := by
  refine ⟨g * n + (n - 1), ?_, item_position g (by omega)⟩
  rw [Nat.add_mul, Nat.one_mul]
  omega

/-- The item that completes its group comes after all items of the groups so far. -/
theorem group_complete {k n g place : Nat} (last : k % n + 1 = n) (early : g ≤ k / n)
    (inside : place < n) : g * n + place ≤ k := by
  have whole := Nat.div_add_mod k n
  have rows := Nat.mul_le_mul_left n early
  rw [Nat.mul_comm g n]
  omega

/-- Reading the window by group and place. -/
theorem Held.lookup {n m : Nat} {history : List α} {cell : Nat → Nat → α}
    (held : Held n m history cell) (g place : Nat) (inside : place < n)
    (bound : g * n + place < history.length) (recent : (history.length - 1) / n < g + m) :
    cell (g % m) place = history[g * n + place] := by
  obtain ⟨group, position⟩ := item_position g inside
  have stored := held (g * n + place) bound (by rwa [group])
  rwa [group, position] at stored

end Ring
