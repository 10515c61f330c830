import Mathlib.Algebra.GroupWithZero.Nat
import Mathlib.Logic.Function.Basic

/-! Counted loops over flat buffers. A buffer is a total map from offsets to
cells, and a loop body sees its index as the body of `for (i = 0; i < n; i++)` does. -/
namespace Buffers

/-- `for (i = 0; i < n; i++) s = body(i, s)`. -/
def loop (n : Nat) (body : Nat → σ → σ) (s : σ) : σ :=
  Nat.fold n (fun i _ s => body i s) s

@[simp] theorem loop_zero (body : Nat → σ → σ) (s : σ) : loop 0 body s = s := rfl

theorem loop_succ (n : Nat) (body : Nat → σ → σ) (s : σ) :
    loop (n + 1) body s = body n (loop n body s) := by
  simp [loop, Nat.fold_succ]

theorem loop_add (n k : Nat) (body : Nat → σ → σ) (s : σ) :
    loop (n + k) body s = loop k (fun i => body (n + i)) (loop n body s) := by
  induction k with
  | zero => rfl
  | succ k ih => rw [← Nat.add_assoc, loop_succ, loop_succ, ih]

/-- The induction rule for counted loops: what one iteration preserves holds after all. -/
theorem loop_invariant (holds : Nat → σ → Prop) {n : Nat} {body : Nat → σ → σ} {s : σ}
    (start : holds 0 s) (step : ∀ i < n, ∀ s, holds i s → holds (i + 1) (body i s)) :
    holds n (loop n body s) := by
  induction n with
  | zero => exact start
  | succ n ih =>
    rw [loop_succ]
    exact step n (by omega) _ (ih fun i hi => step i (by omega))

theorem loop_congr {n : Nat} {first second : Nat → σ → σ} {s : σ}
    (same : ∀ i < n, ∀ s, first i s = second i s) : loop n first s = loop n second s := by
  induction n with
  | zero => rfl
  | succ n ih =>
    rw [loop_succ, loop_succ, ih fun i hi => same i (by omega), same n (by omega)]

theorem loop_idle {n : Nat} {body : Nat → σ → σ} {s : σ}
    (idle : ∀ i < n, ∀ s, body i s = s) : loop n body s = s := by
  apply loop_invariant (fun _ t => t = s) rfl
  intro i hi t same
  rw [idle i hi, same]

/-- When only one iteration does anything, the loop is that iteration. -/
theorem loop_only {n i : Nat} {body : Nat → σ → σ} {s : σ} (bound : i < n)
    (idle : ∀ j < n, j ≠ i → ∀ s, body j s = s) : loop n body s = body i s := by
  obtain ⟨k, rfl⟩ : ∃ k, n = (i + 1) + k := ⟨n - (i + 1), by omega⟩
  rw [loop_add, loop_idle fun j hj t => idle (i + 1 + j) (by omega) (by omega) t, loop_succ,
    loop_idle fun j hj t => idle j (by omega) (by omega) t]

def store (m : Nat → α) (address : Nat) (value : α) : Nat → α :=
  Function.update m address value

@[simp] theorem store_same (m : Nat → α) (address : Nat) (value : α) :
    store m address value address = value := by simp [store]

@[simp] theorem store_other (m : Nat → α) {address other : Nat} (value : α)
    (apart : other ≠ address) : store m address value other = m other := by
  simp [store, apart]

theorem store_apply (m : Nat → α) (address other : Nat) (value : α) :
    store m address value other = if other = address then value else m other := by
  simp [store, Function.update_apply]

@[simp] theorem store_self (m : Nat → α) (address : Nat) : store m address (m address) = m :=
  Function.update_eq_self address m

/-- `memcpy(dst + offset, src, len)`. -/
def copy (dst : Nat → α) (offset : Nat) (src : Nat → α) (len : Nat) : Nat → α :=
  fun address => if offset ≤ address ∧ address < offset + len then src (address - offset)
    else dst address

@[simp] theorem copy_inside (dst : Nat → α) (offset : Nat) (src : Nat → α) {len i : Nat}
    (inside : i < len) : copy dst offset src len (offset + i) = src i := by
  simp [copy, inside]

theorem copy_outside (dst : Nat → α) {offset address : Nat} (src : Nat → α) {len : Nat}
    (outside : address < offset ∨ offset + len ≤ address) :
    copy dst offset src len address = dst address := by
  have apart : ¬(offset ≤ address ∧ address < offset + len) := by omega
  simp [copy, apart]

theorem copy_congr (dst : Nat → α) (offset : Nat) {src src' : Nat → α} {len : Nat}
    (same : ∀ i < len, src i = src' i) : copy dst offset src len = copy dst offset src' len := by
  funext address
  unfold copy
  split
  · exact same _ (by omega)
  · rfl

/-- `p + offset`, as a view of the same memory. -/
def shift (m : Nat → α) (offset : Nat) : Nat → α := fun i => m (offset + i)

@[simp] theorem shift_apply (m : Nat → α) (offset i : Nat) : shift m offset i = m (offset + i) := rfl

/-- Two copies of consecutive parts are one copy. -/
theorem copy_shift (dst src : Nat → α) (offset n k : Nat) :
    copy (copy dst offset src n) (offset + n) (shift src n) k = copy dst offset src (n + k) := by
  funext address
  simp only [copy, shift_apply]
  by_cases second : offset + n ≤ address ∧ address < offset + n + k
  · rw [if_pos second, if_pos (by omega), show n + (address - (offset + n)) = address - offset by omega]
  · rw [if_neg second]
    by_cases first : offset ≤ address ∧ address < offset + n
    · rw [if_pos first, if_pos (by omega)]
    · rw [if_neg first, if_neg (by omega)]

def ofList (l : List α) (rest : Nat → α) : Nat → α := fun i => l.getD i (rest i)

@[simp] theorem shift_shift (m : Nat → α) (a b : Nat) : shift (shift m a) b = shift m (a + b) := by
  funext i
  simp [Nat.add_assoc]

@[simp] theorem shift_zero (m : Nat → α) : shift m 0 = m := by
  funext i
  simp

def Begins (m : Nat → α) (l : List α) : Prop := ∀ i (bound : i < l.length), m i = l[i]

theorem Begins.nil (m : Nat → α) : Begins m [] := fun i bound => absurd bound (Nat.not_lt_zero i)

theorem begins_cons (m : Nat → α) (a : α) (l : List α) :
    Begins m (a :: l) ↔ m 0 = a ∧ Begins (shift m 1) l := by
  constructor
  · intro begins
    refine ⟨begins 0 (by simp), fun i bound => ?_⟩
    have cell := begins (i + 1) (by simpa using bound)
    simpa [Nat.add_comm 1] using cell
  · rintro ⟨first, rest⟩ i bound
    cases i with
    | zero => exact first
    | succ i =>
      have cell := rest i (by simpa using bound)
      simpa [Nat.add_comm 1] using cell

theorem begins_append (m : Nat → α) (l l' : List α) :
    Begins m (l ++ l') ↔ Begins m l ∧ Begins (shift m l.length) l' := by
  induction l generalizing m with
  | nil => simp [Begins.nil]
  | cons a l ih => simp [begins_cons, ih, and_assoc, Nat.add_comm]

theorem begins_ofList (l : List α) (rest : Nat → α) : Begins (ofList l rest) l := by
  intro i bound
  simp [ofList, List.getD_eq_getElem?_getD, bound]

theorem loop_frame {n : Nat} {body : Nat → (Nat → α) → Nat → α} {m : Nat → α} {address : Nat}
    (keeps : ∀ i < n, ∀ m, body i m address = m address) :
    loop n body m address = m address := by
  apply loop_invariant (fun _ (s : Nat → α) => s address = m address) rfl
  intro i hi s before
  rw [keeps i hi, before]

/-- A cell holds what the last iteration that writes it put there. -/
theorem loop_last_write {n i : Nat} {body : Nat → (Nat → α) → Nat → α} {m : Nat → α}
    {address : Nat} {value : α} (bound : i < n) (write : ∀ m, body i m address = value)
    (keeps : ∀ j, i < j → j < n → ∀ m, body j m address = m address) :
    loop n body m address = value := by
  obtain ⟨k, rfl⟩ : ∃ k, n = (i + 1) + k := ⟨n - (i + 1), by omega⟩
  rw [loop_add, loop_frame (fun j hj m => keeps (i + 1 + j) (by omega) (by omega) m), loop_succ, write]

/-- Iterations that own disjoint sets of cells fill each owned cell independently. -/
theorem loop_owned {n : Nat} {body : Nat → (Nat → α) → Nat → α} (owner : Nat → Nat)
    (value : Nat → α)
    (own : ∀ i < n, ∀ m address, owner address = i → body i m address = value address)
    (keeps : ∀ i < n, ∀ m address, owner address ≠ i → body i m address = m address)
    (m : Nat → α) (address : Nat) :
    loop n body m address = if owner address < n then value address else m address := by
  split
  · next bound =>
    exact loop_last_write bound (fun m => own _ bound m _ rfl)
      (fun j lt hj m => keeps j hj m _ (by omega))
  · next outside =>
    exact loop_frame fun i hi m => keeps i hi m _ (by omega)

/-- A loop that stores at consecutive offsets is a block copy. -/
theorem loop_store (width base : Nat) (value : Nat → α) (m : Nat → α) :
    loop width (fun j m => store m (base + j) (value j)) m = copy m base value width := by
  funext address
  by_cases inside : base ≤ address ∧ address < base + width
  · obtain ⟨j, rfl⟩ : ∃ j, address = base + j := ⟨address - base, by omega⟩
    rw [copy_inside m base value (by omega)]
    refine loop_last_write (i := j) (by omega) (fun m => store_same ..) ?_
    intro k lt _ m
    exact store_other _ _ (by omega)
  · rw [copy_outside m value (by omega)]
    refine loop_frame fun k hk m => store_other _ _ ?_
    omega

/-- Copying block `i` to `width * i` for every `i` lays the blocks out contiguously. -/
theorem loop_copy (n width : Nat) (positive : 0 < width) (value : Nat → Nat → α) (m : Nat → α)
    (address : Nat) :
    loop n (fun i m => copy m (i * width) (value i) width) m address =
      if address / width < n then value (address / width) (address % width) else m address := by
  refine loop_owned (· / width) (fun a => value (a / width) (a % width)) ?_ ?_ m address
  · rintro i _ m a rfl
    have inside := copy_inside m (width * (a / width)) (value (a / width)) (Nat.mod_lt a positive)
    rw [Nat.div_add_mod] at inside
    simpa only [Nat.mul_comm] using inside
  · intro i _ m a apart
    refine copy_outside _ _ ?_
    rcases Nat.lt_or_gt_of_ne apart with lt | gt
    · exact .inl ((Nat.div_lt_iff_lt_mul positive).mp lt)
    · right
      have := (Nat.le_div_iff_mul_le positive).mp gt
      rwa [Nat.succ_mul] at this

def cells (m : Nat → α) (offset len : Nat) : List α := (List.range' offset len).map m

@[simp] theorem cells_zero (m : Nat → α) (offset : Nat) : cells m offset 0 = [] := rfl

@[simp] theorem length_cells (m : Nat → α) (offset len : Nat) : (cells m offset len).length = len := by
  simp [cells]

theorem cells_add (m : Nat → α) (offset n k : Nat) :
    cells m offset (n + k) = cells m offset n ++ cells m (offset + n) k := by
  rw [cells, ← List.range'_append_1, List.map_append]
  rfl

theorem cells_congr {m m' : Nat → α} {offset len : Nat}
    (same : ∀ i < len, m (offset + i) = m' (offset + i)) :
    cells m offset len = cells m' offset len := by
  refine List.map_congr_left fun a member => ?_
  obtain ⟨i, inside, rfl⟩ := List.mem_range'.mp member
  rw [Nat.one_mul]
  exact same i inside

theorem cells_eq_map (m : Nat → α) (offset len : Nat) :
    cells m offset len = (List.range len).map fun i => m (offset + i) := by
  rw [cells, List.range'_eq_map_range, List.map_map]
  rfl

/-- Two pieces are the same when they agree cell by cell. -/
theorem cells_eq_iff {m m' : Nat → α} {offset offset' len : Nat} :
    cells m offset len = cells m' offset' len ↔ ∀ i < len, m (offset + i) = m' (offset' + i) := by
  simp only [cells_eq_map, List.map_inj_left, List.mem_range]

theorem cells_shift (m : Nat → α) (base offset len : Nat) :
    cells (shift m base) offset len = cells m (base + offset) len := by
  induction len with
  | zero => rfl
  | succ len ih => rw [cells_add, cells_add, ih, Nat.add_assoc]; rfl

theorem cells_begins {m : Nat → α} {l : List α} (begins : Begins m l) : cells m 0 l.length = l := by
  refine List.ext_getElem (by simp) fun i inside inside' => ?_
  simp [cells, begins i inside']

theorem begins_getD {m : Nat → α} {l : List α} (begins : Begins m l) {i : Nat} (inside : i < l.length)
    (rest : α) : m i = l.getD i rest := by
  rw [begins i inside, List.getD_eq_getElem?_getD, List.getElem?_eq_getElem inside, Option.getD_some]

theorem cells_copy (dst src : Nat → α) (offset len : Nat) :
    cells (copy dst offset src len) offset len = cells src 0 len := by
  rw [← Nat.add_zero offset, ← cells_shift _ offset]
  refine cells_congr fun i inside => ?_
  rw [Nat.zero_add, shift_apply, Nat.add_zero, copy_inside _ _ _ inside]

end Buffers
