import Mathlib.Data.List.Nodup
import Mathlib.Tactic.Common

/-! Doubly linked lists in a memory of nodes, given by the links of every address. The
shape of a list is the sequence of its addresses; a walk along `next` sees these in order. -/
namespace Chain

/-- From `start` the nodes `addrs` are linked in both directions, the first one back to `before`. -/
def Linked (next prev : Nat → Option Nat) : Option Nat → Option Nat → List Nat → Prop
  | _, start, [] => start = none
  | before, start, a :: rest => start = some a ∧ prev a = before ∧ Linked next prev (some a) (next a) rest

/-- `while (p != NULL) { if (stop(p)) break; p = p->next; }`, for as many nodes as the fuel allows. -/
def walk (next : Nat → Option Nat) (stop : Nat → Bool) : Nat → Option Nat → Option (Option Nat)
  | _, none => some none
  | 0, some _ => none
  | fuel + 1, some a => if stop a then some (some a) else walk next stop fuel (next a)

variable {next prev : Nat → Option Nat} {before start : Option Nat} {addrs : List Nat}

/-- A walk along a list comes to an end, at the first node that stops it. -/
theorem Linked.walk_eq (linked : Linked next prev before start addrs) (stop : Nat → Bool)
    {fuel : Nat} (enough : addrs.length ≤ fuel) :
    walk next stop fuel start = some (addrs.find? stop) := by
  induction addrs generalizing before start fuel with
  | nil =>
    rw [show start = none from linked]
    cases fuel <;> rfl
  | cons a rest ih =>
    obtain ⟨rfl, -, tail⟩ := linked
    obtain ⟨fuel, rfl⟩ : ∃ n, fuel = n + 1 := ⟨fuel - 1, by rw [List.length_cons] at enough; omega⟩
    rw [walk, List.find?_cons, ih tail (by simpa using enough)]
    cases stop a <;> rfl

theorem Linked.congr {next' prev' : Nat → Option Nat} (linked : Linked next prev before start addrs)
    (same : ∀ a ∈ addrs, next' a = next a ∧ prev' a = prev a) :
    Linked next' prev' before start addrs := by
  induction addrs generalizing before start with
  | nil => exact linked
  | cons a rest ih =>
    obtain ⟨first, back, tail⟩ := linked
    obtain ⟨forth, back'⟩ := same a List.mem_cons_self
    refine ⟨first, back'.trans back, ?_⟩
    rw [forth]
    exact ih tail fun b member => same b (List.mem_cons_of_mem _ member)

/-- Nodes are linked forward as the list is ordered, and the last one ends it. -/
theorem Linked.next_eq (linked : Linked next prev before start addrs) {i : Nat} {a : Nat}
    (here : addrs[i]? = some a) : next a = addrs[i + 1]? := by
  induction addrs generalizing before start i with
  | nil => simp at here
  | cons b rest ih =>
    obtain ⟨-, -, tail⟩ := linked
    cases i with
    | zero =>
      obtain rfl : b = a := by simpa using here
      cases rest with
      | nil => exact tail
      | cons c rest => exact tail.1
    | succ i => exact ih tail (by simpa using here)

/-- Nodes are linked backward to the one before them. -/
theorem Linked.prev_eq (linked : Linked next prev before start addrs) {i : Nat} {a : Nat}
    (here : addrs[i]? = some a) : prev a = if i = 0 then before else addrs[i - 1]? := by
  induction addrs generalizing before start i with
  | nil => simp at here
  | cons b rest ih =>
    obtain ⟨-, back, tail⟩ := linked
    cases i with
    | zero =>
      obtain rfl : b = a := by simpa using here
      exact back
    | succ i =>
      rw [ih tail (by simpa using here), if_neg (Nat.succ_ne_zero i), Nat.add_sub_cancel]
      cases i with
      | zero => rfl
      | succ i => rfl

theorem Linked.start_eq (linked : Linked next prev before start addrs) : start = addrs.head? := by
  cases addrs with
  | nil => exact linked
  | cons a rest => exact linked.1

/-- The links determine the nodes. -/
theorem Linked.unique {before' : Option Nat} {addrs' : List Nat}
    (linked : Linked next prev before start addrs)
    (linked' : Linked next prev before' start addrs') : addrs = addrs' := by
  induction addrs generalizing before before' start addrs' with
  | nil =>
    cases addrs' with
    | nil => rfl
    | cons b rest => exact absurd (linked.symm.trans linked'.1) (Option.some_ne_none b).symm
  | cons a rest ih =>
    cases addrs' with
    | nil => exact absurd (linked'.symm.trans linked.1) (Option.some_ne_none a).symm
    | cons b rest' =>
      obtain rfl : a = b := Option.some.inj (linked.1.symm.trans linked'.1)
      rw [ih linked.2.2 linked'.2.2]

/-- The node without a successor is the last one. -/
theorem Linked.find_end (linked : Linked next prev before start addrs) :
    addrs.find? (fun a => decide (next a = none)) = addrs.getLast? := by
  induction addrs generalizing before start with
  | nil => rfl
  | cons a rest ih =>
    obtain ⟨-, -, tail⟩ := linked
    cases rest with
    | nil =>
      have ends : next a = none := tail
      simp [ends]
    | cons b rest =>
      have continues : next a = some b := tail.1
      rw [List.find?_cons, decide_eq_false (by simp [continues]), ih tail, List.getLast?_cons_cons]

theorem Linked.last_next (linked : Linked next prev before start addrs) {last : Nat}
    (ends : addrs.getLast? = some last) : next last = none := by
  rw [← linked.find_end] at ends
  simpa using List.find?_some ends

theorem Linked.append {next' prev' : Nat → Option Nat} (linked : Linked next prev before start addrs)
    {last new : Nat} (ends : addrs.getLast? = some last)
    (kept : ∀ a ∈ addrs, a ≠ last → next' a = next a) (back : ∀ a ∈ addrs, prev' a = prev a)
    (forth : next' last = some new) (newPrev : prev' new = some last) (newNext : next' new = none) :
    Linked next' prev' before start (addrs ++ [new]) := by
  induction addrs generalizing before start with
  | nil => simp at ends
  | cons a rest ih =>
    have final := linked.last_next ends
    obtain ⟨first, link, tail⟩ := linked
    refine ⟨first, (back a List.mem_cons_self).trans link, ?_⟩
    cases rest with
    | nil =>
      obtain rfl : a = last := by simpa using ends
      exact ⟨forth, newPrev, newNext⟩
    | cons b rest =>
      have apart : a ≠ last := by
        rintro rfl
        rw [tail.1] at final
        cases final
      rw [kept a List.mem_cons_self apart]
      rw [List.getLast?_cons_cons] at ends
      exact ih tail ends (fun c member => kept c (List.mem_cons_of_mem _ member)) fun c member =>
        back c (List.mem_cons_of_mem _ member)

end Chain
