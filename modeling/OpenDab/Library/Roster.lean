import Mathlib.Algebra.GroupWithZero.Nat
import Mathlib.Data.List.Basic
import Mathlib.Data.List.Nodup

/-! A list of entries under distinct keys, in order of first appearance. An entry is
looked up by its key, and an update appends a fresh entry when the key is new. -/
namespace Roster

variable {α κ : Type} [DecidableEq κ] (key : α → κ)

def lookup (k : κ) (l : List α) : Option α := l.find? (key · = k)

/-- Apply `f` to the entry under `k`, appending `fresh` first if there is none. -/
def amend (k : κ) (fresh : α) (f : α → α) : List α → List α
  | [] => [f fresh]
  | a :: rest => if key a = k then f a :: rest else a :: amend k fresh f rest

def revise (k : κ) (f : α → α) : List α → List α
  | [] => []
  | a :: rest => if key a = k then f a :: rest else a :: revise k f rest

@[simp] theorem lookup_nil (k : κ) : lookup key k [] = none := rfl

theorem lookup_cons (k : κ) (a : α) (l : List α) :
    lookup key k (a :: l) = if key a = k then some a else lookup key k l := by
  by_cases same : key a = k <;> simp [lookup, same]

theorem lookup_eq_getElem? (k : κ) (l : List α) :
    lookup key k l = (l.findIdx? (key · = k)).bind (l[·]?) := by
  induction l with
  | nil => rfl
  | cons a rest ih =>
    rw [lookup_cons, List.findIdx?_cons, ih]
    by_cases same : key a = k
    · simp [same]
    · cases rest.findIdx? (key · = k) <;> simp [same]

variable {key}

theorem lookup_key {k : κ} {l : List α} {a : α} (found : lookup key k l = some a) : key a = k := by
  simpa using List.find?_some found

theorem mem_of_lookup {k : κ} {l : List α} {a : α} (found : lookup key k l = some a) : a ∈ l :=
  List.mem_of_find?_eq_some found

theorem lookup_of_mem {l : List α} {a : α} (distinct : (l.map key).Nodup) (member : a ∈ l) :
    lookup key (key a) l = some a := by
  induction l with
  | nil => simp at member
  | cons b rest ih =>
    rw [List.map_cons, List.nodup_cons] at distinct
    rw [lookup_cons]
    rcases List.mem_cons.mp member with rfl | later
    · rw [if_pos rfl]
    · have apart : key b ≠ key a := fun same =>
        distinct.1 (same ▸ List.mem_map_of_mem later)
      rw [if_neg apart]
      exact ih distinct.2 later

section Amend

variable {k : κ} {fresh : α} {f : α → α} (named : key fresh = k) (keeps : ∀ a, key (f a) = key a)
include named keeps

theorem lookup_amend_same (l : List α) :
    lookup key k (amend key k fresh f l) = some (f ((lookup key k l).getD fresh)) := by
  induction l with
  | nil => simp [amend, lookup_cons, keeps, named]
  | cons a rest ih =>
    by_cases same : key a = k
    · simp [amend, same, lookup_cons, keeps]
    · simp [amend, same, lookup_cons, ih]

theorem lookup_amend_other {other : κ} (apart : other ≠ k) (l : List α) :
    lookup key other (amend key k fresh f l) = lookup key other l := by
  induction l with
  | nil => simp [amend, lookup_cons, keeps, named, apart.symm]
  | cons a rest ih =>
    by_cases same : key a = k
    · simp [amend, same, lookup_cons, keeps, apart.symm]
    · simp [amend, same, lookup_cons, ih]

theorem keys_amend (l : List α) : (amend key k fresh f l).map key =
    if k ∈ l.map key then l.map key else l.map key ++ [k] := by
  induction l with
  | nil => simp [amend, keeps, named]
  | cons a rest ih =>
    by_cases same : key a = k
    · simp [amend, same, keeps]
    · have apart : k ≠ key a := fun eq => same eq.symm
      simp only [amend, if_neg same, List.map_cons, ih, List.mem_cons, apart, false_or]
      split <;> rfl

theorem nodup_amend {l : List α} (distinct : (l.map key).Nodup) :
    ((amend key k fresh f l).map key).Nodup := by
  rw [keys_amend named keeps]
  split
  · exact distinct
  · next absent => exact List.nodup_append.mpr ⟨distinct, by simp, by simpa using absent⟩

theorem mem_amend {l : List α} (distinct : (l.map key).Nodup) {a : α} :
    a ∈ amend key k fresh f l ↔
      a = f ((lookup key k l).getD fresh) ∨ (a ∈ l ∧ key a ≠ k) := by
  have nodup := nodup_amend named keeps distinct
  have same := lookup_amend_same named keeps l
  constructor
  · intro member
    have found := lookup_of_mem nodup member
    by_cases hit : key a = k
    · rw [hit, same] at found
      exact .inl (Option.some.inj found).symm
    · rw [lookup_amend_other named keeps hit] at found
      exact .inr ⟨mem_of_lookup found, hit⟩
  · rintro (rfl | ⟨member, apart⟩)
    · exact mem_of_lookup same
    · have found := lookup_of_mem distinct member
      rw [← lookup_amend_other named keeps apart] at found
      exact mem_of_lookup found

end Amend

/-- What `f` keeps and `fresh` has goes on holding of every entry. -/
theorem forall_amend {k : κ} {fresh : α} {f : α → α} {holds : α → Prop} (new : holds fresh)
    (keeps : ∀ a, holds a → holds (f a)) {l : List α} (before : ∀ a ∈ l, holds a) :
    ∀ a ∈ amend key k fresh f l, holds a := by
  induction l with
  | nil => simpa [amend] using keeps fresh new
  | cons b rest ih =>
    rw [List.forall_mem_cons] at before
    rw [amend]
    split
    · exact List.forall_mem_cons.mpr ⟨keeps b before.1, before.2⟩
    · exact List.forall_mem_cons.mpr ⟨before.1, ih before.2⟩

theorem forall_revise {k : κ} {f : α → α} {holds : α → Prop} (keeps : ∀ a, holds a → holds (f a))
    {l : List α} (before : ∀ a ∈ l, holds a) : ∀ a ∈ revise key k f l, holds a := by
  induction l with
  | nil => exact before
  | cons b rest ih =>
    rw [List.forall_mem_cons] at before
    rw [revise]
    split
    · exact List.forall_mem_cons.mpr ⟨keeps b before.1, before.2⟩
    · exact List.forall_mem_cons.mpr ⟨before.1, ih before.2⟩

/-- A weight summed over the list changes by what `f` adds to the entry. -/
theorem sum_amend (k : κ) (fresh : α) (f : α → α) (weight : α → Nat) (empty : weight fresh = 0)
    (l : List α) :
    ((amend key k fresh f l).map weight).sum + weight ((lookup key k l).getD fresh) =
      (l.map weight).sum + weight (f ((lookup key k l).getD fresh)) := by
  induction l with
  | nil => simp [amend, empty]
  | cons a rest ih =>
    by_cases same : key a = k
    · simp only [amend, same, lookup_cons, if_true, Option.getD_some, List.map_cons, List.sum_cons]
      omega
    · simp only [amend, same, lookup_cons, if_false, List.map_cons, List.sum_cons]
      omega

/-- Finding the index of a key, or appending, and then overwriting that place is an amendment. -/
theorem set_amend (k : κ) (fresh : α) (f : α → α) (l : List α) :
    (match l.findIdx? (key · = k) with
      | some i => l.set i (f (l[i]?.getD fresh))
      | none => l ++ [f fresh]) = amend key k fresh f l := by
  induction l with
  | nil => rfl
  | cons a rest ih =>
    by_cases same : key a = k
    · simp [List.findIdx?_cons, amend, same]
    · rw [List.findIdx?_cons, amend, if_neg same, ← ih]
      cases rest.findIdx? (key · = k) <;> simp [same]

/-- Finding the index of a key and modifying that place is a revision. -/
theorem modify_revise (k : κ) (f : α → α) (l : List α) :
    (match l.findIdx? (key · = k) with
      | some i => l.modify i f
      | none => l) = revise key k f l := by
  induction l with
  | nil => rfl
  | cons a rest ih =>
    by_cases same : key a = k
    · simp [List.findIdx?_cons, revise, same]
    · rw [List.findIdx?_cons, revise, if_neg same, ← ih]
      cases rest.findIdx? (key · = k) <;> simp [same]

end Roster
