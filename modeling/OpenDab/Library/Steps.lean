import Mathlib.Data.List.Induction
import Mathlib.Tactic.Common

/-! Runs as lists, one entry for each step. What holds at every step is said of an entry and the
ones before it, `earlier ++ [a] <+: l`. -/
namespace Steps

variable {holds : List α → α → Prop}

/-- A step of a longer run is its last one, or one of the run before. -/
theorem inside_push {l earlier : List α} {a b : α} (inside : earlier ++ [b] <+: l ++ [a]) :
    (earlier = l ∧ b = a) ∨ earlier ++ [b] <+: l := by
  rcases List.prefix_concat_iff.mp inside with whole | shorter
  · exact .inl (List.append_singleton_inj.mp whole)
  · exact .inr shorter

theorem mem_of_inside {l earlier : List α} {a : α} (inside : earlier ++ [a] <+: l) : a ∈ l :=
  inside.subset (List.mem_append_right _ (List.mem_singleton_self a))

theorem inside_first {l earlier rest : List α} {a : α} (inside : earlier ++ a :: rest <+: l) :
    earlier ++ [a] <+: l := by
  rw [List.append_cons] at inside
  exact (List.prefix_append _ _).trans inside

/-- One more step. -/
theorem forall_push {l : List α} {a : α} :
    (∀ earlier b, earlier ++ [b] <+: l ++ [a] → holds earlier b) ↔
      (∀ earlier b, earlier ++ [b] <+: l → holds earlier b) ∧ holds l a := by
  constructor
  · intro every
    exact ⟨fun earlier b before => every earlier b (before.trans (List.prefix_append _ _)),
      every l a List.prefix_rfl⟩
  · rintro ⟨every, last⟩ earlier b before
    rcases inside_push before with ⟨rfl, rfl⟩ | shorter
    · exact last
    · exact every earlier b shorter

theorem forall_nil (earlier : List α) (b : α) (before : earlier ++ [b] <+: []) : holds earlier b := by
  simp at before

theorem forall_of_take {l : List α} (every : ∀ k (bound : k < l.length), holds (l.take k) l[k]) :
    ∀ earlier a, earlier ++ [a] <+: l → holds earlier a := by
  rintro earlier a ⟨rest, rfl⟩
  simpa using every earlier.length (by simp)

/-- The induction rule for runs: what each step keeps, given the condition at that step, holds
after all of them. -/
theorem invariant (inv : List α → Prop) (start : inv [])
    (step : ∀ earlier a, inv earlier → holds earlier a → inv (earlier ++ [a])) {l : List α}
    (every : ∀ earlier a, earlier ++ [a] <+: l → holds earlier a) : inv l := by
  induction l using List.reverseRecOn with
  | nil => exact start
  | append_singleton l a ih =>
    obtain ⟨before, last⟩ := forall_push.mp every
    exact step l a (ih before) last

/-- What the steps of a machine show, up to the first one that is not defined. -/
def trace {σ ε : Type} (step : σ → α → Option (σ × ε)) (s : σ) : List α → List ε
  | [] => []
  | a :: inputs =>
    match step s a with
    | none => []
    | some (s', e) => e :: trace step s' inputs

section Trace

variable {σ ε : Type} {step : σ → α → Option (σ × ε)} {inv : List ε → σ → Prop}
  {law : List ε → ε → Prop}
  (keeps : ∀ shown s a s' e, inv shown s → step s a = some (s', e) →
    law shown e ∧ inv (shown ++ [e]) s')
include keeps

theorem trace_law_from {shown : List ε} {s : σ} (start : inv shown s) (inputs : List α) :
    ∀ earlier e, earlier ++ [e] <+: trace step s inputs → law (shown ++ earlier) e := by
  induction inputs generalizing shown s with
  | nil => exact forall_nil
  | cons a inputs ih =>
    intro earlier e inside
    rw [trace] at inside
    cases stepped : step s a with
    | none =>
      rw [stepped] at inside
      simp at inside
    | some r =>
      obtain ⟨s', first⟩ := r
      obtain ⟨allowed, next⟩ := keeps shown s a s' first start stepped
      rw [stepped] at inside
      cases earlier with
      | nil =>
        obtain ⟨rfl, -⟩ := List.cons_prefix_cons.mp inside
        rwa [List.append_nil]
      | cons head earlier =>
        obtain ⟨rfl, within⟩ := List.cons_prefix_cons.mp inside
        rw [List.append_cons]
        exact ih next earlier e within

/-- The induction rule for traces: a step from a state that belongs to what has been shown shows what
is allowed, and leads to such a state again. -/
theorem trace_law {s : σ} (start : inv [] s) (inputs : List α) :
    ∀ earlier e, earlier ++ [e] <+: trace step s inputs → law earlier e :=
  trace_law_from keeps start inputs

end Trace

end Steps
