import OpenDab.TimeInterleaving
import Mathlib.Data.List.Induction

/-! The circular buffer under any sequence of insertions and resets. What counts is the history
since the last reset: it fixes what a call returns and what the slots hold. -/
namespace OpenDab

open Buffers

inductive CbufCall where
  | insert (symdata : Nat → UInt8)
  | reset

section Runs

variable (sr : Symrange) (memory : Nat → Nat → UInt8)

def CbufCall.run (s : Cbuf) : CbufCall → Cbuf × Bool
  | .insert symdata => wcbuf symdata bitspersym sr false s
  | .reset => wcbuf (fun _ => 0) 0 sr true s

def cbufRun (calls : List CbufCall) : Cbuf :=
  calls.foldl (fun s call => (call.run sr s).1) (Cbuf.initial memory)

/-- The symbols inserted since the last reset, or since the start. -/
def inserted (calls : List CbufCall) : List SymbolBits :=
  calls.foldl (fun history call => match call with
    | .insert symdata => history ++ [symbolBits symdata]
    | .reset => []) []

theorem cbufRun_push (calls : List CbufCall) (call : CbufCall) :
    cbufRun sr memory (calls ++ [call]) = (call.run sr (cbufRun sr memory calls)).1 := by
  simp [cbufRun]

theorem inserted_insert (calls : List CbufCall) (symdata : Nat → UInt8) :
    inserted (calls ++ [.insert symdata]) = inserted calls ++ [symbolBits symdata] := by
  simp [inserted]

theorem inserted_reset (calls : List CbufCall) : inserted (calls ++ [.reset]) = [] := by
  simp [inserted]

variable {sr}

/-- The buffer stands for the history since the last reset, whatever was called before. -/
theorem cbufRun_holds (positive : 0 < sr.numsyms) (calls : List CbufCall) :
    Holds sr.numsyms (inserted calls) (cbufRun sr memory calls) := by
  induction calls using List.reverseRecOn with
  | nil => exact .inl ⟨rfl, initial_blank memory⟩
  | append_singleton calls call ih =>
    rw [cbufRun_push]
    cases call with
    | insert symdata =>
      rw [inserted_insert]
      exact holds_push (wcbuf_insert sr _ _ symdata positive ih).1
    | reset =>
      rw [inserted_reset]
      exact .inl ⟨rfl, (wcbuf_reset _ _ _ _ sr _ ih).1⟩

/-- A group is complete after so many items exactly when their number is a multiple. -/
theorem completes_iff {len n : Nat} (positive : 0 < n) :
    15 ≤ len / n ∧ len % n + 1 = n ↔ ∃ k, 16 ≤ k ∧ len + 1 = k * n := by
  constructor
  · rintro ⟨late, last⟩
    have whole := Nat.div_add_mod len n
    refine ⟨len / n + 1, by omega, ?_⟩
    rw [Nat.add_mul, Nat.mul_comm (len / n)]
    omega
  · rintro ⟨k, late, total⟩
    obtain ⟨item, number, group, place⟩ := Ring.group_end (k - 1) positive
    rw [Nat.sub_add_cancel (by omega)] at number
    obtain rfl : len = item := by omega
    omega

theorem resets_idle (n : Nat) (later : List CbufCall) :
    cbufRun sr memory (List.replicate n .reset ++ later) = cbufRun sr memory later := by
  have idle : (CbufCall.reset.run sr (Cbuf.initial memory)).1 = Cbuf.initial memory := by
    have same : loop 16 (fun i cb => store cb i { cb i with syms := 0 }) (Cbuf.initial memory).cb =
        (Cbuf.initial memory).cb := by
      refine loop_invariant (fun _ cb => cb = (Cbuf.initial memory).cb) rfl ?_
      rintro i - cb rfl
      exact store_self _ i
    simp only [CbufCall.run, wcbuf, if_true, same]
    rfl
  induction n with
  | zero => rfl
  | succ n ih =>
    rw [List.replicate_succ, List.cons_append, cbufRun, List.foldl_cons, idle]
    exact ih

/-- A call returns true exactly at the end of a group from the sixteenth on, the slots then hold the
last sixteen groups, and resets before the first insertion change nothing. -/
theorem cbuf_exact (positive : 0 < sr.numsyms) (calls : List CbufCall) (call : CbufCall) :
    ((call.run sr (cbufRun sr memory calls)).2 = true ↔ (∃ symdata, call = .insert symdata) ∧
      ∃ k, 16 ≤ k ∧ (inserted (calls ++ [call])).length = k * sr.numsyms) ∧
    (∀ symdata k, call = .insert symdata → (inserted (calls ++ [call])).length = k * sr.numsyms →
      ∀ j, max 1 (k - 15) ≤ j → j ≤ k → ∀ place < sr.numsyms,
        some (cell (cbufRun sr memory (calls ++ [call])) ((j - 1) % 16) place) =
          (inserted (calls ++ [call]))[(j - 1) * sr.numsyms + place]?) ∧
    ∀ n, cbufRun sr memory (List.replicate n .reset ++ calls) = cbufRun sr memory calls := by
  have holds := cbufRun_holds memory positive calls
  refine ⟨?_, fun symdata k insertion total j early late place inside => ?_,
    fun n => resets_idle memory n calls⟩
  · cases call with
    | insert symdata =>
      rw [inserted_insert, List.length_append, List.length_singleton, CbufCall.run,
        (wcbuf_insert sr _ _ symdata positive holds).2, decide_eq_true_iff, completes_iff positive]
      exact ⟨fun done => ⟨⟨symdata, rfl⟩, done⟩, And.right⟩
    | reset =>
      rw [CbufCall.run, (wcbuf_reset _ _ _ _ sr _ holds).2]
      exact ⟨(nomatch ·), fun ⟨⟨_, insertion⟩, _⟩ => by cases insertion⟩
  · subst insertion
    have filled := (wcbuf_insert sr _ _ symdata positive holds).1
    rw [inserted_insert] at total ⊢
    rw [cbufRun_push, CbufCall.run]
    obtain ⟨item, number, group, -⟩ := Ring.group_end (k - 1) positive
    rw [Nat.sub_add_cancel (by omega)] at number
    have bound : (j - 1) * sr.numsyms + place < (inserted calls ++ [symbolBits symdata]).length := by
      have rows := Nat.mul_le_mul_right sr.numsyms (show j - 1 + 1 ≤ k by omega)
      rw [Nat.add_mul, Nat.one_mul] at rows
      omega
    rw [List.getElem?_eq_getElem bound, filled.held.lookup (j - 1) place inside bound ?_]
    rw [total, number, Nat.add_sub_cancel, group]
    omega

end Runs

/-- Sixteen symbols complete the buffer, counted from a reset. -/
theorem cbuf_exact_reset :
    let sr : Symrange := ⟨fun _ => 0, fun _ => 0, 0, 0, 1⟩
    let calls := [.insert fun _ => 0, .reset] ++ List.replicate 15 (.insert fun _ => 0)
    ((CbufCall.insert fun _ => 0).run sr (cbufRun sr (fun _ _ => 0) calls)).2 = true := by
  intro sr calls
  apply (cbuf_exact (fun _ _ => 0) (by decide) calls _).1.mpr
  exact ⟨⟨_, rfl⟩, 16, by decide, by decide⟩

end OpenDab
