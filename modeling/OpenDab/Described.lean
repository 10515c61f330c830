import OpenDab.FigCalls
import Mathlib.Data.List.Basic

/-! Whatever FIGs the receiver has processed, each used record of the sub-channel table was
read from an entry of FIG 0/1 and every component of a service points into the table. -/
namespace OpenDab

open Buffers Roster

/-- The record was read from an entry of FIG 0/1, up to the flag that components set. -/
def ReadFrom (s : Subch) : Prop :=
  ∃ held fig d len, fig01Entry held fig = some (d, len) ∧ s = { d with dabplus := s.dabplus }

theorem ReadFrom.subchid {s : Subch} (read : ReadFrom s) : s.subchid < 64 := by
  obtain ⟨held, fig, d, len, entry, same⟩ := read
  rw [same]
  exact (fig01Entry_some entry).1

theorem ReadFrom.flag {s : Subch} (read : ReadFrom s) (b : Int) :
    ReadFrom { s with dabplus := b } := by
  obtain ⟨held, fig, d, len, entry, same⟩ := read
  refine ⟨held, fig, d, len, entry, ?_⟩
  rw [same]

structure Sane (e : EnsInfo) : Prop where
  described : ∀ id < 64, (e.schan id).subchid ≤ 64 → ReadFrom (e.schan id) ∧ (e.schan id).subchid = id
  pointed : ∀ p ∈ e.srv, ∀ c ∈ p.components, c < 64

theorem sane_ficinit (e : EnsInfo) : Sane (ficinit e) where
  described id small used := by
    rw [ficinit_schan e id small] at used
    omega
  pointed p member := by simp [ficinit] at member

theorem attach_components (ac : Mscstau) {s : Service} (before : ∀ c ∈ s.components, c < 64) :
    ∀ c ∈ (attach ac s).1.components, c < 64 := by
  have small := ac.subChId.isLt
  unfold attach Service.components at *
  split <;> [skip; split] <;> grind

def EnsCall.Genuine : EnsCall → Prop
  | .service _ _ => True
  | .subchannel s => ReadFrom s

theorem Sane.call {e : EnsInfo} (sane : Sane e) {call : EnsCall} (genuine : call.Genuine) :
    Sane (call.run e) := by
  constructor
  · intro id small
    rw [run_schan]
    cases call with
    | service ac sid =>
      dsimp only
      split
      · intro used
        obtain ⟨read, named⟩ := sane.described id small used
        exact ⟨read.flag _, named⟩
      · exact sane.described id small
    | subchannel s =>
      dsimp only
      split
      · next first => exact fun _ => ⟨genuine, first.1.symm⟩
      · exact sane.described id small
  · cases call with
    | service ac sid =>
      rw [EnsCall.run, addService_srv]
      refine forall_amend (by simp [Service.fresh, Service.components]) ?_ sane.pointed
      exact fun s before => attach_components ac before
    | subchannel s =>
      simp only [EnsCall.run, addSubchannel]
      split <;> exact sane.pointed

theorem fig01Calls_genuine {fuel j : Nat} {fig : Nat → UInt8} {s : Subch} {calls : List EnsCall}
    (run : fig01Calls fuel j fig s = some calls) : ∀ call ∈ calls, call.Genuine := by
  induction fuel generalizing j fig s calls with
  | zero =>
    cases run
    simp
  | succ fuel ih =>
    rw [fig01Calls] at run
    split at run
    · obtain ⟨r, entry, later⟩ := Option.bind_eq_some_iff.mp run
      obtain ⟨rest, loop, rfl⟩ := Option.map_eq_some_iff.mp later
      intro call member
      rcases List.mem_cons.mp member with rfl | old
      · exact ⟨s, fig, r.1, r.2, entry, rfl⟩
      · exact ih loop call old
    · cases run
      simp

structure Kept (holds : EnsInfo → Prop) : Prop where
  call : ∀ {e : EnsInfo} {call : EnsCall}, holds e → call.Genuine → holds (call.run e)
  ensemble : ∀ {e : EnsInfo} (fig : Nat → UInt8), holds e → holds (fig00 fig e)
  label : ∀ {e : EnsInfo} (fig : Nat → UInt8), holds e → holds (fig10 fig e)
  service : ∀ {e : EnsInfo} (fig : Nat → UInt8), holds e → holds (fig11 fig e)

section Kept

variable {holds : EnsInfo → Prop}

theorem Kept.calls (kept : Kept holds) {e : EnsInfo} (before : holds e) {calls : List EnsCall}
    (genuine : ∀ call ∈ calls, call.Genuine) : holds (calls.foldl EnsCall.run e) := by
  induction calls generalizing e with
  | nil => exact before
  | cons call rest ih =>
    have first := kept.call before (genuine call List.mem_cons_self)
    exact ih first fun other member => genuine other (List.mem_cons_of_mem _ member)

theorem Kept.unpickfig (kept : Kept holds) {s s' : FigState} (before : holds s.einf) {stack : Subch}
    {fig figlen : Nat} (handled : unpickfig stack fig figlen s = some s') : holds s'.einf := by
  unfold OpenDab.unpickfig at handled
  split at handled
  · simp only [fig0] at handled
    split at handled
    · cases handled
      exact kept.ensemble _ before
    · obtain ⟨e, run, rfl⟩ := Option.map_eq_some_iff.mp handled
      rw [fig01, fig01Loop_calls] at run
      obtain ⟨calls, made, rfl⟩ := Option.map_eq_some_iff.mp run
      exact kept.calls before (fig01Calls_genuine made)
    · cases handled
      dsimp only
      rw [fig02, fig02Loop_calls]
      refine kept.calls before fun call member => ?_
      obtain ⟨ac, sid, rfl⟩ := fig02Calls_service _ _ _ _ call member
      trivial
    · cases handled
      exact before
  · cases handled
    unfold fig1
    split
    · exact kept.label _ before
    · exact kept.service _ before
    · exact before
    · exact before
  · cases handled
    exact before

theorem Kept.fibLoop (kept : Kept holds) {s s' : FigState} (before : holds s.einf)
    {stack : Nat → Subch} {fib fuel j : Nat}
    (walked : fibLoop stack fib fuel j s = some s') : holds s'.einf := by
  induction fuel generalizing j s with
  | zero =>
    cases walked
    exact before
  | succ fuel ih =>
    rw [OpenDab.fibLoop] at walked
    split at walked
    · obtain ⟨next, first, later⟩ := Option.bind_eq_some_iff.mp walked
      exact ih (kept.unpickfig before first) later
    · cases walked
      exact before

theorem Kept.processFibs (kept : Kept holds) {s s' : FigState} (before : holds s.einf)
    {stack : Nat → Subch} {fibs : Nat} (processed : processFibs stack fibs s = some s') :
    holds s'.einf := by
  unfold OpenDab.processFibs at processed
  generalize List.range fibs = numbers at processed
  induction numbers generalizing s with
  | nil =>
    cases processed
    exact before
  | cons i rest ih =>
    rw [List.foldlM_cons] at processed
    obtain ⟨next, first, later⟩ := Option.bind_eq_some_iff.mp processed
    exact ih (kept.fibLoop before first) later

end Kept

theorem Sane.relabelled {e : EnsInfo} (sane : Sane e) (fig : Nat → UInt8) : Sane (fig11 fig e) := by
  unfold fig11 findService
  split
  · next i found =>
    refine ⟨sane.described, ?_⟩
    have revised := @modify_revise _ _ _ Service.sid (spack fig).toUInt32
      (fun s : Service => { s with label := labelString (shift fig 2) }) e.srv
    rw [found] at revised
    dsimp only at revised ⊢
    rw [revised]
    have kept : ∀ s : Service, (∀ c ∈ s.components, c < 64) →
        ∀ c ∈ ({ s with label := labelString (shift fig 2) } : Service).components, c < 64 :=
      fun s before => before
    exact forall_revise kept sane.pointed
  · exact sane

theorem sane_kept : Kept Sane where
  call sane genuine := sane.call genuine
  ensemble _ sane := ⟨sane.described, sane.pointed⟩
  label _ sane := ⟨sane.described, sane.pointed⟩
  service fig sane := sane.relabelled fig

theorem Sane.processFibs {s s' : FigState} (sane : Sane s.einf) {stack : Nat → Subch} {fibs : Nat}
    (processed : processFibs stack fibs s = some s') : Sane s'.einf :=
  sane_kept.processFibs sane processed

end OpenDab
