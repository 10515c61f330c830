import OpenDab.FigCalls
import Mathlib.Data.List.Induction
import Mathlib.Tactic.Common

/-! The DAB+ flag of a sub-channel. A component of FIG 0/2 sets it; the first descriptor
of FIG 0/1 copies a whole record over it, whose flag was never assigned. -/
namespace OpenDab

open Buffers

inductive FigBody where
  | organization (figlen : Nat) (fig : Nat → UInt8)
  | services (figlen pd : Nat) (fig : Nat → UInt8)

/-- Process bodies in order; `stack i` is what the uninitialised local of call `i` holds. -/
def runFigs (stack : Nat → Subch) : Nat → List FigBody → EnsInfo → Option EnsInfo
  | _, [], e => some e
  | i, .organization figlen fig :: rest, e =>
    (fig01 (stack i) figlen fig e).bind (runFigs stack (i + 1) rest)
  | i, .services figlen pd fig :: rest, e => runFigs stack (i + 1) rest (fig02 figlen pd fig e)

def figCalls (stack : Nat → Subch) : Nat → List FigBody → Option (List EnsCall)
  | _, [] => some []
  | i, .organization figlen fig :: rest =>
    (fig01Calls figlen figlen fig (stack i)).bind fun calls =>
      (figCalls stack (i + 1) rest).map (calls ++ ·)
  | i, .services figlen pd fig :: rest =>
    (figCalls stack (i + 1) rest).map (fig02Calls figlen pd figlen fig ++ ·)

theorem runFigs_calls (stack : Nat → Subch) (i : Nat) (figs : List FigBody) (e : EnsInfo) :
    runFigs stack i figs e = (figCalls stack i figs).map (List.foldl EnsCall.run e) := by
  induction figs generalizing i e with
  | nil => rfl
  | cons fig rest ih =>
    cases fig with
    | organization figlen fig =>
      rw [runFigs, figCalls, fig01, fig01Loop_calls]
      cases fig01Calls figlen figlen fig (stack i) with
      | none => rfl
      | some calls => simp [ih, Function.comp_def]
    | services figlen pd fig =>
      rw [runFigs, figCalls, fig02, fig02Loop_calls, ih]
      simp [Function.comp_def]

inductive Notice where
  | described (id : Nat)
  | component (id : Nat) (dabplus : Int)
  deriving DecidableEq

def EnsCall.notice : EnsCall → Notice
  | .subchannel s => .described s.subchid
  | .service ac _ => .component ac.subChId ac.dabplus

/-- Two fields of the descriptor keep what the local held; the flag is one of them. -/
theorem fig01Entry_stack (s t : Subch) (fig : Nat → UInt8) :
    fig01Entry t fig = (fig01Entry s fig).map fun r =>
      ({ r.1 with
          dabplus := t.dabplus
          uepIndx := if r.1.eepprot ≠ 0 then t.uepIndx else r.1.uepIndx }, r.2) := by
  simp only [fig01Entry]
  split
  · next long =>
    cases eeptable[bitField (ipack fig).toNat 12 3 * 4 + bitField (ipack fig).toNat 10 2]? <;>
      simp [long]
  · next short =>
    cases ueptable[bitField (ipack fig).toNat 8 6]? <;> simp [short]

/-- What FIG 0/1 announces does not depend on the local. -/
theorem fig01Calls_notice (fuel j : Nat) (fig : Nat → UInt8) (s t : Subch) :
    (fig01Calls fuel j fig s).map (List.map EnsCall.notice) =
      (fig01Calls fuel j fig t).map (List.map EnsCall.notice) := by
  induction fuel generalizing j fig s t with
  | zero => rfl
  | succ fuel ih =>
    simp only [fig01Calls, fig01Entry_stack s t]
    split
    · cases fig01Entry s fig with
      | none => rfl
      | some r =>
        have rest := ih (j - r.2) (shift fig r.2) r.1 { r.1 with
          dabplus := t.dabplus
          uepIndx := if r.1.eepprot ≠ 0 then t.uepIndx else r.1.uepIndx }
        have named := congrArg (Option.map (Notice.described r.1.subchid :: ·)) rest
        simpa [Function.comp_def, EnsCall.notice] using named
    · rfl

theorem figCalls_notice (stack stack' : Nat → Subch) (i : Nat) (figs : List FigBody) :
    (figCalls stack i figs).map (List.map EnsCall.notice) =
      (figCalls stack' i figs).map (List.map EnsCall.notice) := by
  induction figs generalizing i with
  | nil => rfl
  | cons fig rest ih =>
    cases fig with
    | organization figlen fig =>
      have head := fig01Calls_notice figlen figlen fig (stack i) (stack' i)
      have tail := ih (i + 1)
      simp only [figCalls]
      cases first : fig01Calls figlen figlen fig (stack i) <;>
        cases second : fig01Calls figlen figlen fig (stack' i) <;>
        simp only [first, second, Option.map_some, Option.map_none, Option.some.injEq,
          reduceCtorEq] at head
      · rfl
      · next calls calls' =>
        have both := congrArg (Option.map (calls.map EnsCall.notice ++ ·)) tail
        simp only [Option.map_map] at both
        simp only [Option.bind_some, Option.map_map]
        refine Eq.trans ?_ (both.trans ?_)
        · simp [Function.comp_def]
        · simp [Function.comp_def, head]
    | services figlen pd fig =>
      have both := congrArg (Option.map ((fig02Calls figlen pd figlen fig).map EnsCall.notice ++ ·))
        (ih (i + 1))
      simp only [Option.map_map] at both
      simp only [figCalls, Option.map_map]
      refine Eq.trans ?_ (both.trans ?_)
      · simp [Function.comp_def]
      · simp [Function.comp_def]

section Channel

variable (id : Nat)

/-- Without a description the record keeps its identifier. -/
theorem undescribed_subchid (calls : List EnsCall) (e : EnsInfo)
    (silent : .described id ∉ calls.map EnsCall.notice) :
    ((calls.foldl EnsCall.run e).schan id).subchid = (e.schan id).subchid := by
  induction calls generalizing e with
  | nil => rfl
  | cons call rest ih =>
    simp only [List.map_cons, List.mem_cons, not_or] at silent
    rw [List.foldl_cons, ih _ silent.2, run_schan]
    cases call with
    | service ac sid => dsimp only; split <;> rfl
    | subchannel s =>
      have apart : id ≠ s.subchid := fun same => silent.1 (same ▸ rfl)
      simp [apart]

theorem described_stays (calls : List EnsCall) (e : EnsInfo) (used : (e.schan id).subchid ≤ 64) :
    ((calls.foldl EnsCall.run e).schan id).subchid ≤ 64 := by
  induction calls generalizing e with
  | nil => exact used
  | cons call rest ih =>
    refine ih _ ?_
    rw [run_schan]
    cases call with
    | service ac sid => dsimp only; split <;> exact used
    | subchannel s =>
      have taken : ¬(id = s.subchid ∧ (e.schan id).subchid > 64) := by omega
      simpa only [if_neg taken] using used

theorem described_subchid (small : id < 64) (calls : List EnsCall) (e : EnsInfo)
    (announced : .described id ∈ calls.map EnsCall.notice) :
    ((calls.foldl EnsCall.run e).schan id).subchid ≤ 64 := by
  induction calls generalizing e with
  | nil => simp at announced
  | cons call rest ih =>
    rw [List.foldl_cons]
    rw [List.map_cons, List.mem_cons] at announced
    rcases announced with here | later
    · refine described_stays id rest _ ?_
      rw [run_schan]
      cases call with
      | service ac sid => cases here
      | subchannel s =>
        have same : id = s.subchid := by simpa [EnsCall.notice] using here
        dsimp only
        split
        · omega
        · next taken => omega
    · exact ih _ later

/-- After its description, and without components, the record does not change. -/
theorem quiet_schan (calls : List EnsCall) (e : EnsInfo)
    (quiet : ∀ b, .component id b ∉ calls.map EnsCall.notice)
    (settled : (e.schan id).subchid ≤ 64 ∨ .described id ∉ calls.map EnsCall.notice) :
    (calls.foldl EnsCall.run e).schan id = e.schan id := by
  induction calls generalizing e with
  | nil => rfl
  | cons call rest ih =>
    simp only [List.map_cons, List.mem_cons, not_or] at quiet settled
    have same : (call.run e).schan id = e.schan id := by
      rw [run_schan]
      cases call with
      | service ac sid =>
        have apart : id ≠ ac.subChId := fun same => (quiet ac.dabplus).1 (same ▸ rfl)
        simp [apart]
      | subchannel s =>
        refine if_neg ?_
        rintro ⟨here, free⟩
        rcases settled with used | ⟨silent, -⟩
        · omega
        · exact silent (here ▸ rfl)
    rw [List.foldl_cons, ih _ (fun b => (quiet b).2) (by
      rw [same]
      exact settled.imp_right And.right), same]

end Channel

/-- The first description of the sub-channel, if there is one, comes before its last component. -/
def InTime (id : Nat) (notices : List Notice) : Prop :=
  ∀ before after, notices = before ++ .described id :: after → .described id ∉ before →
    ∃ b, .component id b ∈ after

def EnsCall.component : EnsCall → Option Mscstau
  | .service ac _ => some ac
  | .subchannel _ => none

def figComponents (figs : List FigBody) : List Mscstau :=
  figs.flatMap fun
    | .organization _ _ => []
    | .services figlen pd fig => (fig02Calls figlen pd figlen fig).filterMap EnsCall.component

def lastComponent (id : Nat) (figs : List FigBody) : Option Mscstau :=
  (figComponents figs).reverse.find? (·.subChId.val = id)

/-- The FIGs make their calls without leaving a table, and `notices` is what these announce. -/
def Announces (figs : List FigBody) (notices : List Notice) : Prop :=
  ∀ stack, (figCalls stack 0 figs).map (List.map EnsCall.notice) = some notices

theorem fig01Calls_subchannel {fuel j : Nat} {fig : Nat → UInt8} {s : Subch}
    {calls : List EnsCall} (run : fig01Calls fuel j fig s = some calls) :
    ∀ call ∈ calls, ∃ d : Subch, call = .subchannel d ∧ d.dabplus = s.dabplus := by
  induction fuel generalizing j fig s calls with
  | zero =>
    cases run
    simp
  | succ fuel ih =>
    rw [fig01Calls] at run
    split at run
    · obtain ⟨r, entry, later⟩ := Option.bind_eq_some_iff.mp run
      obtain ⟨rest, loop, rfl⟩ := Option.map_eq_some_iff.mp later
      have flag := (fig01Entry_some entry).2
      intro call member
      rcases List.mem_cons.mp member with rfl | old
      · exact ⟨r.1, rfl, flag⟩
      · obtain ⟨d, same, kept⟩ := ih loop call old
        exact ⟨d, same, kept.trans flag⟩
    · cases run
      simp

theorem figCalls_components {stack : Nat → Subch} {i : Nat} {figs : List FigBody}
    {calls : List EnsCall} (run : figCalls stack i figs = some calls) :
    calls.filterMap EnsCall.component = figComponents figs := by
  induction figs generalizing i calls with
  | nil =>
    cases run
    rfl
  | cons fig rest ih =>
    cases fig with
    | organization figlen fig =>
      obtain ⟨first, entries, later⟩ := Option.bind_eq_some_iff.mp run
      obtain ⟨others, loop, rfl⟩ := Option.map_eq_some_iff.mp later
      have none : first.filterMap EnsCall.component = [] := by
        rw [List.filterMap_eq_nil_iff]
        intro call member
        obtain ⟨d, rfl, -⟩ := fig01Calls_subchannel entries call member
        rfl
      rw [List.filterMap_append, none, ih loop]
      rfl
    | services figlen pd fig =>
      obtain ⟨others, loop, rfl⟩ := Option.map_eq_some_iff.mp run
      rw [List.filterMap_append, ih loop]
      rfl

theorem figCalls_flag {s : Subch} {i : Nat} {figs : List FigBody} {calls : List EnsCall}
    (run : figCalls (fun _ => s) i figs = some calls) :
    ∀ d, EnsCall.subchannel d ∈ calls → d.dabplus = s.dabplus := by
  induction figs generalizing i calls with
  | nil =>
    cases run
    simp
  | cons fig rest ih =>
    intro d member
    cases fig with
    | organization figlen fig =>
      obtain ⟨first, entries, later⟩ := Option.bind_eq_some_iff.mp run
      obtain ⟨others, loop, rfl⟩ := Option.map_eq_some_iff.mp later
      rcases List.mem_append.mp member with here | old
      · obtain ⟨d', same, flag⟩ := fig01Calls_subchannel entries _ here
        cases same
        exact flag
      · exact ih loop d old
    | services figlen pd fig =>
      obtain ⟨others, loop, rfl⟩ := Option.map_eq_some_iff.mp run
      rcases List.mem_append.mp member with here | old
      · obtain ⟨ac, sid, same⟩ := fig02Calls_service _ _ _ _ _ here
        cases same
      · exact ih loop d old

/-- The calls up to the last component of a sub-channel, and those after it. -/
theorem split_last {id : Nat} {figs : List FigBody} {ac : Mscstau} {calls : List EnsCall}
    (last : lastComponent id figs = some ac)
    (components : calls.filterMap EnsCall.component = figComponents figs) :
    ac.subChId = id ∧ ∃ before sid after, calls = before ++ .service ac sid :: after ∧
      ∀ b, Notice.component id b ∉ after.map EnsCall.notice := by
  obtain ⟨found, later, earlier, split, others⟩ := List.find?_eq_some_iff_append.mp last
  have order : figComponents figs = earlier.reverse ++ ac :: later.reverse := by
    rw [← List.reverse_reverse (figComponents figs), split]
    simp
  rw [order] at components
  obtain ⟨before, rest, split, -, tail⟩ := List.filterMap_eq_append_iff.mp components
  obtain ⟨silent, call, after, same, quiet, here, behind⟩ := List.filterMap_eq_cons_iff.mp tail
  cases call with
  | subchannel d => cases here
  | service ac' sid =>
    cases here
    refine ⟨by simpa using found, before ++ silent, sid, after, by simp [split, same], ?_⟩
    intro b member
    obtain ⟨call, member, notice⟩ := List.mem_map.mp member
    cases call with
    | subchannel d => cases notice
    | service other sid =>
      have listed : other ∈ after.filterMap EnsCall.component :=
        List.mem_filterMap.mpr ⟨_, member, rfl⟩
      rw [behind, List.mem_reverse] at listed
      have apart := others other listed
      simp only [EnsCall.notice, Notice.component.injEq] at notice
      simp [notice.1] at apart

/-- Once its description comes in time, the last component decides the flag. -/
theorem flag_of_inTime {id : Nat} (small : id < 64) {before after : List EnsCall} {ac : Mscstau}
    {sid : UInt32} (named : ac.subChId = id)
    (quiet : ∀ b, .component id b ∉ after.map EnsCall.notice)
    (inTime : InTime id ((before ++ .service ac sid :: after).map EnsCall.notice)) (e : EnsInfo) :
    (((before ++ .service ac sid :: after).foldl EnsCall.run e).schan id).dabplus = ac.dabplus := by
  rw [List.foldl_append, List.foldl_cons, quiet_schan id after _ quiet ?_]
  · rw [run_schan]
    simp [named]
  · by_cases announced : .described id ∈ before.map EnsCall.notice
    · left
      rw [run_schan]
      have used := described_subchid id small before e announced
      dsimp only
      split <;> exact used
    · right
      intro later
      obtain ⟨between, rest, split, fresh⟩ := List.eq_append_cons_of_mem later
      obtain ⟨b, member⟩ := inTime (before.map EnsCall.notice ++
          EnsCall.notice (.service ac sid) :: between) rest (by simp [split]) (by
        simp only [List.mem_append, List.mem_cons, EnsCall.notice, reduceCtorEq, false_or, not_or]
        exact ⟨announced, fresh⟩)
      exact quiet b (by simp [split, member])

/-- When the first description comes last, the flag is what the local held. -/
theorem flag_of_late {id : Nat} (small : id < 64) {calls : List EnsCall}
    {before after : List Notice}
    (notices : calls.map EnsCall.notice = before ++ .described id :: after)
    (first : .described id ∉ before) (quiet : ∀ b, .component id b ∉ after) (e : EnsInfo)
    (unused : (e.schan id).subchid > 64) :
    ∃ d, EnsCall.subchannel d ∈ calls ∧ (calls.foldl EnsCall.run e).schan id = d := by
  obtain ⟨early, rest, rfl, rfl, tail⟩ := List.map_eq_append_iff.mp notices
  obtain ⟨call, late, rfl, here, rfl⟩ := List.map_eq_cons_iff.mp tail
  cases call with
  | service ac sid => cases here
  | subchannel d =>
    have named : d.subchid = id := by simpa [EnsCall.notice] using here
    have free : ((early.foldl EnsCall.run e).schan id).subchid > 64 := by
      rwa [undescribed_subchid id early e first]
    have copied : ((EnsCall.subchannel d).run (early.foldl EnsCall.run e)).schan id = d := by
      rw [run_schan]
      exact if_pos ⟨named.symm, free⟩
    refine ⟨d, by simp, ?_⟩
    rw [List.foldl_append, List.foldl_cons, quiet_schan id late _ quiet (.inl ?_), copied]
    rw [copied]
    omega

theorem dabplus_settled_iff (e : EnsInfo) (figs : List FigBody) (id : Nat) (ac : Mscstau)
    (last : lastComponent id figs = some ac) :
    (∀ stack, ∃ e', runFigs stack 0 figs (ficinit e) = some e' ∧
      (e'.schan id).dabplus = if ac.ascTy = 0x3f then 1 else 0) ↔
    ∃ notices, Announces figs notices ∧ InTime id notices := by
  have small : id < 64 := by
    have named := List.find?_some last
    have := ac.subChId.isLt
    simp only [decide_eq_true_eq] at named
    omega
  constructor
  · intro settled
    have calls (stack : Nat → Subch) : ∃ calls, figCalls stack 0 figs = some calls ∧
        (((calls.foldl EnsCall.run (ficinit e)).schan id).dabplus = 0 ∨
          ((calls.foldl EnsCall.run (ficinit e)).schan id).dabplus = 1) := by
      obtain ⟨e', run, flag⟩ := settled stack
      rw [runFigs_calls] at run
      obtain ⟨calls, made, rfl⟩ := Option.map_eq_some_iff.mp run
      refine ⟨calls, made, ?_⟩
      rw [flag]
      split <;> simp
    -- a local whose flag is neither 0 nor 1
    obtain ⟨made, run, flag⟩ := calls fun _ => ⟨0, 0, 0, 0, 0, 0, 0, 2⟩
    refine ⟨made.map EnsCall.notice, fun stack => ?_, fun before after notices first => ?_⟩
    · rw [figCalls_notice stack fun _ => ⟨0, 0, 0, 0, 0, 0, 0, 2⟩, run]
      rfl
    · by_contra quiet
      obtain ⟨d, member, record⟩ := flag_of_late small notices first (not_exists.mp quiet)
        (ficinit e) (by rw [ficinit_schan e id small]; decide)
      have junk := figCalls_flag run d member
      rw [record, junk] at flag
      simp at flag
  · rintro ⟨notices, announces, inTime⟩ stack
    obtain ⟨calls, made, rfl⟩ := Option.map_eq_some_iff.mp (announces stack)
    obtain ⟨named, before, sid, after, rfl, quiet⟩ := split_last last (figCalls_components made)
    refine ⟨_, by rw [runFigs_calls, made]; rfl, ?_⟩
    exact flag_of_inTime small named quiet inTime (ficinit e)

/-- A DAB+ component of sub-channel 5 followed by the description of the sub-channel. -/
def lateDescription : List FigBody :=
  [.services 5 0 (ofList [0xe1, 0xc0, 0x01, 0x3f, 0x16] fun _ => 0),
    .organization 3 (ofList [0x14, 0x00, 0x00] fun _ => 0)]

/-- The flag that the component set is lost when the local happens to hold 0. -/
theorem late_description_clears_flag :
    lastComponent 5 lateDescription = some ⟨0, 1, 5, 0x3f, 0⟩ ∧
    (runFigs (fun _ => ⟨0, 0, 0, 0, 0, 0, 0, 0⟩) 0 lateDescription (ficinit einf)).map
      (fun e => (e.schan 5).dabplus) = some 0 := by
  decide +kernel

theorem dabplus_settled_in_time :
    ∃ e', runFigs (fun _ => ⟨0, 0, 0, 0, 0, 0, 0, 0⟩) 0 lateDescription.reverse (ficinit einf) =
      some e' ∧ (e'.schan 5).dabplus = 1 := by
  refine (dabplus_settled_iff einf lateDescription.reverse 5 ⟨0, 1, 5, 0x3f, 0⟩
    (by decide +kernel)).mpr ⟨[.described 5, .component 5 1], fun stack => ?_, ?_⟩ _
  · rw [figCalls_notice stack fun _ => ⟨0, 0, 0, 0, 0, 0, 0, 0⟩]
    decide +kernel
  · intro before after split first
    match before, split with
    | [], split =>
      obtain ⟨-, rfl⟩ := List.cons.inj split
      exact ⟨1, List.mem_singleton_self _⟩
    | [_], split => simp at split
    | _ :: _ :: before, split => simp at split

end OpenDab
