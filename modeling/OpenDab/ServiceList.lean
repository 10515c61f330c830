import OpenDab.Selection
import OpenDab.Library.Chain

/-! The service list with its pointers. `find_service` and the append of `add_service` walk
along `next` in a memory of nodes; what they leave is a doubly linked list of the
services that the list model of the ensemble holds. -/
namespace OpenDab

open Buffers Roster Chain

/-- `struct service` with its links; addresses are numbers. -/
structure ServiceNode extends Service where
  next : Option Nat
  prev : Option Nat

/-- `struct ens_info` and the memory behind its pointers; `malloc` has given out the addresses
below `used`, and a pointer into `schan` is an index. -/
structure LinkedEns where
  label : List UInt8
  eid : UInt16
  numSrvs : Nat
  numSchans : Nat
  srv : Option Nat
  schan : Nat → Subch
  nodes : Nat → ServiceNode
  used : Nat

namespace LinkedEns

def ficinit (e : LinkedEns) : LinkedEns :=
  { e with
    numSchans := 0, numSrvs := 0, srv := none
    schan := loop 64 (fun j schan => store schan j { schan j with subchid := 0xffff }) e.schan }

def findService (e : LinkedEns) (sid : UInt32) : Option (Option Nat) :=
  walk (fun a => (e.nodes a).next) (fun a => (e.nodes a).sid = sid) e.used e.srv

def modify (e : LinkedEns) (a : Nat) (f : ServiceNode → ServiceNode) : LinkedEns :=
  { e with nodes := store e.nodes a (f (e.nodes a)) }

/-- `malloc` a service and set its fields; `prev` keeps what the memory held. -/
def allocService (e : LinkedEns) (sid : UInt32) : LinkedEns :=
  { e with used := e.used + 1 }.modify e.used fun node =>
    { node with label := [], sid := sid, next := none, pa := none, sa := none }

def linkFirst (e : LinkedEns) (s : Nat) : LinkedEns :=
  { e with srv := some s }.modify s fun node => { node with next := none, prev := none }

def linkBehind (e : LinkedEns) (ptr s : Nat) : LinkedEns :=
  (e.modify ptr fun node => { node with next := some s }).modify s fun node =>
    { node with prev := some ptr }

def linkService (e : LinkedEns) (s : Nat) : Option LinkedEns :=
  match e.srv with
  | none => some (e.linkFirst s)
  | some ptr =>
    (walk (fun a => (e.nodes a).next) (fun a => (e.nodes a).next = none) e.used (some ptr)).map
      fun last => match last with
        | some ptr => e.linkBehind ptr s
        | none => e

def recordComponent (e : LinkedEns) (s : Nat) (ac : Mscstau) : LinkedEns :=
  let schan := store e.schan ac.subChId
    { e.schan ac.subChId with dabplus := if ac.ascTy = 0x3f then 1 else 0 }
  let attached := attach ac (e.nodes s).toService
  { e.modify s fun node => { node with toService := attached.1 } with
    numSrvs := e.numSrvs + attached.2, schan := schan }

def addService (e : LinkedEns) (ac : Mscstau) (sid : UInt32) : Option LinkedEns :=
  (e.findService sid).bind fun found =>
    match found with
    | some s => some (e.recordComponent s ac)
    | none => ((e.allocService sid).linkService e.used).map fun e' => e'.recordComponent e.used ac

/-- `ficinit` and a sequence of calls; a walk that does not end gives `none`. -/
def run (e : LinkedEns) (calls : List (Mscstau × UInt32)) : Option LinkedEns :=
  calls.foldlM (fun e call => e.addService call.1 call.2) e.ficinit

/-- The list that starts at `srv` has the nodes `addrs`, holds the services of `ens` and agrees
with it in all that is not a pointer. -/
structure Represents (e : LinkedEns) (addrs : List Nat) (ens : EnsInfo) : Prop where
  linked : Linked (fun a => (e.nodes a).next) (fun a => (e.nodes a).prev) none e.srv addrs
  services : addrs.map (fun a => (e.nodes a).toService) = ens.srv
  owned : ∀ a ∈ addrs, a < e.used
  room : addrs.length ≤ e.used
  label : e.label = ens.label
  eid : e.eid = ens.eid
  numSrvs : e.numSrvs = ens.numSrvs
  numSchans : e.numSchans = ens.numSchans
  schan : e.schan = ens.schan

@[simp] theorem modify_same (e : LinkedEns) (a : Nat) (f : ServiceNode → ServiceNode) :
    (e.modify a f).nodes a = f (e.nodes a) := by
  simp [modify]

@[simp] theorem modify_other (e : LinkedEns) {a b : Nat} (apart : b ≠ a)
    (f : ServiceNode → ServiceNode) : (e.modify a f).nodes b = e.nodes b := by
  simp [modify, apart]

section Step

variable {e : LinkedEns} {addrs : List Nat} {ens : EnsInfo}

/-- `find_service` ends, at the first node with the service id. -/
theorem Represents.findService_eq (represents : e.Represents addrs ens) (sid : UInt32) :
    e.findService sid = some (addrs.find? fun a => (e.nodes a).sid = sid) :=
  represents.linked.walk_eq _ represents.room

theorem Represents.lookup_eq (represents : e.Represents addrs ens) (sid : UInt32) :
    lookup Service.sid sid ens.srv =
      (addrs.find? fun a => (e.nodes a).sid = sid).map fun a => (e.nodes a).toService := by
  rw [← represents.services, lookup, List.find?_map]
  rfl

/-- Amending the services of distinct nodes changes the one that is found. -/
theorem amend_found {service : Nat → Service} {f : Service → Service} {fresh : Service}
    {sid : UInt32} {s : Nat} (nodup : addrs.Nodup)
    (found : addrs.find? (fun a => (service a).sid = sid) = some s) :
    amend Service.sid sid fresh f (addrs.map service) =
      addrs.map fun a => if a = s then f (service a) else service a := by
  induction addrs with
  | nil => simp at found
  | cons a rest ih =>
    obtain ⟨absent, nodup⟩ := List.nodup_cons.mp nodup
    rw [List.map_cons, List.map_cons, amend]
    rw [List.find?_cons] at found
    by_cases same : (service a).sid = sid
    · obtain rfl : a = s := by simpa [same] using found
      rw [if_pos same, if_pos rfl]
      refine congrArg _ (List.map_congr_left fun b member => (if_neg ?_).symm)
      rintro rfl
      exact absent member
    · rw [decide_eq_false same] at found
      have named : (service s).sid = sid := by simpa using List.find?_some found
      have apart : a ≠ s := fun eq => same (eq ▸ named)
      rw [if_neg same, if_neg apart, ih nodup found]

/-- Recording a component at the node of its service is what the list model does. -/
theorem Represents.record (represents : e.Represents addrs ens)
    (distinct : (ens.srv.map Service.sid).Nodup) (ac : Mscstau) {sid : UInt32} {s : Nat}
    (found : addrs.find? (fun a => (e.nodes a).sid = sid) = some s) :
    (e.recordComponent s ac).Represents addrs (OpenDab.addService ens ac sid) := by
  have nodup : addrs.Nodup := by
    rw [← represents.services, List.map_map] at distinct
    exact List.Nodup.of_map _ distinct
  have entry : (lookup Service.sid sid ens.srv).getD (Service.fresh sid) = (e.nodes s).toService := by
    rw [represents.lookup_eq, found]
    rfl
  have links (a : Nat) : ((e.recordComponent s ac).nodes a).next = (e.nodes a).next ∧
      ((e.recordComponent s ac).nodes a).prev = (e.nodes a).prev := by
    by_cases here : a = s <;> simp [recordComponent, modify, here]
  refine ⟨represents.linked.congr fun a _ => links a, ?_, represents.owned, represents.room,
    represents.label, represents.eid, ?_, represents.numSchans, ?_⟩
  · rw [addService_srv, ← represents.services, amend_found nodup found]
    refine List.map_congr_left fun a _ => ?_
    by_cases here : a = s <;> simp [recordComponent, modify, here]
  · rw [addService_numSrvs, entry, ← represents.numSrvs]
    rfl
  · change store e.schan ac.subChId _ = store ens.schan ac.subChId _
    rw [represents.schan]

theorem Represents.allocated (represents : e.Represents addrs ens) (sid : UInt32) {a : Nat}
    (member : a ∈ addrs) : (e.allocService sid).nodes a = e.nodes a :=
  modify_other _ (Nat.ne_of_lt (represents.owned a member)) _

/-- The new node goes behind the last one, or becomes the first. -/
theorem Represents.linkService_eq (represents : e.Represents addrs ens) (sid : UInt32) :
    (e.allocService sid).linkService e.used = some (match addrs.getLast? with
      | none => (e.allocService sid).linkFirst e.used
      | some last => (e.allocService sid).linkBehind last e.used) := by
  have linked : Linked (fun a => ((e.allocService sid).nodes a).next)
      (fun a => ((e.allocService sid).nodes a).prev) none e.srv addrs :=
    represents.linked.congr fun a member => by
      rw [represents.allocated sid member]
      exact ⟨rfl, rfl⟩
  have ends := linked.walk_eq (fun a => ((e.allocService sid).nodes a).next = none)
    (Nat.le_succ_of_le represents.room)
  rw [linked.find_end, represents.linked.start_eq] at ends
  have start : (e.allocService sid).srv = addrs.head? := represents.linked.start_eq
  have used : (e.allocService sid).used = e.used + 1 := rfl
  unfold linkService
  cases addrs with
  | nil =>
    rw [start]
    rfl
  | cons a rest =>
    obtain ⟨last, final⟩ : ∃ last, (a :: rest).getLast? = some last :=
      ⟨_, List.getLast?_eq_some_getLast (List.cons_ne_nil a rest)⟩
    rw [final, List.head?_cons] at ends
    rw [start, final, List.head?_cons, used]
    simp only [ends, Option.map_some]

theorem alloc_node (e : LinkedEns) (sid : UInt32) :
    (e.allocService sid).nodes e.used = ⟨Service.fresh sid, none, (e.nodes e.used).prev⟩ :=
  modify_same _ _ _

theorem Represents.extend (represents : e.Represents addrs ens) {e' : LinkedEns} {sid : UInt32}
    (linked : Linked (fun a => (e'.nodes a).next) (fun a => (e'.nodes a).prev) none e'.srv
      (addrs ++ [e.used]))
    (new : (e'.nodes e.used).toService = Service.fresh sid)
    (old : ∀ a ∈ addrs, (e'.nodes a).toService = (e.nodes a).toService)
    (rest : { e' with srv := e.srv, nodes := e.nodes } = { e with used := e.used + 1 }) :
    e'.Represents (addrs ++ [e.used]) { ens with srv := ens.srv ++ [Service.fresh sid] } := by
  obtain ⟨label, eid, numSrvs, numSchans, schan, used⟩ : e'.label = e.label ∧ e'.eid = e.eid ∧
      e'.numSrvs = e.numSrvs ∧ e'.numSchans = e.numSchans ∧ e'.schan = e.schan ∧
      e'.used = e.used + 1 := by
    simpa using rest
  refine ⟨linked, ?_, ?_, ?_, label.trans represents.label, eid.trans represents.eid,
    numSrvs.trans represents.numSrvs, numSchans.trans represents.numSchans,
    schan.trans represents.schan⟩
  · rw [List.map_append, List.map_singleton, new, ← represents.services, List.map_congr_left old]
  · intro a member
    rw [used]
    rcases List.mem_append.mp member with before | here
    · exact Nat.lt_succ_of_lt (represents.owned a before)
    · rw [List.mem_singleton.mp here]
      exact Nat.lt_succ_self _
  · rw [List.length_append, used]
    exact Nat.succ_le_succ represents.room

theorem Represents.linkFirst (represents : e.Represents [] ens) (sid : UInt32) :
    ((e.allocService sid).linkFirst e.used).Represents [e.used]
      { ens with srv := ens.srv ++ [Service.fresh sid] } := by
  have node : ((e.allocService sid).linkFirst e.used).nodes e.used =
      ⟨Service.fresh sid, none, none⟩ := by
    rw [LinkedEns.linkFirst, modify_same]
    dsimp only
    rw [alloc_node]
  have linked : Linked (fun a => (((e.allocService sid).linkFirst e.used).nodes a).next)
      (fun a => (((e.allocService sid).linkFirst e.used).nodes a).prev) none
      ((e.allocService sid).linkFirst e.used).srv [e.used] := by
    refine ⟨rfl, ?_, ?_⟩
    · dsimp only
      rw [node]
    · dsimp only
      rw [node]
      rfl
  exact represents.extend linked (by rw [node]) (fun a member => by cases member) rfl

theorem Represents.linkBehind (represents : e.Represents addrs ens) {last : Nat}
    (final : addrs.getLast? = some last) (sid : UInt32) :
    ((e.allocService sid).linkBehind last e.used).Represents (addrs ++ [e.used])
      { ens with srv := ens.srv ++ [Service.fresh sid] } := by
  have fresh : ∀ a ∈ addrs, a ≠ e.used := fun a member => Nat.ne_of_lt (represents.owned a member)
  have member : last ∈ addrs := List.mem_of_getLast? final
  have new : ((e.allocService sid).linkBehind last e.used).nodes e.used =
      ⟨Service.fresh sid, none, some last⟩ := by
    rw [LinkedEns.linkBehind, modify_same, modify_other _ (fresh last member).symm, alloc_node]
  have link : ((e.allocService sid).linkBehind last e.used).nodes last =
      { e.nodes last with next := some e.used } := by
    rw [LinkedEns.linkBehind, modify_other _ (fresh last member), modify_same,
      represents.allocated sid member]
  have old : ∀ a ∈ addrs, a ≠ last →
      ((e.allocService sid).linkBehind last e.used).nodes a = e.nodes a := by
    intro a inside apart
    rw [LinkedEns.linkBehind, modify_other _ (fresh a inside), modify_other _ apart,
      represents.allocated sid inside]
  have same : ∀ a ∈ addrs,
      (((e.allocService sid).linkBehind last e.used).nodes a).toService = (e.nodes a).toService ∧
      (((e.allocService sid).linkBehind last e.used).nodes a).prev = (e.nodes a).prev := by
    intro a inside
    by_cases here : a = last
    · rw [here, link]
      exact ⟨rfl, rfl⟩
    · rw [old a inside here]
      exact ⟨rfl, rfl⟩
  refine represents.extend ?_ (by rw [new]) (fun a inside => (same a inside).1) rfl
  refine represents.linked.append final (fun a inside apart => ?_) (fun a inside => (same a inside).2)
    ?_ ?_ ?_
  · rw [old a inside apart]
  · rw [link]
  · rw [new]
  · rw [new]

/-- With the fresh entry already at the end of the list, the call finds it there. -/
theorem addService_fresh {ens : EnsInfo} {sid : UInt32} (absent : OpenDab.findService ens sid = none)
    (ac : Mscstau) : OpenDab.addService { ens with srv := ens.srv ++ [Service.fresh sid] } ac sid =
      OpenDab.addService ens ac sid := by
  have found : OpenDab.findService { ens with srv := ens.srv ++ [Service.fresh sid] } sid =
      some ens.srv.length := by
    unfold OpenDab.findService at absent ⊢
    rw [List.findIdx?_append, absent]
    simp [Service.fresh]
  unfold OpenDab.addService
  rw [found, absent]

theorem Represents.absent (represents : e.Represents addrs ens) {sid : UInt32}
    (absent : addrs.find? (fun a => (e.nodes a).sid = sid) = none) :
    OpenDab.findService ens sid = none := by
  rw [OpenDab.findService, List.findIdx?_eq_none_iff, ← represents.services]
  rw [List.find?_eq_none] at absent
  simpa using absent

end Step

structure Kept (s s' : Service) : Prop where
  sid : s'.sid = s.sid
  pa : s.pa ≠ none → s'.pa = s.pa
  sa : s.sa ≠ none → s'.sa = s.sa

theorem Kept.refl (s : Service) : Kept s s := ⟨rfl, fun _ => rfl, fun _ => rfl⟩

theorem Kept.trans {s s' s'' : Service} (first : Kept s s') (second : Kept s' s'') : Kept s s'' where
  sid := second.sid.trans first.sid
  pa set := (second.pa (by rwa [first.pa set])).trans (first.pa set)
  sa set := (second.sa (by rwa [first.sa set])).trans (first.sa set)

theorem attach_kept (ac : Mscstau) (s : Service) : Kept s (attach ac s).1 := by
  unfold attach
  split
  · next fills => exact ⟨rfl, fun set => absurd fills.2 set, fun _ => rfl⟩
  · split
    · next fills => exact ⟨rfl, fun _ => rfl, fun set => absurd fills.2 set⟩
    · exact Kept.refl s

theorem record_kept (e : LinkedEns) (s : Nat) (ac : Mscstau) (a : Nat) :
    Kept (e.nodes a).toService ((e.recordComponent s ac).nodes a).toService := by
  by_cases here : a = s
  · subst here
    have node : ((e.recordComponent a ac).nodes a).toService = (attach ac (e.nodes a).toService).1 := by
      simp [recordComponent, modify]
    rw [node]
    exact attach_kept ac _
  · have node : (e.recordComponent s ac).nodes a = e.nodes a := by
      simp [recordComponent, modify, here]
    rw [node]
    exact Kept.refl _

section Step

variable {e : LinkedEns} {addrs : List Nat} {ens : EnsInfo}

/-- An unknown service gets a node of its own at the end of the list. -/
theorem Represents.append (represents : e.Represents addrs ens) (sid : UInt32) :
    ∃ e', (e.allocService sid).linkService e.used = some e' ∧
      e'.Represents (addrs ++ [e.used]) { ens with srv := ens.srv ++ [Service.fresh sid] } := by
  refine ⟨_, represents.linkService_eq sid, ?_⟩
  cases final : addrs.getLast? with
  | none =>
    obtain rfl : addrs = [] := List.getLast?_eq_none_iff.mp final
    exact represents.linkFirst sid
  | some last => exact represents.linkBehind final sid

theorem Represents.appended {e' : LinkedEns} {a : Nat} {s : Service} {ens' : EnsInfo}
    (represents : e.Represents addrs ens) (extended : e'.Represents (addrs ++ [a]) ens')
    (srv : ens'.srv = ens.srv ++ [s]) :
    (∀ b ∈ addrs, (e'.nodes b).toService = (e.nodes b).toService) ∧ (e'.nodes a).toService = s := by
  have services := extended.services
  rw [srv, ← represents.services, List.map_append] at services
  obtain ⟨front, back⟩ := List.append_inj services (by simp)
  exact ⟨List.map_inj_left.mp front, by simpa using back⟩

/-- One call: both walks end, and the list goes on representing the ensemble of the list model. -/
theorem Represents.step (represents : e.Represents addrs ens)
    (distinct : (ens.srv.map Service.sid).Nodup) (ac : Mscstau) (sid : UInt32) :
    ∃ e' more, e.addService ac sid = some e' ∧
      e'.Represents (addrs ++ more) (OpenDab.addService ens ac sid) ∧
      ∀ a ∈ addrs, Kept (e.nodes a).toService (e'.nodes a).toService := by
  rw [LinkedEns.addService, represents.findService_eq]
  cases found : addrs.find? (fun a => (e.nodes a).sid = sid) with
  | some s =>
    refine ⟨e.recordComponent s ac, [], rfl, ?_, fun a _ => record_kept e s ac a⟩
    rw [List.append_nil]
    exact represents.record distinct ac found
  | none =>
    have absent := represents.absent found
    obtain ⟨e', linked, extended⟩ := represents.append sid
    obtain ⟨old, new⟩ := represents.appended extended rfl
    refine ⟨e'.recordComponent e.used ac, [e.used], by rw [Option.bind_some, linked]; rfl, ?_,
      fun a member => ?_⟩
    · rw [← addService_fresh absent]
      refine extended.record ?_ ac ?_
      · have unknown : sid ∉ ens.srv.map Service.sid := by
          simpa [OpenDab.findService] using absent
        rw [List.map_append]
        exact List.nodup_append.mpr ⟨distinct, by simp, by simpa [Service.fresh] using unknown⟩
      · have front : addrs.find? (fun a => (e'.nodes a).sid = sid) = none := by
          rw [List.find?_eq_none] at found ⊢
          intro a member
          rw [old a member]
          exact found a member
        rw [List.find?_append, front, Option.none_or]
        simp [new, Service.fresh]
    · rw [← old a member]
      exact record_kept e' e.used ac a

end Step

def serviceCalls (calls : List (Mscstau × UInt32)) : List EnsCall :=
  calls.map fun call => .service call.1 call.2

def model (e : LinkedEns) : EnsInfo := ⟨e.label, e.eid, e.numSrvs, e.numSchans, [], e.schan⟩

theorem represents_ficinit (e : LinkedEns) : e.ficinit.Represents [] (OpenDab.ficinit e.model) :=
  ⟨rfl, rfl, by simp, Nat.zero_le _, rfl, rfl, rfl, rfl, rfl⟩

theorem run_push (e : LinkedEns) (calls : List (Mscstau × UInt32)) (call : Mscstau × UInt32) :
    e.run (calls ++ [call]) = (e.run calls).bind fun e' => e'.addService call.1 call.2 := by
  rw [LinkedEns.run, List.foldlM_append]
  exact congrArg _ (funext fun e' => by simp)

theorem runCalls_push (ens : EnsInfo) (calls : List (Mscstau × UInt32)) (call : Mscstau × UInt32) :
    runCalls ens (serviceCalls (calls ++ [call])) =
      OpenDab.addService (runCalls ens (serviceCalls calls)) call.1 call.2 := by
  rw [serviceCalls, List.map_append, runCalls, List.foldl_append]
  rfl

/-- Every run ends, in a list that represents what the list model computes. -/
theorem run_represents (e : LinkedEns) (calls : List (Mscstau × UInt32)) :
    ∃ e' addrs, e.run calls = some e' ∧
      e'.Represents addrs (runCalls e.model (serviceCalls calls)) := by
  induction calls using List.reverseRecOn with
  | nil => exact ⟨_, [], rfl, represents_ficinit e⟩
  | append_singleton calls call ih =>
    obtain ⟨e', addrs, run, represents⟩ := ih
    have distinct := (recorded_runCalls e.model (serviceCalls calls)).distinct
    obtain ⟨e'', more, step, represents', -⟩ := represents.step distinct call.1 call.2
    refine ⟨e'', addrs ++ more, ?_, ?_⟩
    · rw [run_push, run, Option.bind_some, step]
    · rwa [runCalls_push]

/-- The nodes of an earlier state stay in the list, and keep what is set in them. -/
theorem run_continues (e : LinkedEns) (earlier later : List (Mscstau × UInt32)) :
    ∃ e₀ e' addrs more, e.run earlier = some e₀ ∧ e.run (earlier ++ later) = some e' ∧
      e₀.Represents addrs (runCalls e.model (serviceCalls earlier)) ∧
      e'.Represents (addrs ++ more) (runCalls e.model (serviceCalls (earlier ++ later))) ∧
      ∀ a ∈ addrs, Kept (e₀.nodes a).toService (e'.nodes a).toService := by
  induction later using List.reverseRecOn with
  | nil =>
    obtain ⟨e₀, addrs, run, represents⟩ := e.run_represents earlier
    refine ⟨e₀, e₀, addrs, [], run, ?_, represents, ?_, fun a _ => Kept.refl _⟩
    · rw [List.append_nil, run]
    · rwa [List.append_nil, List.append_nil]
  | append_singleton later call ih =>
    obtain ⟨e₀, e', addrs, more, run, run', represents, represents', kept⟩ := ih
    have distinct := (recorded_runCalls e.model (serviceCalls (earlier ++ later))).distinct
    obtain ⟨e'', again, step, represents'', kept'⟩ := represents'.step distinct call.1 call.2
    refine ⟨e₀, e'', addrs, more ++ again, run, ?_, represents, ?_, fun a member =>
      (kept a member).trans (kept' a (List.mem_append_left _ member))⟩
    · rw [← List.append_assoc, run_push, run', Option.bind_some, step]
    · rwa [← List.append_assoc, ← List.append_assoc, runCalls_push]

end LinkedEns

def firstComponent (primary : Bool) (sid : UInt32) (calls : List (Mscstau × UInt32)) : Option Nat :=
  (calls.find? fun call => call.2 = sid ∧ (call.1.primary ≠ 0 ↔ primary = true)).map
    fun call => call.1.subChId

theorem firstComponent_append (primary : Bool) (sid : UInt32) (calls : List (Mscstau × UInt32))
    (call : Mscstau × UInt32) : firstComponent primary sid (calls ++ [call]) =
      (firstComponent primary sid calls).or
        (if call.2 = sid ∧ (call.1.primary ≠ 0 ↔ primary = true) then some ↑call.1.subChId
          else none) := by
  unfold firstComponent
  rw [List.find?_append, Option.map_or, List.find?_singleton]
  by_cases hit : call.2 = sid ∧ (call.1.primary ≠ 0 ↔ primary = true)
  · rw [if_pos hit, if_pos (decide_eq_true hit)]
    rfl
  · have miss : ¬decide (call.2 = sid ∧ (call.1.primary ≠ 0 ↔ primary = true)) = true :=
      fun same => hit (of_decide_eq_true same)
    rw [if_neg hit, if_neg miss]
    rfl

theorem attach_first (ac : Mscstau) (s : Service) :
    (attach ac s).1.pa = s.pa.or (if ac.primary ≠ 0 then some ↑ac.subChId else none) ∧
      (attach ac s).1.sa = s.sa.or (if ac.primary = 0 then some ↑ac.subChId else none) := by
  unfold attach
  by_cases primary : ac.primary = 0 <;> cases pa : s.pa <;> cases sa : s.sa <;>
    simp [primary, pa, sa]

/-- The order of the list and its pointers, in terms of the calls. -/
structure FirstSeen (calls : List (Mscstau × UInt32)) (srv : List Service) : Prop where
  order : srv.map Service.sid = (calls.map Prod.snd).eraseDups
  primary : ∀ p ∈ srv, p.pa = firstComponent true p.sid calls
  secondary : ∀ p ∈ srv, p.sa = firstComponent false p.sid calls

theorem eraseDups_push [DecidableEq α] (l : List α) (a : α) :
    (l ++ [a]).eraseDups = if a ∈ l.eraseDups then l.eraseDups else l.eraseDups ++ [a] := by
  rw [List.eraseDups_append]
  by_cases seen : a ∈ l
  · rw [if_pos (List.mem_eraseDups.mpr seen)]
    simp [seen, List.removeAll]
  · rw [if_neg fun member => seen (List.mem_eraseDups.mp member)]
    simp [seen, List.removeAll, List.eraseDups_cons]

/-- The entry that a call works on, found or fresh. -/
theorem FirstSeen.entry {calls : List (Mscstau × UInt32)} {srv : List Service}
    (seen : FirstSeen calls srv) (sid : UInt32) :
    let s := (lookup Service.sid sid srv).getD (Service.fresh sid)
    s.sid = sid ∧ s.pa = firstComponent true sid calls ∧ s.sa = firstComponent false sid calls := by
  intro s
  cases found : lookup Service.sid sid srv with
  | some p =>
    have same : s = p := by simp [s, found]
    have named := lookup_key found
    have member := mem_of_lookup found
    rw [same, ← named]
    exact ⟨rfl, seen.primary p member, seen.secondary p member⟩
  | none =>
    have unknown : sid ∉ calls.map Prod.snd := by
      rw [← List.mem_eraseDups, ← seen.order]
      simpa [lookup] using found
    have never (primary : Bool) : firstComponent primary sid calls = none := by
      rw [firstComponent, Option.map_eq_none_iff, List.find?_eq_none]
      intro call member hit
      exact unknown (List.mem_map.mpr ⟨call, member, (of_decide_eq_true hit).1⟩)
    have fresh : s = Service.fresh sid := by simp [s, found]
    rw [fresh, never, never]
    exact ⟨rfl, rfl, rfl⟩

theorem FirstSeen.step {calls : List (Mscstau × UInt32)} {e : EnsInfo}
    (seen : FirstSeen calls e.srv) (distinct : (e.srv.map Service.sid).Nodup)
    (call : Mscstau × UInt32) :
    FirstSeen (calls ++ [call]) (addService e call.1 call.2).srv := by
  obtain ⟨ac, sid⟩ := call
  obtain ⟨named, pa, sa⟩ := seen.entry sid
  have members := fun p => mem_amend (a := p) (fresh_sid sid) (attach_sid ac) distinct
  have keys := keys_amend (fresh_sid sid) (attach_sid ac) e.srv
  rw [← addService_srv] at keys
  simp only [← addService_srv] at members
  generalize (lookup Service.sid sid e.srv).getD (Service.fresh sid) = s at *
  have amended : (attach ac s).1.sid = sid := (attach_sid ac s).trans named
  obtain ⟨pa', sa'⟩ := attach_first ac s
  refine ⟨?_, fun p member => ?_, fun p member => ?_⟩
  · rw [keys, List.map_append, List.map_singleton, eraseDups_push, ← seen.order]
  · rw [firstComponent_append]
    rcases (members p).mp member with rfl | ⟨old, apart⟩
    · rw [amended, pa', pa]
      simp
    · rw [seen.primary p old, if_neg fun hit => apart hit.1.symm, Option.or_none]
  · rw [firstComponent_append]
    rcases (members p).mp member with rfl | ⟨old, apart⟩
    · rw [amended, sa', sa]
      simp
    · rw [seen.secondary p old, if_neg fun hit => apart hit.1.symm, Option.or_none]

theorem firstSeen_run (e : EnsInfo) (calls : List (Mscstau × UInt32)) :
    FirstSeen calls (runCalls e (LinkedEns.serviceCalls calls)).srv := by
  induction calls using List.reverseRecOn with
  | nil => exact ⟨rfl, by simp [LinkedEns.serviceCalls, runCalls, ficinit],
      by simp [LinkedEns.serviceCalls, runCalls, ficinit]⟩
  | append_singleton calls call ih =>
    rw [LinkedEns.runCalls_push]
    exact ih.step (recorded_runCalls e _).distinct call

structure ServiceList (calls : List (Mscstau × UInt32)) (e : LinkedEns) (addrs : List Nat) :
    Prop where
  head : e.srv = addrs.head?
  next : ∀ i a, addrs[i]? = some a → (e.nodes a).next = addrs[i + 1]?
  prev : ∀ i a, addrs[i]? = some a → (e.nodes a).prev = if i = 0 then none else addrs[i - 1]?
  order : addrs.map (fun a => (e.nodes a).sid) = (calls.map Prod.snd).eraseDups
  distinct : (addrs.map fun a => (e.nodes a).sid).Nodup
  offered : ∀ a ∈ addrs, (e.nodes a).pa ≠ none ∨ (e.nodes a).sa ≠ none
  count : e.numSrvs = addrs.countP (fun a => (e.nodes a).pa ≠ none) +
    addrs.countP fun a => (e.nodes a).sa ≠ none
  primary : ∀ a ∈ addrs, (e.nodes a).pa = firstComponent true (e.nodes a).sid calls
  secondary : ∀ a ∈ addrs, (e.nodes a).sa = firstComponent false (e.nodes a).sid calls
  found : ∀ sid, ∃ r, e.findService sid = some r ∧
    ∀ a, r = some a ↔ a ∈ addrs ∧ (e.nodes a).sid = sid

/-- The components of a list of services, counted by kind. -/
theorem sum_components (srv : List Service) : (srv.map (·.components.length)).sum =
    srv.countP (fun p => p.pa ≠ none) + srv.countP fun p => p.sa ≠ none := by
  induction srv with
  | nil => rfl
  | cons p rest ih =>
    rw [List.map_cons, List.sum_cons, ih, List.countP_cons, List.countP_cons]
    cases pa : p.pa <;> cases sa : p.sa <;> simp [Service.components, pa, sa] <;> omega

/-- A node is found by its service id, which no other node has. -/
theorem find_node {addrs : List Nat} {sids : Nat → UInt32} (distinct : (addrs.map sids).Nodup)
    (sid : UInt32) (a : Nat) :
    addrs.find? (fun a => sids a = sid) = some a ↔ a ∈ addrs ∧ sids a = sid := by
  constructor
  · intro found
    exact ⟨List.mem_of_find?_eq_some found, by simpa using List.find?_some found⟩
  · rintro ⟨member, named⟩
    have found := lookup_of_mem distinct member
    rw [lookup, named] at found
    exact found

theorem LinkedEns.Represents.serviceList {calls : List (Mscstau × UInt32)} {e : LinkedEns}
    {addrs : List Nat} {ens : EnsInfo}
    (represents : e.Represents addrs (runCalls ens (LinkedEns.serviceCalls calls))) :
    ServiceList calls e addrs := by
  have recorded := recorded_runCalls ens (LinkedEns.serviceCalls calls)
  have seen := firstSeen_run ens calls
  generalize runCalls ens (LinkedEns.serviceCalls calls) = ens at *
  have services := represents.services
  have member {a : Nat} (inside : a ∈ addrs) : (e.nodes a).toService ∈ ens.srv := by
    rw [← services]
    exact List.mem_map_of_mem inside
  have sids : addrs.map (fun a => (e.nodes a).sid) = ens.srv.map Service.sid := by
    rw [← services, List.map_map]
    rfl
  have distinct := recorded.distinct
  rw [← sids] at distinct
  refine ⟨represents.linked.start_eq, fun i a here => represents.linked.next_eq here,
    fun i a here => represents.linked.prev_eq here, sids.trans seen.order, distinct,
    fun a inside => recorded.offered _ (member inside), ?_,
    fun a inside => seen.primary _ (member inside), fun a inside => seen.secondary _ (member inside),
    fun sid => ⟨_, represents.findService_eq sid, find_node distinct sid⟩⟩
  rw [represents.numSrvs, recorded.count, sum_components, ← services, List.countP_map,
    List.countP_map]
  rfl

/-- From any memory: every run of calls ends, in a list as described, and the nodes of every earlier
state are still in it with the pointers they had. -/
theorem service_list (e : LinkedEns) (calls : List (Mscstau × UInt32)) :
    ∃ e' addrs, e.run calls = some e' ∧ ServiceList calls e' addrs ∧
      ∀ earlier later, calls = earlier ++ later → ∃ e₀ addrs₀, e.run earlier = some e₀ ∧
        ServiceList earlier e₀ addrs₀ ∧ addrs₀ <+: addrs ∧
        ∀ a ∈ addrs₀, LinkedEns.Kept (e₀.nodes a).toService (e'.nodes a).toService := by
  obtain ⟨e', addrs, run, represents⟩ := e.run_represents calls
  refine ⟨e', addrs, run, represents.serviceList, ?_⟩
  rintro earlier later rfl
  obtain ⟨e₀, e'', addrs₀, more, run₀, run'', represents₀, represents'', kept⟩ :=
    e.run_continues earlier later
  obtain rfl : e' = e'' := Option.some.inj (run.symm.trans run'')
  refine ⟨e₀, addrs₀, run₀, represents₀.serviceList, ?_, kept⟩
  rw [represents.linked.unique represents''.linked]
  exact List.prefix_append _ _

end OpenDab
