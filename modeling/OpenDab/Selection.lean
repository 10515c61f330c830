import OpenDab.Ensemble
import Mathlib.Data.List.Induction

/-! The displayed list against the selection. Both walks number the components of the
services one after the other as long as every service has a primary component; a
service known only by a secondary one takes two numbers in the selection and one on
the screen. -/
namespace OpenDab

open Buffers Roster

/-- The abstract listing: every component of every service, to be numbered from 0. -/
def listing (srv : List Service) : List (Service × Nat) :=
  srv.flatMap fun p => p.components.map fun c => (p, c)

theorem listing_cons (p : Service) (next : List Service) :
    listing (p :: next) = p.components.map (fun c => (p, c)) ++ listing next := by
  simp [listing]

def Announced (primary : Bool) (sid : UInt32) (calls : List EnsCall) : Prop :=
  ∃ ac, EnsCall.service ac sid ∈ calls ∧ (ac.primary ≠ 0 ↔ primary = true)

theorem addService_numSrvs (e : EnsInfo) (ac : Mscstau) (sid : UInt32) :
    (addService e ac sid).numSrvs = e.numSrvs +
      (attach ac ((lookup Service.sid sid e.srv).getD (Service.fresh sid))).2 := by
  rw [lookup_eq_getElem?]
  unfold addService findService
  cases e.srv.findIdx? (Service.sid · = sid) with
  | none => simp
  | some i => rfl

theorem fresh_sid (sid : UInt32) : (Service.fresh sid).sid = sid := rfl

theorem attach_sid (ac : Mscstau) (s : Service) : (attach ac s).1.sid = s.sid := by
  unfold attach
  split <;> [skip; split] <;> rfl

theorem attach_count (ac : Mscstau) (s : Service) :
    (attach ac s).1.components.length = s.components.length + (attach ac s).2 := by
  unfold attach Service.components
  split
  · next fills => simp [fills.2, Nat.add_comm]
  · split
    · next fills => simp [fills.2]
    · rfl

theorem attach_pa (ac : Mscstau) (s : Service) :
    (attach ac s).1.pa = none ↔ s.pa = none ∧ ac.primary = 0 := by
  unfold attach
  split <;> [skip; split] <;> grind

theorem attach_sa (ac : Mscstau) (s : Service) :
    (attach ac s).1.sa = none ↔ s.sa = none ∧ ac.primary ≠ 0 := by
  unfold attach
  split <;> [skip; split] <;> grind

structure Recorded (calls : List EnsCall) (e : EnsInfo) : Prop where
  distinct : (e.srv.map Service.sid).Nodup
  count : e.numSrvs = (e.srv.map (·.components.length)).sum
  known : ∀ primary sid, Announced primary sid calls → ∃ p ∈ e.srv, p.sid = sid
  primary : ∀ p ∈ e.srv, p.pa ≠ none ↔ Announced true p.sid calls
  secondary : ∀ p ∈ e.srv, p.sa ≠ none ↔ Announced false p.sid calls
  offered : ∀ p ∈ e.srv, p.pa ≠ none ∨ p.sa ≠ none

theorem announced_append (primary : Bool) (sid : UInt32) (calls : List EnsCall) (call : EnsCall) :
    Announced primary sid (calls ++ [call]) ↔ Announced primary sid calls ∨
      ∃ ac, call = .service ac sid ∧ (ac.primary ≠ 0 ↔ primary = true) := by
  simp only [Announced, List.mem_append, List.mem_singleton]
  grind

/-- The entry that `add_service` works on, found or fresh, reflects the calls so far. -/
theorem Recorded.entry {calls : List EnsCall} {e : EnsInfo} (recorded : Recorded calls e)
    (sid : UInt32) : let s := (lookup Service.sid sid e.srv).getD (Service.fresh sid)
    s.sid = sid ∧ (s.pa ≠ none ↔ Announced true sid calls) ∧
      (s.sa ≠ none ↔ Announced false sid calls) := by
  intro s
  cases found : lookup Service.sid sid e.srv with
  | some p =>
    have same : s = p := by simp [s, found]
    have named := lookup_key found
    have member := mem_of_lookup found
    rw [same, ← named]
    exact ⟨rfl, recorded.primary p member, recorded.secondary p member⟩
  | none =>
    have unknown (primary : Bool) : ¬Announced primary sid calls := fun announced => by
      obtain ⟨p, member, named⟩ := recorded.known primary sid announced
      rw [← named, lookup_of_mem recorded.distinct member] at found
      contradiction
    have fresh : s = Service.fresh sid := by simp [s, found]
    rw [fresh]
    simp [Service.fresh, unknown]

theorem recorded_ficinit (e : EnsInfo) : Recorded [] (ficinit e) := by
  refine ⟨?_, ?_, ?_, ?_, ?_, ?_⟩ <;> simp [ficinit, Announced]

theorem Recorded.subchannel {calls : List EnsCall} {e : EnsInfo} (recorded : Recorded calls e)
    (s : Subch) : Recorded (calls ++ [.subchannel s]) (addSubchannel e s) := by
  have same : (addSubchannel e s).srv = e.srv ∧ (addSubchannel e s).numSrvs = e.numSrvs := by
    unfold addSubchannel
    split <;> simp
  have announced (primary : Bool) (sid : UInt32) :
      Announced primary sid (calls ++ [.subchannel s]) ↔ Announced primary sid calls := by
    simp [announced_append]
  constructor <;> simp only [same, announced]
  exacts [recorded.distinct, recorded.count, recorded.known, recorded.primary,
    recorded.secondary, recorded.offered]

/-- `add_service` works on the entry of its service and keeps the others. -/
theorem Recorded.service {calls : List EnsCall} {e : EnsInfo} (recorded : Recorded calls e)
    (ac : Mscstau) (sid : UInt32) :
    Recorded (calls ++ [.service ac sid]) (addService e ac sid) := by
  obtain ⟨named, pa, sa⟩ := recorded.entry sid
  have srv := addService_srv e ac sid
  have keeps := attach_sid ac
  have members := fun p => mem_amend (a := p) (fresh_sid sid) keeps recorded.distinct
  have counted := @sum_amend _ _ _ Service.sid sid (Service.fresh sid) (fun s => (attach ac s).1)
    (fun p => p.components.length) rfl e.srv
  have numSrvs := addService_numSrvs e ac sid
  generalize (lookup Service.sid sid e.srv).getD (Service.fresh sid) = s at *
  have amended : (attach ac s).1.sid = sid := (attach_sid ac s).trans named
  have others (primary : Bool) (other : UInt32) (apart : other ≠ sid) :
      Announced primary other (calls ++ [.service ac sid]) ↔ Announced primary other calls := by
    simp [announced_append, apart.symm]
  refine ⟨?_, ?_, ?_, ?_, ?_, ?_⟩
  · rw [srv]
    exact nodup_amend (fresh_sid sid) keeps recorded.distinct
  · rw [attach_count] at counted
    rw [numSrvs, srv, recorded.count]
    omega
  · intro primary other announced
    simp only [srv, members]
    by_cases hit : other = sid
    · exact ⟨_, .inl rfl, amended.trans hit.symm⟩
    · obtain ⟨p, member, sid⟩ := recorded.known primary other ((others _ _ hit).mp announced)
      exact ⟨p, .inr ⟨member, sid ▸ hit⟩, sid⟩
  · intro p member
    rw [srv, members] at member
    rcases member with rfl | ⟨old, apart⟩
    · rw [Ne, attach_pa, amended, announced_append, ← pa]
      simp only [EnsCall.service.injEq, and_true, iff_true]
      grind
    · rw [others _ _ apart]
      exact recorded.primary p old
  · intro p member
    rw [srv, members] at member
    rcases member with rfl | ⟨old, apart⟩
    · rw [Ne, attach_sa, amended, announced_append, ← sa]
      simp only [EnsCall.service.injEq, and_true]
      grind
    · rw [others _ _ apart]
      exact recorded.secondary p old
  · intro p member
    rw [srv, members] at member
    rcases member with rfl | ⟨old, -⟩
    · rw [Ne, Ne, attach_pa, attach_sa]
      grind
    · exact recorded.offered p old

theorem Recorded.step {calls : List EnsCall} {e : EnsInfo} (recorded : Recorded calls e)
    (call : EnsCall) : Recorded (calls ++ [call]) (call.run e) := by
  cases call with
  | subchannel s => exact recorded.subchannel s
  | service ac sid => exact recorded.service ac sid

theorem recorded_runCalls (e : EnsInfo) (calls : List EnsCall) :
    Recorded calls (runCalls e calls) := by
  induction calls using List.reverseRecOn with
  | nil => exact recorded_ficinit e
  | append_singleton calls call ih =>
    have step := ih.step call
    rwa [runCalls, List.foldl_append]

/-- The lines of the display are numbered without a gap, one for each component. -/
theorem dispServices_index (srv : List Service) (offered : ∀ p ∈ srv, p.pa ≠ none ∨ p.sa ≠ none)
    (i : Nat) : (dispServices i srv).map ListLine.index =
      List.range' i (srv.map (·.components.length)).sum := by
  induction srv generalizing i with
  | nil => rfl
  | cons p next ih =>
    have rest := ih fun q member => offered q (List.mem_cons_of_mem _ member)
    have here := offered p List.mem_cons_self
    cases pa : p.pa with
    | none =>
      cases sa : p.sa with
      | none => simp [pa, sa] at here
      | some d =>
        have one : p.components.length = 1 := by simp [Service.components, pa, sa]
        simp [dispServices, pa, rest, one, List.range'_succ, Nat.add_comm 1]
    | some c =>
      cases sa : p.sa with
      | none =>
        have one : p.components.length = 1 := by simp [Service.components, pa, sa]
        simp [dispServices, pa, sa, rest, one, List.range'_succ, Nat.add_comm 1]
      | some d =>
        have two : p.components.length = 2 := by simp [Service.components, pa, sa]
        simp [dispServices, pa, sa, rest, two, List.range'_succ, Nat.add_comm 2]

theorem dispServices_listing (srv : List Service) (primary : ∀ p ∈ srv, p.pa ≠ none) (i : Nat) :
    dispServices i srv = (listing srv).mapIdx fun k entry => ⟨i + k, entry.1, some entry.2⟩ := by
  induction srv generalizing i with
  | nil => rfl
  | cons p next ih =>
    have rest := ih fun q member => primary q (List.mem_cons_of_mem _ member)
    obtain ⟨c, pa⟩ := Option.ne_none_iff_exists'.mp (primary p List.mem_cons_self)
    cases sa : p.sa with
    | none =>
      have one : p.components = [c] := by simp [Service.components, pa, sa]
      simp [dispServices, listing_cons, pa, sa, one, rest, Nat.add_right_comm, Nat.add_assoc]
    | some d =>
      have two : p.components = [c, d] := by simp [Service.components, pa, sa]
      simp [dispServices, listing_cons, pa, sa, two, rest, Nat.add_right_comm, Nat.add_assoc]

/-- Once the number has been passed the walk changes nothing. -/
theorem selectService_past (srv : List Service) (sel : SelSrv) {i j : Int} (past : i < j) :
    selectService i j srv sel = sel := by
  induction srv generalizing j with
  | nil => rfl
  | cons p next ih =>
    have apart : ¬(j = i ∨ (j = i - 1 ∧ p.sa ≠ none)) := by omega
    simp only [selectService, if_neg apart]
    split
    · exact ih (by omega)
    · exact ih (by omega)

/-- The walk at a service: its first number selects the primary pointer. -/
theorem selectService_first (p : Service) (next : List Service) (j : Int) (sel : SelSrv) :
    selectService j j (p :: next) sel = { sel with sid := p.sid, sch := p.pa } := by
  have apart : ¬(j = j - 1 ∧ p.sa ≠ none) := by omega
  simp only [selectService, true_or, if_true, if_neg apart]
  split
  · exact selectService_past next _ (by omega)
  · exact selectService_past next _ (by omega)

/-- A second number, if there is one, selects the secondary pointer. -/
theorem selectService_second (p : Service) (next : List Service) (j : Int) (sel : SelSrv)
    (sa : p.sa ≠ none) :
    selectService (j + 1) j (p :: next) sel = { sel with sid := p.sid, sch := p.sa } := by
  have hit : j = j + 1 - 1 ∧ p.sa ≠ none := ⟨by omega, sa⟩
  simp only [selectService, if_pos hit, if_pos (Or.inr hit), if_neg sa]
  exact selectService_past next _ (by omega)

def Service.width (p : Service) : Nat := if p.sa = none then 1 else 2

theorem selectService_skip (p : Service) (next : List Service) {i j : Int} (sel : SelSrv)
    (beyond : j + p.width ≤ i) :
    selectService i j (p :: next) sel = selectService i (j + p.width) next sel := by
  unfold Service.width at *
  by_cases sa : p.sa = none
  · rw [if_pos sa] at beyond
    have apart : ¬(j = i ∨ (j = i - 1 ∧ p.sa ≠ none)) := by
      rintro (hit | ⟨-, absent⟩)
      · omega
      · exact absent sa
    simp only [selectService, if_neg apart, if_pos sa]
    rfl
  · rw [if_neg sa] at beyond
    have apart : ¬(j = i ∨ (j = i - 1 ∧ p.sa ≠ none)) := by omega
    simp only [selectService, if_neg apart, if_neg sa]
    rfl

def Service.pointers (p : Service) : List (Option Nat) := p.pa :: (if p.sa = none then [] else [p.sa])

/-- What each number designates in the walk. -/
def pointers (srv : List Service) : List (Service × Option Nat) :=
  srv.flatMap fun p => p.pointers.map fun c => (p, c)

theorem pointers_cons (p : Service) (next : List Service) :
    pointers (p :: next) = p.pointers.map (fun c => (p, c)) ++ pointers next := by
  simp [pointers]

theorem selectService_pointers (srv : List Service) (j : Int) (k : Nat) (sel : SelSrv) :
    selectService (j + k) j srv sel =
      match (pointers srv)[k]? with
      | some entry => { sel with sid := entry.1.sid, sch := entry.2 }
      | none => sel := by
  induction srv generalizing j k with
  | nil => rfl
  | cons p next ih =>
    have skip (k : Nat) : selectService (j + ((k + p.width : Nat) : Int)) j (p :: next) sel =
        selectService (j + p.width + k) (j + p.width) next sel := by
      rw [selectService_skip p next sel (by omega), Int.natCast_add, ← Int.add_assoc,
        Int.add_right_comm]
    rw [pointers_cons]
    match k with
    | 0 =>
      rw [Int.natCast_zero, Int.add_zero, selectService_first]
      simp [Service.pointers]
    | k + 1 =>
      cases sa : p.sa with
      | none =>
        have one : p.width = 1 := by simp [Service.width, sa]
        rw [one] at skip
        rw [skip k, ih]
        simp [Service.pointers, sa]
      | some d =>
        have two : p.width = 2 := by simp [Service.width, sa]
        rw [two] at skip
        match k with
        | 0 =>
          rw [show ((0 + 1 : Nat) : Int) = 1 from rfl, selectService_second p next j sel (by simp [sa]), sa]
          simp [Service.pointers, sa]
        | k + 1 =>
          rw [skip k, ih]
          simp [Service.pointers, sa]

/-- With a primary component in every service, the walk numbers the listing. -/
theorem pointers_listing (srv : List Service) (primary : ∀ p ∈ srv, p.pa ≠ none) :
    pointers srv = (listing srv).map fun entry => (entry.1, some entry.2) := by
  induction srv with
  | nil => rfl
  | cons p next ih =>
    obtain ⟨c, pa⟩ := Option.ne_none_iff_exists'.mp (primary p List.mem_cons_self)
    rw [pointers_cons, listing_cons, ih fun q member => primary q (List.mem_cons_of_mem _ member)]
    cases sa : p.sa <;> simp [Service.pointers, Service.components, pa, sa]

/-- A service without a primary component makes some number select no sub-channel at all. -/
theorem selectService_missing (srv : List Service)
    (offered : ∀ p ∈ srv, p.pa ≠ none ∨ p.sa ≠ none) (missing : ∃ p ∈ srv, p.pa = none) :
    ∃ k < (srv.map (·.components.length)).sum, ∀ (j : Int) (sel : SelSrv),
      (selectService (j + k) j srv sel).sch = none := by
  induction srv with
  | nil => simp at missing
  | cons p next ih =>
    rw [List.map_cons, List.sum_cons]
    cases pa : p.pa with
    | none =>
      have positive : 0 < p.components.length := by
        have here := offered p List.mem_cons_self
        obtain ⟨d, sa⟩ := Option.ne_none_iff_exists'.mp (here.resolve_left (by simp [pa]))
        simp [Service.components, pa, sa]
      refine ⟨0, by omega, fun j sel => ?_⟩
      rw [Int.natCast_zero, Int.add_zero, selectService_first, pa]
    | some c =>
      obtain ⟨k, bound, absent⟩ := ih (fun q member => offered q (List.mem_cons_of_mem _ member)) (by
        simpa [pa] using missing)
      have width : p.components.length = p.width := by
        cases sa : p.sa <;> simp [Service.components, Service.width, pa, sa]
      refine ⟨p.width + k, by omega, fun j sel => ?_⟩
      rw [selectService_skip p next sel (by omega), Int.natCast_add, ← Int.add_assoc]
      exact absent (j + p.width) sel

/-- The displayed list and the selection agree: the numbers are `0 .. num_srvs - 1`, a number shown
beside a sub-channel selects it, and every number selects some sub-channel. -/
structure Agrees (e : EnsInfo) : Prop where
  numbers : (dispEnsemble e).map ListLine.index = List.range e.numSrvs
  shown : ∀ line ∈ dispEnsemble e, ∀ c, line.component = some c → ∀ rq sel,
    (userSelectService e rq line.index sel).sel.sid = line.service.sid ∧
      (userSelectService e rq line.index sel).sel.sch = some c
  total : ∀ i : Nat, i < e.numSrvs → ∀ rq sel, (userSelectService e rq i sel).sel.sch ≠ none

theorem userSelectService_inside (e : EnsInfo) (rq : Bool) (i : Nat) (inside : i < e.numSrvs)
    (sel : SelSrv) : (userSelectService e rq i sel).sel = selectService i 0 e.srv sel := by
  have number : (i : Int) ≠ -1 ∧ (i : Int) < e.numSrvs ∧ (i : Int) ≥ 0 := by omega
  simp [userSelectService, number]

theorem length_listing (srv : List Service) :
    (listing srv).length = (srv.map (·.components.length)).sum := by
  simp [listing, List.length_flatMap]

/-- They agree exactly when every service announced with a secondary component is announced with a
primary one as well. -/
theorem list_agrees_iff (e : EnsInfo) (calls : List EnsCall) :
    Agrees (runCalls e calls) ↔
      ∀ sid, Announced false sid calls → Announced true sid calls := by
  have recorded := recorded_runCalls e calls
  generalize runCalls e calls = e at recorded
  constructor
  · rintro ⟨-, -, total⟩ sid secondary
    obtain ⟨p, member, rfl⟩ := recorded.known false sid secondary
    by_contra primary
    have missing : p.pa = none := by
      by_contra present
      exact primary ((recorded.primary p member).mp present)
    obtain ⟨k, bound, absent⟩ := selectService_missing e.srv recorded.offered ⟨p, member, missing⟩
    have inside : k < e.numSrvs := by rwa [recorded.count]
    have nothing := absent 0 ⟨none, ⟨fun _ => 0, fun _ => 0, 0, 0, 0⟩, 0⟩
    rw [Int.zero_add, ← userSelectService_inside e false k inside] at nothing
    exact total k inside false _ nothing
  · intro covered
    have primary : ∀ p ∈ e.srv, p.pa ≠ none := by
      intro p member
      rcases recorded.offered p member with pa | sa
      · exact pa
      · exact (recorded.primary p member).mpr (covered _ ((recorded.secondary p member).mp sa))
    have found (k : Nat) (inside : k < e.numSrvs) (rq : Bool) (sel : SelSrv) :
        ∃ entry, (listing e.srv)[k]? = some entry ∧ (userSelectService e rq k sel).sel =
          { sel with sid := entry.1.sid, sch := some entry.2 } := by
      have walk := selectService_pointers e.srv 0 k sel
      rw [Int.zero_add, ← userSelectService_inside e rq k inside, pointers_listing _ primary,
        List.getElem?_map] at walk
      rw [recorded.count, ← length_listing] at inside
      rw [List.getElem?_eq_getElem inside] at walk ⊢
      exact ⟨_, rfl, walk⟩
    refine ⟨?_, fun line member c shown rq sel => ?_, fun i inside rq sel => ?_⟩
    · rw [dispEnsemble, dispServices_index _ recorded.offered, ← recorded.count, List.range_eq_range']
    · rw [dispEnsemble, dispServices_listing _ primary] at member
      obtain ⟨k, bound, rfl⟩ := List.mem_mapIdx.mp member
      simp only [Nat.zero_add, Option.some.injEq] at shown ⊢
      have inside : k < e.numSrvs := by rwa [recorded.count, ← length_listing]
      obtain ⟨entry, here, chosen⟩ := found k inside rq sel
      rw [List.getElem?_eq_getElem bound, Option.some.injEq] at here
      rw [chosen, ← here, shown]
      exact ⟨rfl, rfl⟩
    · obtain ⟨entry, -, chosen⟩ := found i inside rq sel
      rw [chosen]
      exact Option.some_ne_none _

/-- One service with a secondary component only: it is displayed as number 0 without a sub-channel,
and number 0 selects none. -/
theorem secondary_only_selects_nothing :
    ¬Agrees (runCalls einf [.service ⟨0, 0, 5, 0, 0⟩ 0xe1c0]) := by
  rintro ⟨-, -, total⟩
  exact total 0 (by decide) false ⟨none, ⟨fun _ => 0, fun _ => 0, 0, 0, 0⟩, 0⟩ rfl

end OpenDab
