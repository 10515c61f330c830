import OpenDab.Figs
import OpenDab.Library.Roster

/-! The ensemble as the FIC describes it: the list of audio services, the table of
sub-channels, and the two walks over the list that number its entries. The linked
list is a list in order of its `next` pointers; a pointer into `schan` is an index. -/
namespace OpenDab

open Buffers Roster

-- Literals of the field types below use these by name in every module.
instance neZero_two : NeZero 2 := ⟨by decide⟩

instance neZero_four : NeZero 4 := ⟨by decide⟩

instance neZero_sixtyFour : NeZero 64 := ⟨by decide⟩

structure Mscstau where
  caFlag : Fin 2
  primary : Fin 2
  subChId : Fin 64
  ascTy : Fin 64
  tmId : Fin 4
  deriving DecidableEq, Repr

/-- `struct service`; the label is the string in front of the first NUL, and the identifier is
kept as the 32 bits of the `int`. -/
structure Service where
  label : List UInt8
  sid : UInt32
  pa : Option Nat
  sa : Option Nat
  deriving DecidableEq, Repr

def Service.components (p : Service) : List Nat := p.pa.toList ++ p.sa.toList

/-- `struct ens_info`; `label` holds all 17 bytes. -/
structure EnsInfo where
  label : List UInt8
  eid : UInt16
  numSrvs : Nat
  numSchans : Nat
  srv : List Service
  schan : Nat → Subch

/-- The global `einf` as the program loader leaves it. -/
def einf : EnsInfo where
  label := List.replicate 17 0
  eid := 0
  numSrvs := 0
  numSchans := 0
  srv := []
  schan := fun _ => ⟨0, 0, 0, 0, 0, 0, 0, 0⟩

def Service.fresh (sid : UInt32) : Service := ⟨[], sid, none, none⟩

def ficinit (e : EnsInfo) : EnsInfo :=
  { e with
    numSchans := 0, numSrvs := 0, srv := []
    schan := loop 64 (fun j schan => store schan j { schan j with subchid := 0xffff }) e.schan }

theorem ficinit_schan (e : EnsInfo) (id : Nat) (small : id < 64) :
    ((ficinit e).schan id).subchid = 0xffff := by
  have marked : ∀ i < 64, ((ficinit e).schan i).subchid = 0xffff := by
    unfold ficinit
    apply loop_invariant (fun k (schan : Nat → Subch) => ∀ i < k, (schan i).subchid = 0xffff)
    · intro i before
      omega
    · intro k _ schan before i inside
      by_cases last : i = k
      · rw [last, store_same]
      · rw [store_other _ _ last]
        exact before i (by omega)
  exact marked id small

def findService (e : EnsInfo) (sid : UInt32) : Option Nat := e.srv.findIdx? (Service.sid · = sid)

/-- The component fills the primary or the secondary pointer of a service that has none yet. -/
def attach (ac : Mscstau) (s : Service) : Service × Nat :=
  if ac.primary ≠ 0 ∧ s.pa = none then ({ s with pa := some ac.subChId }, 1)
  else if ac.primary = 0 ∧ s.sa = none then ({ s with sa := some ac.subChId }, 1)
  else (s, 0)

def Mscstau.dabplus (ac : Mscstau) : Int := if ac.ascTy = 0x3f then 1 else 0

def addService (e : EnsInfo) (ac : Mscstau) (sid : UInt32) : EnsInfo :=
  let entry := match findService e sid with
    | some i => (e.srv, i)
    | none => (e.srv ++ [Service.fresh sid], e.srv.length)
  let schan := store e.schan ac.subChId
    { e.schan ac.subChId with dabplus := if ac.ascTy = 0x3f then 1 else 0 }
  let s := attach ac (entry.1[entry.2]?.getD (Service.fresh sid))
  { e with srv := entry.1.set entry.2 s.1, numSrvs := e.numSrvs + s.2, schan := schan }

theorem addService_srv (e : EnsInfo) (ac : Mscstau) (sid : UInt32) :
    (addService e ac sid).srv =
      amend Service.sid sid (Service.fresh sid) (fun s => (attach ac s).1) e.srv := by
  rw [← set_amend]
  unfold addService findService
  cases e.srv.findIdx? (Service.sid · = sid) with
  | none => simp
  | some i => rfl

def addSubchannel (e : EnsInfo) (s : Subch) : EnsInfo :=
  if (e.schan s.subchid).subchid > 64 then { e with schan := store e.schan s.subchid s } else e

inductive EnsCall where
  | service (ac : Mscstau) (sid : UInt32)
  | subchannel (s : Subch)

def EnsCall.run (e : EnsInfo) : EnsCall → EnsInfo
  | .service ac sid => addService e ac sid
  | .subchannel s => addSubchannel e s

/-- The only calls that change a sub-channel's record are its components and its first
description. -/
theorem run_schan (id : Nat) (e : EnsInfo) (call : EnsCall) : (call.run e).schan id =
    match call with
    | .service ac _ => if id = ac.subChId then { e.schan id with dabplus := ac.dabplus } else e.schan id
    | .subchannel s => if id = s.subchid ∧ (e.schan id).subchid > 64 then s else e.schan id := by
  cases call with
  | service ac sid =>
    simp only [EnsCall.run, addService, store_apply, Mscstau.dabplus]
    split
    · next same => rw [same]
    · rfl
  | subchannel s =>
    simp only [EnsCall.run, addSubchannel]
    by_cases unused : (e.schan s.subchid).subchid > 64
    · rw [if_pos unused]
      simp only [store_apply]
      by_cases same : id = s.subchid <;> simp [same, unused]
    · rw [if_neg unused]
      have kept : ¬(id = s.subchid ∧ (e.schan id).subchid > 64) := by
        rintro ⟨rfl, free⟩
        exact unused free
      rw [if_neg kept]

def runCalls (e : EnsInfo) (calls : List EnsCall) : EnsInfo := calls.foldl EnsCall.run (ficinit e)

def labelled (e : EnsInfo) : Bool :=
  if e.srv = [] then false else e.srv.all (Service.label · ≠ [])

/-- One numbered line of the displayed list: the service it belongs to and the sub-channel shown. -/
structure ListLine where
  index : Nat
  service : Service
  component : Option Nat
  deriving DecidableEq, Repr

/-- A secondary component is shown only after a primary one, on a line of its own. -/
def dispServices : Nat → List Service → List ListLine
  | _, [] => []
  | i, p :: next =>
    if p.pa ≠ none then
      if p.sa ≠ none then ⟨i, p, p.pa⟩ :: ⟨i + 1, p, p.sa⟩ :: dispServices (i + 2) next
      else ⟨i, p, p.pa⟩ :: dispServices (i + 1) next
    else ⟨i, p, none⟩ :: dispServices (i + 1) next

def dispEnsemble (e : EnsInfo) : List ListLine := dispServices 0 e.srv

structure SelSrv where
  sch : Option Nat
  sr : Symrange
  sid : UInt32

/-- The walk of `user_select_service`: `j` numbers the entries, two for each service with a
secondary component. -/
def selectService (i : Int) : Int → List Service → SelSrv → SelSrv
  | _, [], sel => sel
  | j, p :: next, sel =>
    let sel := if j = i ∨ (j = i - 1 ∧ p.sa ≠ none) then
        { sel with sid := p.sid, sch := if j = i - 1 ∧ p.sa ≠ none then p.sa else p.pa }
      else sel
    selectService i (if p.sa = none then j + 1 else j + 2) next sel

structure Selected where
  rq : Bool
  prompt : Option Int
  sel : SelSrv

/-- Determine which service to decode; `i` is the number read from the terminal, -1 for none. -/
def userSelectService (e : EnsInfo) (rq : Bool) (i : Int) (sel : SelSrv) : Selected :=
  let srvs : Int := e.numSrvs - 1
  let prompt := if rq then none else some srvs
  if i ≠ -1 then
    if i < e.numSrvs ∧ i ≥ 0 then ⟨true, prompt, selectService i 0 e.srv sel⟩
    else ⟨false, prompt, { sel with sch := none }⟩
  else ⟨true, prompt, sel⟩

end OpenDab
