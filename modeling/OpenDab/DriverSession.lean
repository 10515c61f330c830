import Mathlib.Algebra.GroupWithZero.Nat
import Mathlib.Data.Fintype.Basic
import Mathlib.Tactic.FinCases

/-! Sessions of the driver: the device is opened, the first read allocates two URBs and a receive
buffer, and closing it stops and frees the URBs. A completion handler may run between any two steps of
the task; its two assignments to `running` are steps of their own. -/
namespace OpenDab

/-- Where the completion handler of a URB is: it clears `running`, submits the URB again, and sets
`running`. -/
inductive Completion where
  | away
  | entered
  | submitted
  deriving DecidableEq, Repr

structure Urb where
  wfurb : Option Nat
  transferBuffer : Option Nat
  allocated : Bool
  running : Bool
  inFlight : Bool
  completion : Completion
  deriving DecidableEq, Repr

/-- Where the task is that uses the device: in `wavefinder_start_receive` before or behind the
submission of a URB, in `wavefinder_stop` before or behind the look at `running`, or before
`wavefinder_free_buffers`. -/
inductive Task where
  | idle
  | submit (i : Fin 2)
  | mark (i : Fin 2)
  | check (i : Fin 2)
  | kill (i : Fin 2)
  | free
  deriving DecidableEq, Repr

/-- `heap` has the blocks that have been allocated and not been freed. -/
structure Session where
  opened : Bool
  started : Bool
  urb : Fin 2 → Urb
  recbuf : Option Nat
  heap : List Nat
  next : Nat
  task : Task

def Session.initial : Session where
  opened := false
  started := false
  urb := fun _ => ⟨none, none, false, false, false, .away⟩
  recbuf := none
  heap := []
  next := 0
  task := .idle

namespace Session

def setUrb (s : Session) (i : Fin 2) (f : Urb → Urb) : Session :=
  { s with urb := Function.update s.urb i (f (s.urb i)) }

def kmalloc (ok : Bool) (s : Session) : Session × Option Nat :=
  if ok then ({ s with heap := s.next :: s.heap, next := s.next + 1 }, some s.next) else (s, none)

def Live (s : Session) (p : Option Nat) : Prop := ∃ a, p = some a ∧ a ∈ s.heap

@[simp] theorem live_some {s : Session} {a : Nat} : s.Live (some a) ↔ a ∈ s.heap := by
  simp [Live]

@[simp] theorem not_live_none {s : Session} : ¬s.Live none := by
  simp [Live]

instance (s : Session) : (p : Option Nat) → Decidable (s.Live p)
  | none => isFalse not_live_none
  | some a => decidable_of_iff (a ∈ s.heap) live_some.symm

/-- `none` if the block is not allocated; a null pointer is fine. -/
def kfree (p : Option Nat) (s : Session) : Option Session :=
  match p with
  | none => some s
  | some a => if a ∈ s.heap then some { s with heap := s.heap.erase a } else none

/-- Free the buffer and the URB, unless the host controller or the handler is using them. -/
def freeUrb (s : Session) (i : Fin 2) : Option Session :=
  if (s.urb i).allocated then
    if (s.urb i).inFlight ∨ (s.urb i).completion ≠ .away then none
    else do
      let s ← s.kfree (s.urb i).transferBuffer
      let s ← s.kfree (s.urb i).wfurb
      return s.setUrb i fun u => { u with allocated := false }
  else some s

def freeBuffers (s : Session) : Option Session := do
  let s ← s.freeUrb 0
  let s ← s.freeUrb 1
  -- if (!s->recbuf) kfree(s->recbuf)
  if s.recbuf = none then s.kfree s.recbuf else return s

end Session

structure Memory where
  pipesize : Bool
  urb : Fin 2 → Bool
  buffer : Fin 2 → Bool
  recbuf : Bool

namespace Session

def allocUrb (o : Memory) (i : Fin 2) (s : Session) : Session × Bool :=
  let r := s.kmalloc (o.urb i)
  let s := r.1.setUrb i fun u => { u with wfurb := r.2, transferBuffer := none }
  if r.2 = none then (s, false)
  else
    let r := s.kmalloc (o.buffer i)
    let s := r.1.setUrb i fun u => { u with transferBuffer := r.2 }
    if r.2 = none then (s, false)
    else (s.setUrb i fun u => { u with allocated := true, running := false }, true)

def allocBuffers (o : Memory) (s : Session) : Option (Session × Bool) :=
  if o.pipesize then
    let r := s.allocUrb o 0
    if r.2 then
      let r := r.1.allocUrb o 1
      if r.2 then
        let r := r.1.kmalloc o.recbuf
        let s := { r.1 with recbuf := r.2 }
        if r.2 = none then s.freeBuffers.map (·, false) else some (s, true)
      else r.1.freeBuffers.map (·, false)
    else r.1.freeBuffers.map (·, false)
  else some (s, false)

/-- `allocated != NURBS && s->state != _started`, in a read. -/
def Allocates (s : Session) : Prop :=
  s.task = .idle ∧ s.opened = true ∧ ¬(∀ i, (s.urb i).allocated = true) ∧ s.started = false

instance (s : Session) : Decidable s.Allocates := inferInstanceAs (Decidable (_ ∧ _))

end Session

inductive SessionEvent where
  | openDevice
  | startReceive (o : Memory)
  | submit (ok : Bool)
  | mark
  | release
  | check
  | kill
  | free
  | giveback (i : Fin 2)
  | resubmit (i : Fin 2) (ok : Bool)
  | resume (i : Fin 2)

def Task.later (next : Fin 2 → Task) (last : Task) (i : Fin 2) : Task := if i = 0 then next 1 else last

/-- Where the task goes from a look at `running` that finds it clear. -/
theorem Task.later_check (i : Fin 2) :
    Task.later .check .free i = .free ∨ ∃ j, Task.later .check .free i = .check j := by
  by_cases first : i = 0
  · exact .inr ⟨1, if_pos first⟩
  · exact .inl (if_neg first)

/-- One step of the task or of a handler. An event for which it is not the time changes nothing; `none`
is an access to memory that is not allocated, or its release while it is in use. -/
def Session.step (s : Session) : SessionEvent → Option Session
  | .openDevice =>
    if s.task = .idle ∧ s.opened = false then
      some { s with opened := true, urb := fun i => { s.urb i with allocated := false }, recbuf := none }
    else some s
  | .startReceive o =>
    if s.Allocates then (s.allocBuffers o).map fun r =>
      if r.2 then { r.1 with started := true, task := .submit 0 } else r.1
    else some s
  | .submit ok =>
    match s.task with
    | .submit i =>
      if s.Live (s.urb i).wfurb then
        if (s.urb i).running = false ∧ ok then
          some { s.setUrb i fun u => { u with inFlight := true } with task := .mark i }
        else some { s.setUrb i fun u => { u with running := false } with task := .later .submit .idle i }
      else none
    | _ => some s
  | .mark =>
    match s.task with
    | .mark i => some { s.setUrb i fun u => { u with running := true } with task := .later .submit .idle i }
    | _ => some s
  | .release =>
    if s.task = .idle ∧ s.opened = true then some { s with started := false, task := .check 0 } else some s
  | .check =>
    match s.task with
    | .check i => some { s with task := if (s.urb i).running then .kill i else .later .check .free i }
    | _ => some s
  | .kill =>
    match s.task with
    | .kill i =>
      -- usb_kill_urb waits for the handler
      if (s.urb i).completion = .away then
        if s.Live (s.urb i).wfurb then
          some { s.setUrb i fun u => { u with inFlight := false, running := false } with
            task := .later .check .free i }
        else none
      else some s
    | _ => some s
  | .free =>
    if s.task = .free then s.freeBuffers.map fun s => { s with opened := false, task := .idle } else some s
  | .giveback i =>
    if (s.urb i).inFlight = true ∧ (s.urb i).completion = .away then
      if s.Live (s.urb i).wfurb ∧ s.Live (s.urb i).transferBuffer ∧ s.Live s.recbuf then
        some (s.setUrb i fun u => { u with inFlight := false, running := false, completion := .entered })
      else none
    else some s
  | .resubmit i ok =>
    if (s.urb i).completion = .entered then
      if s.Live (s.urb i).wfurb then
        if ok then
          some (s.setUrb i fun u => { u with inFlight := true, completion := .submitted })
        else some (s.setUrb i fun u => { u with completion := .away })
      else none
    else some s
  | .resume i =>
    if (s.urb i).completion = .submitted then
      some (s.setUrb i fun u => { u with running := true, completion := .away })
    else some s

def Session.run (s : Session) (events : List SessionEvent) : Option Session := events.foldlM Session.step s

/-- A handler runs between the look at `running`, which it has cleared, and its URB being freed. -/
example : Session.initial.run [.openDevice, .startReceive ⟨true, fun _ => true, fun _ => true, true⟩,
    .submit true, .mark, .submit true, .mark, .giveback 0, .release, .check, .resubmit 0 true, .resume 0,
    .check, .kill, .free] = none := by
  decide

def Session.tried (s : Session) : SessionEvent → List Memory
  | .startReceive o => if s.Allocates then [o] else []
  | _ => []

def Session.attempts (s : Session) : List SessionEvent → List Memory
  | [] => []
  | e :: events =>
    match s.step e with
    | none => s.tried e
    | some s' => s.tried e ++ s'.attempts events

/-- How many blocks nothing will ever free: the URB whose buffer cannot be allocated, or the receive
buffer. -/
def Memory.leaks (o : Memory) : Nat :=
  if !o.pipesize || !o.urb 0 then 0
  else if !o.buffer 0 then 1
  else if !o.urb 1 then 0
  else if !o.buffer 1 || o.recbuf then 1
  else 0

theorem Memory.leaks_first {o : Memory} (pipesize : o.pipesize = true)
    (failed : ¬(o.urb 0 = true ∧ o.buffer 0 = true)) : o.leaks = (o.urb 0).toNat := by
  unfold Memory.leaks
  cases urb : o.urb 0 <;> simp_all

theorem Memory.leaks_second {o : Memory} (pipesize : o.pipesize = true) (urb : o.urb 0 = true)
    (buffer : o.buffer 0 = true) (failed : ¬(o.urb 1 = true ∧ o.buffer 1 = true)) :
    o.leaks = (o.urb 1).toNat := by
  unfold Memory.leaks
  cases urb' : o.urb 1 <;> simp_all

/-- The look at `running` finds no handler of that URB under way. -/
def Session.InOrder (s : Session) : SessionEvent → Prop
  | .check => ∀ i, s.task = .check i → (s.urb i).completion = .away
  | _ => True

instance (s : Session) : (e : SessionEvent) → Decidable (s.InOrder e)
  | .check => inferInstanceAs (Decidable (∀ i, s.task = .check i → (s.urb i).completion = .away))
  | .openDevice | .startReceive _ | .submit _ | .mark | .release | .kill | .free | .giveback _
  | .resubmit _ _ | .resume _ => isTrue trivial

def Session.Orderly (s : Session) : List SessionEvent → Prop
  | [] => True
  | e :: events => s.InOrder e ∧ ∀ t, s.step e = some t → t.Orderly events

instance decidableOrderly (s : Session) : (events : List SessionEvent) → Decidable (s.Orderly events)
  | [] => isTrue trivial
  | e :: events =>
    match stepped : s.step e with
    | none => decidable_of_iff (s.InOrder e) (by simp [Session.Orderly, stepped])
    | some t =>
      have := decidableOrderly t events
      decidable_of_iff (s.InOrder e ∧ t.Orderly events) (by simp [Session.Orderly, stepped])

inductive Hold where
  | quiet
  | tracked
  | loose
  deriving DecidableEq

def Hold.Of : Hold → Urb → Prop
  | .quiet, u => u.inFlight = false ∧ u.completion = .away ∧ u.running = false
  | .tracked, u => (u.completion = .entered → u.inFlight = false) ∧
      (u.completion = .away → u.inFlight = true → u.running = true)
  | .loose, u => u.completion = .entered → u.inFlight = false

theorem Hold.Of.tracked {u : Urb} (quiet : Hold.quiet.Of u) : Hold.tracked.Of u := by
  obtain ⟨flight, -, -⟩ := quiet
  constructor
  · intro _
    exact flight
  · intro _ flying
    rw [flight] at flying
    contradiction

def Task.hold : Task → Fin 2 → Hold
  | .idle, _ => .tracked
  | .submit i, j => if j < i then .tracked else .quiet
  | .mark i, j => if j < i then .tracked else if j = i then .loose else .quiet
  | .check i, j => if j < i then .quiet else .tracked
  | .kill i, j => if j < i then .quiet else if j = i then .loose else .tracked
  | .free, _ => .quiet

theorem hold_submit : ∀ i, (Task.submit i).hold i = .quiet := by decide

theorem hold_mark : ∀ i j, (Task.mark i).hold j = if j = i then .loose else (Task.submit i).hold j := by
  decide

theorem hold_later_submit : ∀ i j,
    (Task.later .submit .idle i).hold j = if j = i then .tracked else (Task.submit i).hold j := by
  decide

theorem hold_check : ∀ i, (Task.check i).hold i = .tracked := by decide

theorem hold_kill : ∀ i j, (Task.kill i).hold j = if j = i then .loose else (Task.check i).hold j := by
  decide

theorem hold_later_check : ∀ i j,
    (Task.later .check .free i).hold j = if j = i then .quiet else (Task.check i).hold j := by
  decide

def Task.Closing : Task → Prop
  | .check _ | .kill _ | .free => True
  | _ => False

theorem not_closing_later_submit (i : Fin 2) : ¬(Task.later .submit .idle i).Closing := by
  by_cases first : i = 0
  · rw [Task.later, if_pos first]
    exact id
  · rw [Task.later, if_neg first]
    exact id

/-! What a handler does to its own URB keeps what is known of it. -/

variable {h : Hold} {u : Urb} (held : h.Of u)
include held

theorem Hold.Of.giveback (flying : u.inFlight = true) :
    h.Of { u with inFlight := false, running := false, completion := .entered } := by
  cases h with
  | quiet =>
    have still := held.1
    rw [flying] at still
    contradiction
  | tracked => exact ⟨fun _ => rfl, nofun⟩
  | loose => exact fun _ => rfl

theorem Hold.Of.resubmit (entered : u.completion = .entered) :
    h.Of { u with inFlight := true, completion := .submitted } ∧ h.Of { u with completion := .away } := by
  cases h with
  | quiet =>
    have away := held.2.1
    rw [entered] at away
    contradiction
  | tracked =>
    refine ⟨⟨nofun, nofun⟩, nofun, fun _ flying => ?_⟩
    have still := held.1 entered
    rw [flying] at still
    contradiction
  | loose => exact ⟨nofun, nofun⟩

theorem Hold.Of.resume (submitted : u.completion = .submitted) :
    h.Of { u with running := true, completion := .away } := by
  cases h with
  | quiet =>
    have away := held.2.1
    rw [submitted] at away
    contradiction
  | tracked => exact ⟨nofun, fun _ _ => rfl⟩
  | loose => exact nofun

omit held

namespace Session

structure Bare (k : Nat) (s : Session) : Prop where
  unallocated : ∀ i, (s.urb i).allocated = false
  quiet : ∀ i, Hold.quiet.Of (s.urb i)
  stopped : s.started = false
  task : s.task = .idle ∨ s.opened = true ∧ (s.task = .free ∨ ∃ i, s.task = .check i)
  recbuf : s.opened = true → s.recbuf = none
  lost : s.heap.length = k

/-- Everything is allocated, and `k` blocks will be lost. -/
structure Equipped (k n : Nat) (old : List Nat) (s : Session) : Prop where
  opened : s.opened = true
  allocated : ∀ i, (s.urb i).allocated = true
  wfurb : ∀ i : Fin 2, (s.urb i).wfurb = some (n + 2 * i.val)
  transferBuffer : ∀ i : Fin 2, (s.urb i).transferBuffer = some (n + 2 * i.val + 1)
  recbuf : s.recbuf = some (n + 4)
  heap : s.heap = [n + 4, n + 3, n + 2, n + 1, n] ++ old
  lost : old.length + 1 = k
  held : ∀ i, (s.task.hold i).Of (s.urb i)
  stopped : s.task.Closing → s.started = false

def Inv (k : Nat) (s : Session) : Prop := s.Bare k ∨ ∃ n old, s.Equipped k n old

theorem initial_inv : initial.Inv 0 := by
  refine .inl ⟨?_, ?_, rfl, .inl rfl, ?_, rfl⟩
  · intro _
    rfl
  · intro _
    exact ⟨rfl, rfl, rfl⟩
  · intro _
    rfl

theorem kfree_some {s : Session} {a : Nat} (here : a ∈ s.heap) :
    s.kfree (some a) = some { s with heap := s.heap.erase a } :=
  if_pos here

theorem freeUrb_skipped {s : Session} {i : Fin 2} (unallocated : (s.urb i).allocated = false) :
    s.freeUrb i = some s := by
  simp [freeUrb, unallocated]

theorem freeUrb_freed {s : Session} {i : Fin 2} {a b : Nat} (allocated : (s.urb i).allocated = true)
    (quiet : Hold.quiet.Of (s.urb i)) (wfurb : (s.urb i).wfurb = some a)
    (buffer : (s.urb i).transferBuffer = some b) (here : b ∈ s.heap) (there : a ∈ s.heap.erase b) :
    s.freeUrb i = some ({ s with heap := (s.heap.erase b).erase a }.setUrb i
      fun u => { u with allocated := false }) := by
  obtain ⟨flight, away, -⟩ := quiet
  have unused : ¬((s.urb i).inFlight = true ∨ (s.urb i).completion ≠ .away) := by
    rw [flight, away]
    decide
  rw [freeUrb, if_pos allocated, if_neg unused, buffer, kfree_some here]
  change (kfree (s.urb i).wfurb { s with heap := s.heap.erase b }).bind _ = _
  rw [wfurb, kfree_some there]
  rfl

/-- Freeing the receive buffer does nothing: it is passed on only where it is a null pointer. -/
theorem freeBuffers_eq {s : Session} : s.freeBuffers = (s.freeUrb 0).bind (·.freeUrb 1) := by
  have kept : ∀ t : Session, (if t.recbuf = none then t.kfree t.recbuf else some t) = some t := by
    intro t
    by_cases null : t.recbuf = none
    · rw [if_pos null, null]
      rfl
    · exact if_neg null
  rw [freeBuffers]
  cases s.freeUrb 0 with
  | none => rfl
  | some t =>
    change (t.freeUrb 1).bind (fun u => if u.recbuf = none then u.kfree u.recbuf else some u) = t.freeUrb 1
    cases t.freeUrb 1 with
    | none => rfl
    | some u => exact kept u

def Freed (heap : List Nat) (s : Session) : Prop :=
  ∃ urb : Fin 2 → Urb, s.freeBuffers = some { s with urb := urb, heap := heap } ∧
    ∀ i, (urb i).allocated = false ∧ Hold.quiet.Of (urb i)

section Freed

variable {s : Session} (quiet : ∀ i, Hold.quiet.Of (s.urb i))
include quiet

theorem freed_none (unallocated : ∀ i, (s.urb i).allocated = false) : s.Freed s.heap := by
  refine ⟨s.urb, ?_, fun i => ⟨unallocated i, quiet i⟩⟩
  rw [freeBuffers_eq, freeUrb_skipped (unallocated 0)]
  exact freeUrb_skipped (unallocated 1)

variable {a b : Nat} (allocated : (s.urb 0).allocated = true) (wfurb : (s.urb 0).wfurb = some a)
  (buffer : (s.urb 0).transferBuffer = some b) (here : b ∈ s.heap) (there : a ∈ s.heap.erase b)
include allocated wfurb buffer here there

theorem freed_first (unallocated : (s.urb 1).allocated = false) :
    s.Freed ((s.heap.erase b).erase a) := by
  refine ⟨Function.update s.urb 0 { s.urb 0 with allocated := false }, ?_, ?_⟩
  · rw [freeBuffers_eq, freeUrb_freed allocated (quiet 0) wfurb buffer here there]
    exact freeUrb_skipped unallocated
  · refine Fin.forall_fin_two.mpr ⟨?_, ?_⟩
    · exact ⟨rfl, quiet 0⟩
    · exact ⟨unallocated, quiet 1⟩

theorem freed_both {c d : Nat} (allocated' : (s.urb 1).allocated = true)
    (wfurb' : (s.urb 1).wfurb = some c) (buffer' : (s.urb 1).transferBuffer = some d)
    (here' : d ∈ (s.heap.erase b).erase a) (there' : c ∈ ((s.heap.erase b).erase a).erase d) :
    s.Freed ((((s.heap.erase b).erase a).erase d).erase c) := by
  refine ⟨Function.update (Function.update s.urb 0 { s.urb 0 with allocated := false }) 1
    { s.urb 1 with allocated := false }, ?_, ?_⟩
  · rw [freeBuffers_eq, freeUrb_freed allocated (quiet 0) wfurb buffer here there]
    exact freeUrb_freed allocated' (quiet 1) wfurb' buffer' here' there'
  · refine Fin.forall_fin_two.mpr ⟨?_, ?_⟩
    · exact ⟨rfl, quiet 0⟩
    · exact ⟨rfl, quiet 1⟩

end Freed

section Equipped

variable {k n : Nat} {old : List Nat} {s : Session} (equipped : s.Equipped k n old)
include equipped

theorem Equipped.live_wfurb (i : Fin 2) : s.Live (s.urb i).wfurb := by
  rw [equipped.wfurb, live_some, equipped.heap]
  have small := i.isLt
  simp only [List.cons_append, List.nil_append, List.mem_cons]
  omega

theorem Equipped.live_transferBuffer (i : Fin 2) : s.Live (s.urb i).transferBuffer := by
  rw [equipped.transferBuffer, live_some, equipped.heap]
  have small := i.isLt
  simp only [List.cons_append, List.nil_append, List.mem_cons]
  omega

theorem Equipped.live_recbuf : s.Live s.recbuf := by
  rw [equipped.recbuf, live_some, equipped.heap]
  exact List.mem_cons_self

theorem Equipped.not_allocates : ¬s.Allocates := by
  rintro ⟨-, -, missing, -⟩
  exact missing equipped.allocated

/-- A step of the task or a handler that leaves the memory alone. -/
theorem Equipped.move {i : Fin 2} {f : Urb → Urb} {task : Task} {started : Bool}
    (same : ∀ u, (f u).wfurb = u.wfurb ∧ (f u).transferBuffer = u.transferBuffer ∧
      (f u).allocated = u.allocated)
    (this : (task.hold i).Of (f (s.urb i))) (others : ∀ j, j ≠ i → (task.hold j).Of (s.urb j))
    (stopped : task.Closing → started = false) :
    Equipped k n old { s.setUrb i f with task := task, started := started } := by
  have kept : ∀ {β : Type} (g : Urb → β), (∀ u, g (f u) = g u) → ∀ j,
      g (Function.update s.urb i (f (s.urb i)) j) = g (s.urb j) := by
    intro β g unchanged j
    by_cases here : j = i
    · subst here
      rw [Function.update_self, unchanged]
    · rw [Function.update_of_ne here]
  refine ⟨equipped.opened, ?_, ?_, ?_, equipped.recbuf, equipped.heap, equipped.lost, ?_, stopped⟩
  · intro j
    exact (kept Urb.allocated (fun u => (same u).2.2) j).trans (equipped.allocated j)
  · intro j
    exact (kept Urb.wfurb (fun u => (same u).1) j).trans (equipped.wfurb j)
  · intro j
    exact (kept Urb.transferBuffer (fun u => (same u).2.1) j).trans (equipped.transferBuffer j)
  · intro j
    change (task.hold j).Of (Function.update s.urb i (f (s.urb i)) j)
    by_cases here : j = i
    · subst here
      rwa [Function.update_self]
    · rw [Function.update_of_ne here]
      exact others j here

/-- The blocks of both URBs are freed, and the receive buffer is not. -/
theorem Equipped.freed (task : s.task = .free) :
    ∃ s', s.freeBuffers = some s' ∧ Bare k { s' with opened := false, task := .idle } := by
  have quiet : ∀ i, Hold.quiet.Of (s.urb i) := by
    intro i
    have held := equipped.held i
    rwa [task] at held
  have heap := equipped.heap
  obtain ⟨urb, freed, after⟩ := freed_both quiet (equipped.allocated 0) (equipped.wfurb 0)
    (equipped.transferBuffer 0) (by simp [heap]) (by simp [heap]) (equipped.allocated 1)
    (equipped.wfurb 1) (equipped.transferBuffer 1) (by simp [heap]) (by simp [heap])
  refine ⟨_, freed, fun i => (after i).1, fun i => (after i).2, ?_, .inl rfl, nofun, ?_⟩
  · apply equipped.stopped
    rw [task]
    trivial
  · simp [heap, ← equipped.lost]

end Equipped

section Allocation

variable {o : Memory} {i : Fin 2} {s : Session}

/-- What fails leaves the URB without a buffer, and loses the URB itself if that has been allocated. -/
theorem allocUrb_failed (failed : ¬(o.urb i = true ∧ o.buffer i = true)) :
    ∃ (lost : List Nat) (next : Nat) (wfurb : Option Nat),
      s.allocUrb o i = ({ s with heap := lost ++ s.heap, next := next }.setUrb i
        fun u => { u with wfurb := wfurb, transferBuffer := none }, false) ∧
        lost.length = (o.urb i).toNat := by
  cases urb : o.urb i with
  | false =>
    refine ⟨[], s.next, none, ?_, rfl⟩
    rw [allocUrb, urb]
    rfl
  | true =>
    have missing : o.buffer i = false := by simpa [urb] using failed
    refine ⟨[s.next], s.next + 1, some s.next, ?_, rfl⟩
    rw [allocUrb, urb, missing]
    simp [kmalloc, setUrb]

theorem allocUrb_done (urb : o.urb i = true) (buffer : o.buffer i = true) :
    s.allocUrb o i = ({ s with heap := (s.next + 1) :: s.next :: s.heap, next := s.next + 2 }.setUrb i
      fun u => { u with
        wfurb := some s.next
        transferBuffer := some (s.next + 1)
        allocated := true
        running := false }, true) := by
  rw [allocUrb, urb, buffer]
  simp [kmalloc, setUrb]

inductive Allocated (k : Nat) : Option (Session × Bool) → Prop where
  | failed {s : Session} (bare : s.Bare k) : Allocated k (some (s, false))
  | done {s : Session} {n : Nat} {old : List Nat}
      (equipped : Equipped k n old { s with started := true, task := .submit 0 }) :
      Allocated k (some (s, true))

theorem Freed.allocated {k : Nat} {heap : List Nat} (freed : s.Freed heap) (idle : s.task = .idle)
    (stopped : s.started = false) (null : s.recbuf = none) (lost : heap.length = k) :
    Allocated k (s.freeBuffers.map (·, false)) := by
  obtain ⟨urb, done, after⟩ := freed
  rw [done]
  exact .failed ⟨fun i => (after i).1, fun i => (after i).2, stopped, .inl idle, fun _ => null, lost⟩

variable {k : Nat} (bare : s.Bare k) (idle : s.task = .idle) (opened : s.opened = true)
include bare idle opened

theorem allocBuffers_allocated : Allocated (k + o.leaks) (s.allocBuffers o) := by
  have null := bare.recbuf opened
  cases pipesize : o.pipesize with
  | false =>
    have leaks : o.leaks = 0 := by simp [Memory.leaks, pipesize]
    rw [allocBuffers, pipesize, leaks]
    exact .failed bare
  | true =>
  by_cases first : o.urb 0 = true ∧ o.buffer 0 = true
  · obtain ⟨urb, buffer⟩ := first
    have quiet : ∀ i : Fin 2, Hold.quiet.Of { s.urb i with running := false } := by
      intro i
      exact ⟨(bare.quiet i).1, (bare.quiet i).2.1, rfl⟩
    rw [allocBuffers, pipesize, allocUrb_done urb buffer]
    dsimp only
    rw [if_pos rfl, if_pos rfl]
    by_cases second : o.urb 1 = true ∧ o.buffer 1 = true
    · obtain ⟨urb', buffer'⟩ := second
      rw [allocUrb_done urb' buffer', if_pos rfl]
      cases recbuf : o.recbuf with
      | false =>
        have leaks : o.leaks = 0 := by simp [Memory.leaks, pipesize, urb, buffer, urb', buffer', recbuf]
        rw [leaks]
        refine Freed.allocated (freed_both ?_ (a := s.next) (b := s.next + 1) rfl rfl rfl ?_ ?_
          (c := s.next + 2) (d := s.next + 3) rfl rfl rfl ?_ ?_) ?_ ?_ ?_ ?_
        · exact Fin.forall_fin_two.mpr ⟨quiet 0, quiet 1⟩
        · simp [setUrb, kmalloc]
        · simp [setUrb, kmalloc]
        · simp [setUrb, kmalloc]
        · simp [setUrb, kmalloc]
        · exact idle
        · exact bare.stopped
        · rfl
        · simp [setUrb, kmalloc, bare.lost]
      | true =>
        have leaks : o.leaks = 1 := by simp [Memory.leaks, pipesize, urb, buffer, urb', buffer', recbuf]
        rw [leaks]
        refine .done (show Equipped (k + 1) s.next s.heap _ from ⟨opened, ?_, ?_, ?_, rfl, rfl, ?_, ?_, nofun⟩)
        · exact Fin.forall_fin_two.mpr ⟨rfl, rfl⟩
        · exact Fin.forall_fin_two.mpr ⟨rfl, rfl⟩
        · exact Fin.forall_fin_two.mpr ⟨rfl, rfl⟩
        · exact congrArg (· + 1) bare.lost
        · exact Fin.forall_fin_two.mpr ⟨quiet 0, quiet 1⟩
    · obtain ⟨lost, next, wfurb, failed, length⟩ := allocUrb_failed
        (s := { s with heap := (s.next + 1) :: s.next :: s.heap, next := s.next + 2 }.setUrb 0
          fun u => { u with
            wfurb := some s.next
            transferBuffer := some (s.next + 1)
            allocated := true
            running := false }) second
      have here : s.next + 1 ∈ lost ++ (s.next + 1) :: s.next :: s.heap := by simp
      have there : s.next ∈ (lost ++ (s.next + 1) :: s.next :: s.heap).erase (s.next + 1) :=
        (List.mem_erase_of_ne (by omega)).mpr (by simp)
      rw [failed, if_neg Bool.false_ne_true, Memory.leaks_second pipesize urb buffer second, ← length]
      refine Freed.allocated (freed_first ?_ (a := s.next) (b := s.next + 1) rfl rfl rfl here there ?_) idle
        bare.stopped null ?_
      · exact Fin.forall_fin_two.mpr ⟨quiet 0, bare.quiet 1⟩
      · exact bare.unallocated 1
      · change (((lost ++ (s.next + 1) :: s.next :: s.heap).erase (s.next + 1)).erase s.next).length = _
        rw [List.length_erase_of_mem there, List.length_erase_of_mem here, ← bare.lost]
        simp only [List.length_append, List.length_cons]
        omega
  · obtain ⟨lost, next, wfurb, failed, length⟩ := allocUrb_failed (s := s) first
    rw [allocBuffers, pipesize, failed, Memory.leaks_first pipesize first, ← length]
    refine Freed.allocated (freed_none ?_ ?_) idle bare.stopped null ?_
    · exact Fin.forall_fin_two.mpr ⟨bare.quiet 0, bare.quiet 1⟩
    · exact Fin.forall_fin_two.mpr ⟨bare.unallocated 0, bare.unallocated 1⟩
    · change (lost ++ s.heap).length = _
      rw [List.length_append, bare.lost, Nat.add_comm]

end Allocation

section BareStep

variable {k : Nat} {s : Session} (bare : s.Bare k)
include bare

theorem Bare.allocates : s.Allocates ↔ s.task = .idle ∧ s.opened = true := by
  constructor
  · rintro ⟨idle, opened, -⟩
    exact ⟨idle, opened⟩
  · rintro ⟨idle, opened⟩
    refine ⟨idle, opened, ?_, bare.stopped⟩
    intro allocated
    have first := allocated 0
    rw [bare.unallocated 0] at first
    contradiction

theorem Bare.startReceive (o : Memory) :
    ∃ s', s.step (.startReceive o) = some s' ∧
      s'.Inv (k + ((s.tried (.startReceive o)).map Memory.leaks).sum) := by
  by_cases allocates : s.Allocates
  · obtain ⟨idle, opened⟩ := bare.allocates.mp allocates
    have result := allocBuffers_allocated (o := o) bare idle opened
    have more : ((s.tried (.startReceive o)).map Memory.leaks).sum = o.leaks := by
      simp [tried, allocates]
    rw [step, if_pos allocates, more]
    generalize s.allocBuffers o = r at result ⊢
    cases result with
    | failed bare' => exact ⟨_, rfl, .inl bare'⟩
    | done equipped => exact ⟨_, rfl, .inr ⟨_, _, equipped⟩⟩
  · have none : ((s.tried (.startReceive o)).map Memory.leaks).sum = 0 := by
      simp [tried, allocates]
    rw [step, if_neg allocates, none]
    exact ⟨s, rfl, .inl bare⟩

theorem Bare.unmoved {e : SessionEvent} (receiving : (∃ ok, e = .submit ok) ∨ e = .mark ∨ e = .kill) :
    s.step e = some s := by
  rcases receiving with ⟨ok, rfl⟩ | rfl | rfl <;>
    rcases bare.task with task | ⟨-, task | ⟨i, task⟩⟩ <;>
    rw [step, task]

theorem Bare.step_inv (e : SessionEvent) :
    ∃ s', s.step e = some s' ∧ s'.Inv (k + ((s.tried e).map Memory.leaks).sum) := by
  have same : s.Inv k := .inl bare
  cases e with
  | startReceive o => exact bare.startReceive o
  | openDevice =>
    by_cases closed : s.task = .idle ∧ s.opened = false
    · rw [step, if_pos closed]
      refine ⟨_, rfl, .inl ⟨fun _ => rfl, bare.quiet, bare.stopped, .inl closed.1, fun _ => rfl, bare.lost⟩⟩
    · exact ⟨s, if_neg closed, same⟩
  | submit ok => exact ⟨s, bare.unmoved (.inl ⟨ok, rfl⟩), same⟩
  | mark => exact ⟨s, bare.unmoved (.inr (.inl rfl)), same⟩
  | kill => exact ⟨s, bare.unmoved (.inr (.inr rfl)), same⟩
  | release =>
    by_cases ready : s.task = .idle ∧ s.opened = true
    · rw [step, if_pos ready]
      exact ⟨_, rfl, .inl ⟨bare.unallocated, bare.quiet, rfl, .inr ⟨ready.2, .inr ⟨0, rfl⟩⟩,
        bare.recbuf, bare.lost⟩⟩
    · exact ⟨s, if_neg ready, same⟩
  | check =>
    rcases bare.task with idle | ⟨opened, free | ⟨i, check⟩⟩
    · exact ⟨s, by rw [step, idle], same⟩
    · exact ⟨s, by rw [step, free], same⟩
    · have clear : ¬(s.urb i).running = true := by
        rw [(bare.quiet i).2.2]
        decide
      rw [step, check]
      dsimp only
      rw [if_neg clear]
      exact ⟨_, rfl, .inl ⟨bare.unallocated, bare.quiet, bare.stopped, .inr ⟨opened, Task.later_check i⟩,
        bare.recbuf, bare.lost⟩⟩
  | free =>
    by_cases free : s.task = .free
    · obtain ⟨urb, freed, after⟩ := freed_none bare.quiet bare.unallocated
      rw [step, if_pos free, freed]
      exact ⟨_, rfl, .inl ⟨fun i => (after i).1, fun i => (after i).2, bare.stopped, .inl rfl, nofun,
        bare.lost⟩⟩
    · exact ⟨s, if_neg free, same⟩
  | giveback i =>
    refine ⟨s, if_neg ?_, same⟩
    rw [(bare.quiet i).1]
    simp
  | resubmit i ok =>
    refine ⟨s, if_neg ?_, same⟩
    rw [(bare.quiet i).2.1]
    decide
  | resume i =>
    refine ⟨s, if_neg ?_, same⟩
    rw [(bare.quiet i).2.1]
    decide

end BareStep

section EquippedStep

variable {k n : Nat} {old : List Nat} {s : Session} (equipped : s.Equipped k n old)
include equipped

theorem Equipped.inv : s.Inv k := .inr ⟨n, old, equipped⟩

/-- The task goes on behind a step for URB `i`. -/
theorem Equipped.advance {i : Fin 2} {f : Urb → Urb} {task : Task} {h : Hold} {started : Bool}
    (same : ∀ u, (f u).wfurb = u.wfurb ∧ (f u).transferBuffer = u.transferBuffer ∧
      (f u).allocated = u.allocated)
    (holds : ∀ j, task.hold j = if j = i then h else s.task.hold j)
    (this : h.Of (f (s.urb i))) (stopped : task.Closing → started = false) :
    Equipped k n old { s.setUrb i f with task := task, started := started } := by
  apply equipped.move same _ _ stopped
  · rw [holds, if_pos rfl]
    exact this
  · intro j other
    rw [holds, if_neg other]
    exact equipped.held j

/-- The task goes on and leaves the URBs alone. -/
theorem Equipped.goto {task : Task} {started : Bool} (held : ∀ j, (task.hold j).Of (s.urb j))
    (stopped : task.Closing → started = false) :
    Equipped k n old { s with task := task, started := started } :=
  ⟨equipped.opened, equipped.allocated, equipped.wfurb, equipped.transferBuffer, equipped.recbuf,
    equipped.heap, equipped.lost, held, stopped⟩

theorem Equipped.submit (ok : Bool) : ∃ s', s.step (.submit ok) = some s' ∧ s'.Equipped k n old := by
  cases task : s.task with
  | submit i =>
    have quiet : Hold.quiet.Of (s.urb i) := by
      have here := equipped.held i
      rwa [task, hold_submit] at here
    rw [step, task]
    dsimp only
    rw [if_pos (equipped.live_wfurb i)]
    by_cases accepted : (s.urb i).running = false ∧ ok = true
    · rw [if_pos accepted]
      refine ⟨_, rfl, equipped.advance (h := .loose) (fun _ => ⟨rfl, rfl, rfl⟩) ?_ ?_ nofun⟩
      · rw [task]
        exact hold_mark i
      · intro entered
        have away := quiet.2.1
        rw [entered] at away
        contradiction
    · rw [if_neg accepted]
      refine ⟨_, rfl, equipped.advance (h := .tracked) (fun _ => ⟨rfl, rfl, rfl⟩) ?_ ?_ ?_⟩
      · rw [task]
        exact hold_later_submit i
      · exact Hold.Of.tracked ⟨quiet.1, quiet.2.1, rfl⟩
      · intro closing
        exact absurd closing (not_closing_later_submit i)
  | idle => exact ⟨s, by rw [step, task], equipped⟩
  | mark i => exact ⟨s, by rw [step, task], equipped⟩
  | check i => exact ⟨s, by rw [step, task], equipped⟩
  | kill i => exact ⟨s, by rw [step, task], equipped⟩
  | free => exact ⟨s, by rw [step, task], equipped⟩

theorem Equipped.mark : ∃ s', s.step .mark = some s' ∧ s'.Equipped k n old := by
  cases task : s.task with
  | mark i =>
    have loose : Hold.loose.Of (s.urb i) := by
      have here := equipped.held i
      rwa [task, hold_mark, if_pos rfl] at here
    rw [step, task]
    refine ⟨_, rfl, equipped.advance (h := .tracked) (fun _ => ⟨rfl, rfl, rfl⟩) ?_ ?_ ?_⟩
    · intro j
      rw [task, hold_later_submit, hold_mark]
      split <;> rfl
    · exact ⟨loose, fun _ _ => rfl⟩
    · intro closing
      exact absurd closing (not_closing_later_submit i)
  | idle => exact ⟨s, by rw [step, task], equipped⟩
  | submit i => exact ⟨s, by rw [step, task], equipped⟩
  | check i => exact ⟨s, by rw [step, task], equipped⟩
  | kill i => exact ⟨s, by rw [step, task], equipped⟩
  | free => exact ⟨s, by rw [step, task], equipped⟩

theorem Equipped.check (inOrder : s.InOrder .check) :
    ∃ s', s.step .check = some s' ∧ s'.Equipped k n old := by
  cases task : s.task with
  | check i =>
    have tracked : Hold.tracked.Of (s.urb i) := by
      have here := equipped.held i
      rwa [task, hold_check] at here
    have stopped : s.started = false := equipped.stopped (by rw [task]; trivial)
    have away := inOrder i task
    rw [step, task]
    dsimp only
    cases running : (s.urb i).running with
    | true =>
      refine ⟨_, rfl, equipped.goto ?_ fun _ => stopped⟩
      intro j
      rw [if_pos rfl, hold_kill]
      by_cases here : j = i
      · rw [if_pos here, here]
        exact tracked.1
      · rw [if_neg here, ← task]
        exact equipped.held j
    | false =>
      refine ⟨_, rfl, equipped.goto ?_ fun _ => stopped⟩
      intro j
      rw [if_neg Bool.false_ne_true, hold_later_check]
      by_cases here : j = i
      · rw [if_pos here, here]
        refine ⟨?_, away, running⟩
        cases flight : (s.urb i).inFlight with
        | false => rfl
        | true => rw [← running, tracked.2 away flight]
      · rw [if_neg here, ← task]
        exact equipped.held j
  | idle => exact ⟨s, by rw [step, task], equipped⟩
  | submit i => exact ⟨s, by rw [step, task], equipped⟩
  | mark i => exact ⟨s, by rw [step, task], equipped⟩
  | kill i => exact ⟨s, by rw [step, task], equipped⟩
  | free => exact ⟨s, by rw [step, task], equipped⟩

theorem Equipped.kill : ∃ s', s.step .kill = some s' ∧ s'.Equipped k n old := by
  cases task : s.task with
  | kill i =>
    have stopped : s.started = false := equipped.stopped (by rw [task]; trivial)
    rw [step, task]
    dsimp only
    by_cases away : (s.urb i).completion = .away
    · rw [if_pos away, if_pos (equipped.live_wfurb i)]
      refine ⟨_, rfl, equipped.advance (h := .quiet) (fun _ => ⟨rfl, rfl, rfl⟩) ?_ ?_ fun _ => stopped⟩
      · intro j
        rw [task, hold_later_check, hold_kill]
        split <;> rfl
      · exact ⟨rfl, away, rfl⟩
    · rw [if_neg away]
      exact ⟨s, rfl, equipped⟩
  | idle => exact ⟨s, by rw [step, task], equipped⟩
  | submit i => exact ⟨s, by rw [step, task], equipped⟩
  | mark i => exact ⟨s, by rw [step, task], equipped⟩
  | check i => exact ⟨s, by rw [step, task], equipped⟩
  | free => exact ⟨s, by rw [step, task], equipped⟩

theorem Equipped.release : ∃ s', s.step .release = some s' ∧ s'.Equipped k n old := by
  by_cases ready : s.task = .idle ∧ s.opened = true
  · rw [step, if_pos ready]
    refine ⟨_, rfl, equipped.goto ?_ fun _ => rfl⟩
    intro i
    have here := equipped.held i
    rw [ready.1] at here
    exact here
  · exact ⟨s, if_neg ready, equipped⟩

theorem Equipped.handled {i : Fin 2} {f : Urb → Urb}
    (same : ∀ u, (f u).wfurb = u.wfurb ∧ (f u).transferBuffer = u.transferBuffer ∧
      (f u).allocated = u.allocated)
    (keeps : ∀ h : Hold, h.Of (s.urb i) → h.Of (f (s.urb i))) : (s.setUrb i f).Inv k :=
  .inr ⟨n, old,
    equipped.move same (keeps _ (equipped.held i)) (fun j _ => equipped.held j) equipped.stopped⟩

theorem Equipped.step_inv (e : SessionEvent) (inOrder : s.InOrder e) :
    ∃ s', s.step e = some s' ∧ s'.Inv (k + ((s.tried e).map Memory.leaks).sum) := by
  have same : s.Inv k := equipped.inv
  cases e with
  | openDevice =>
    refine ⟨s, if_neg ?_, same⟩
    rw [equipped.opened]
    simp
  | startReceive o =>
    have none : ((s.tried (.startReceive o)).map Memory.leaks).sum = 0 := by
      simp [tried, equipped.not_allocates]
    rw [step, if_neg equipped.not_allocates, none]
    exact ⟨s, rfl, same⟩
  | submit ok =>
    obtain ⟨s', stepped, equipped'⟩ := equipped.submit ok
    exact ⟨s', stepped, equipped'.inv⟩
  | mark =>
    obtain ⟨s', stepped, equipped'⟩ := equipped.mark
    exact ⟨s', stepped, equipped'.inv⟩
  | release =>
    obtain ⟨s', stepped, equipped'⟩ := equipped.release
    exact ⟨s', stepped, equipped'.inv⟩
  | check =>
    obtain ⟨s', stepped, equipped'⟩ := equipped.check inOrder
    exact ⟨s', stepped, equipped'.inv⟩
  | kill =>
    obtain ⟨s', stepped, equipped'⟩ := equipped.kill
    exact ⟨s', stepped, equipped'.inv⟩
  | free =>
    by_cases free : s.task = .free
    · obtain ⟨s', freed, bare⟩ := equipped.freed free
      rw [step, if_pos free, freed]
      exact ⟨_, rfl, .inl bare⟩
    · exact ⟨s, if_neg free, same⟩
  | giveback i =>
    by_cases due : (s.urb i).inFlight = true ∧ (s.urb i).completion = .away
    · rw [step, if_pos due,
        if_pos ⟨equipped.live_wfurb i, equipped.live_transferBuffer i, equipped.live_recbuf⟩]
      refine ⟨_, rfl, equipped.handled (fun _ => ⟨rfl, rfl, rfl⟩) ?_⟩
      intro h held
      exact held.giveback due.1
    · exact ⟨s, if_neg due, same⟩
  | resubmit i ok =>
    by_cases entered : (s.urb i).completion = .entered
    · rw [step, if_pos entered, if_pos (equipped.live_wfurb i)]
      cases ok with
      | true =>
        refine ⟨_, rfl, equipped.handled (fun _ => ⟨rfl, rfl, rfl⟩) ?_⟩
        intro h held
        exact (held.resubmit entered).1
      | false =>
        refine ⟨_, rfl, equipped.handled (fun _ => ⟨rfl, rfl, rfl⟩) ?_⟩
        intro h held
        exact (held.resubmit entered).2
    · exact ⟨s, if_neg entered, same⟩
  | resume i =>
    by_cases submitted : (s.urb i).completion = .submitted
    · rw [step, if_pos submitted]
      refine ⟨_, rfl, equipped.handled (fun _ => ⟨rfl, rfl, rfl⟩) ?_⟩
      intro h held
      exact held.resume submitted
    · exact ⟨s, if_neg submitted, same⟩

end EquippedStep

theorem Inv.step {k : Nat} {s : Session} (inv : s.Inv k) {e : SessionEvent} (inOrder : s.InOrder e) :
    ∃ s', s.step e = some s' ∧ s'.Inv (k + ((s.tried e).map Memory.leaks).sum) := by
  rcases inv with bare | ⟨n, old, equipped⟩
  · exact bare.step_inv e
  · exact equipped.step_inv e inOrder

theorem Inv.run {k : Nat} {s : Session} (inv : s.Inv k) {events : List SessionEvent}
    (orderly : s.Orderly events) :
    ∃ s', s.run events = some s' ∧ s'.Inv (k + ((s.attempts events).map Memory.leaks).sum) := by
  induction events generalizing k s with
  | nil => exact ⟨s, rfl, inv⟩
  | cons e events ih =>
    obtain ⟨inOrder, orderly⟩ := orderly
    obtain ⟨t, stepped, inv⟩ := inv.step inOrder
    obtain ⟨s', ran, inv⟩ := ih inv (orderly t stepped)
    refine ⟨s', ?_, ?_⟩
    · rw [Session.run, List.foldlM_cons, stepped]
      exact ran
    · rw [attempts, stepped]
      dsimp only
      rwa [List.map_append, List.sum_append, ← Nat.add_assoc]

end Session

/-- Whatever the allocations and submissions give and wherever the handlers run, as long as none is under
way when the task looks at the flag of its URB, no freed block is used and none is freed twice, and once
the device is closed no transfer is left and what stays allocated is what the allocations lost. -/
theorem driver_sessions (events : List SessionEvent) (orderly : Session.initial.Orderly events) :
    ∃ s, Session.initial.run events = some s ∧ (s.opened = false →
      s.task = .idle ∧ (∀ i, (s.urb i).inFlight = false ∧ (s.urb i).completion = .away) ∧
      s.heap.length = ((Session.initial.attempts events).map Memory.leaks).sum) := by
  obtain ⟨s, ran, inv⟩ := Session.initial_inv.run orderly
  refine ⟨s, ran, ?_⟩
  intro closed
  rcases inv with bare | ⟨n, old, equipped⟩
  · refine ⟨?_, fun i => ⟨(bare.quiet i).1, (bare.quiet i).2.1⟩, ?_⟩
    · rcases bare.task with idle | ⟨opened, -⟩
      · exact idle
      · rw [closed] at opened
        contradiction
    · rw [bare.lost, Nat.zero_add]
  · have opened := equipped.opened
    rw [closed] at opened
    contradiction

/-- A transfer comes back and is submitted again. -/
def sampleSession : List SessionEvent :=
  [.openDevice, .startReceive ⟨true, fun _ => true, fun _ => true, true⟩, .submit true, .mark, .submit true,
    .mark, .giveback 0, .resubmit 0 true, .resume 0, .release, .check, .kill, .check, .kill, .free]

theorem driver_sessions_sample : ∃ s, Session.initial.run sampleSession = some s ∧ s.opened = false ∧
    s.task = .idle ∧ (∀ i, (s.urb i).inFlight = false ∧ (s.urb i).completion = .away) ∧
      s.heap.length = 1 := by
  have closes : (Session.initial.run sampleSession).map Session.opened = some false := by decide
  obtain ⟨s, ran, afterwards⟩ := driver_sessions sampleSession (by decide)
  rw [ran, Option.map_some, Option.some_inj] at closes
  exact ⟨s, ran, closes, afterwards closes⟩

end OpenDab
