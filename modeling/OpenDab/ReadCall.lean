import OpenDab.Driver

/-! One call of `wavefinder_read`. The caller's entry is put on the wait queue before the loop and
taken off after it; one of the ways out of the loop does not come past that place. -/
namespace OpenDab

open Buffers

inductive TaskState where
  | running
  | interruptible
  deriving DecidableEq, Repr

/-- How a call ends: it is rejected before the loop, it has filled the caller's buffer, or
something has ended the loop. -/
inductive ReadEnd where
  | badPosition
  | badAddress
  | filled
  | startFailed
  | wouldBlock
  | signalled
  | copyFailed
  deriving DecidableEq, Repr

def ReadEnd.error : ReadEnd → Int
  | badPosition => -29
  | badAddress => -14
  | filled => 0
  | startFailed => -19
  | wouldBlock => -11
  | signalled => -512
  | copyFailed => -14

/-- The device as a reader sees it; `wait` has the entries of its wait queue. -/
structure ReadDev extends Wavefinder where
  started : Bool
  allocated : Bool
  wait : List Nat

/-- What happens during one round of the loop: the packets that are received before it looks at the
buffer and while it copies, whether buffers can be allocated, whether a signal is pending after the
sleep, and whether `copy_to_user` fails. -/
structure ReadRound where
  before : List IsoPacket
  during : List IsoPacket
  noMemory : Bool
  signal : Bool
  copyFails : Bool

def ReadDev.receive (pipesize : Nat) (s : ReadDev) (packets : List IsoPacket) : ReadDev :=
  let take (w : Wavefinder) (p : IsoPacket) := if w.accepts pipesize p then w.append p else w
  { s with toWavefinder := packets.foldl take s.toWavefinder }

/-- `wavefinder_start_receive`; the flag is its failure. -/
def ReadDev.startReceive (noMemory : Bool) (s : ReadDev) : ReadDev × Bool :=
  if !s.allocated && !s.started then
    if noMemory then (s, true)
    else ({ s with allocated := true, started := true, readptr := 0 }, false)
  else (s, false)

def ReadDev.restart (s : ReadDev) : ReadDev :=
  if s.readptr = s.count then { s with readptr := 0, count := 0 } else s

/-- The locals of a call: `buf` has the bytes copied to the caller, `ended` how it has ended. -/
structure ReadCall where
  dev : ReadDev
  task : TaskState
  count : Nat
  ret : Int
  buf : List UInt8
  ended : Option ReadEnd

/-- `if (!ret) ret = error`, and out of the loop. -/
def ReadCall.stop (e : ReadEnd) (c : ReadCall) : ReadCall :=
  { c with ret := if c.ret = 0 then e.error else c.ret, ended := some e }

def ReadCall.epilogue (me : Nat) (c : ReadCall) : ReadCall :=
  { c with task := .running, dev := { c.dev with wait := c.dev.wait.erase me } }

def ReadCall.again (me : Nat) (c : ReadCall) : ReadCall :=
  if 0 < c.count then c else (c.stop .filled).epilogue me

section Calls

variable (pipesize me : Nat) (nonblock : Bool)

def ReadCall.sleep (r : ReadRound) (c : ReadCall) : ReadCall :=
  let c := { c with task := .interruptible }
  let start := c.dev.startReceive r.noMemory
  let c := { c with dev := start.1 }
  if start.2 then (c.stop .startFailed).epilogue me
  else if nonblock then (c.stop .wouldBlock).epilogue me
  else
    -- schedule() comes back with the task running
    let c := { c with task := .running }
    if r.signal then (c.stop .signalled).epilogue me else c.again me

/-- The body of the loop when there are bytes; `goto err` is past the epilogue. -/
def ReadCall.copyOut (r : ReadRound) (c : ReadCall) : ReadCall :=
  let cnt := c.dev.cnt c.count
  if r.copyFails then c.stop .copyFailed
  else
    let buf := c.buf ++ cells c.dev.recbuf c.dev.readptr cnt
    let dev := { c.dev with readptr := c.dev.readptr + cnt }
    let dev := (dev.receive pipesize r.during).restart
    ({ c with dev := dev, count := c.count - cnt, ret := c.ret + cnt, buf := buf }).again me

def ReadCall.round (c : ReadCall) (r : ReadRound) : ReadCall :=
  if c.ended.isSome then c
  else
    let c := { c with dev := c.dev.receive pipesize r.before }
    if c.dev.cnt c.count = 0 then c.sleep me nonblock r else c.copyOut pipesize me r

/-- A call with the events of its rounds; rounds after its end change nothing. -/
def wavefinderRead (s : ReadDev) (ppos : Nat) (accessOk : Bool) (count : Nat)
    (rounds : List ReadRound) : ReadCall :=
  let c : ReadCall := ⟨s, .running, count, 0, [], none⟩
  if ppos ≠ 0 then c.stop .badPosition
  else if !accessOk then c.stop .badAddress
  else rounds.foldl (ReadCall.round pipesize me nonblock)
    ({ c with dev := { s with wait := me :: s.wait } }.again me)

@[simp] theorem ReadDev.receive_wait (s : ReadDev) (packets : List IsoPacket) :
    (s.receive pipesize packets).wait = s.wait := rfl

@[simp] theorem ReadDev.startReceive_wait (noMemory : Bool) (s : ReadDev) :
    (s.startReceive noMemory).1.wait = s.wait := by
  unfold ReadDev.startReceive
  split
  · cases noMemory <;> rfl
  · rfl

@[simp] theorem ReadDev.restart_wait (s : ReadDev) : s.restart.wait = s.wait := by
  unfold ReadDev.restart
  split <;> rfl

/-- Without packets in between, a round takes from the buffer what `Wavefinder.read` does. -/
theorem ReadDev.restart_read (s : ReadDev) (requested : Nat) :
    ({ s with readptr := s.readptr + s.cnt requested } : ReadDev).restart.toWavefinder =
      s.toWavefinder.read requested := by
  unfold ReadDev.restart Wavefinder.read
  split <;> simp_all

/-- What a call has returned once it has ended: the number of bytes, if there are any. -/
structure CleanExit (c : ReadCall) (e : ReadEnd) : Prop where
  queue : me ∉ c.dev.wait
  task : c.task = .running
  value : c.ret = if 0 < c.buf.length then (c.buf.length : Int) else e.error

structure ReadCall.Tracks (wait : List Nat) (c : ReadCall) : Prop where
  task : c.task = .running
  looping : c.ended = none → 0 < c.count ∧ c.dev.wait = me :: wait ∧ c.ret = c.buf.length
  finished : ∀ e, c.ended = some e → c.dev.wait = (if e = .copyFailed then me :: wait else wait) ∧
    c.ret = if 0 < c.buf.length then (c.buf.length : Int) else e.error

variable {me} {wait : List Nat}

omit me wait in
theorem ReadCall.stop_ret {c : ReadCall} (value : c.ret = c.buf.length) (e : ReadEnd) :
    (c.stop e).ret = if 0 < c.buf.length then (c.buf.length : Int) else e.error := by
  simp only [ReadCall.stop, value]
  by_cases empty : c.buf.length = 0
  · simp [empty]
  · rw [if_neg (by exact_mod_cast empty), if_pos (Nat.pos_of_ne_zero empty)]

/-- Every way out but one goes through the epilogue. -/
theorem ReadCall.stop_epilogue {e : ReadEnd} {c : ReadCall} (queue : c.dev.wait = me :: wait)
    (value : c.ret = c.buf.length) (other : e ≠ .copyFailed) :
    ((c.stop e).epilogue me).Tracks me wait ∧ ((c.stop e).epilogue me).ended ≠ some .copyFailed := by
  refine ⟨⟨rfl, (nomatch ·), fun e' ended => ?_⟩, fun failed => other (Option.some.inj failed)⟩
  obtain rfl : e = e' := Option.some.inj ended
  refine ⟨?_, ReadCall.stop_ret value e⟩
  simp [ReadCall.epilogue, ReadCall.stop, queue, other]

theorem ReadCall.again_tracks {c : ReadCall} (task : c.task = .running)
    (queue : c.dev.wait = me :: wait) (value : c.ret = c.buf.length) (going : c.ended = none) :
    (c.again me).Tracks me wait ∧ (c.again me).ended ≠ some .copyFailed := by
  unfold ReadCall.again
  split
  · next more =>
    refine ⟨⟨task, fun _ => ⟨more, queue, value⟩, fun e ended => ?_⟩, ?_⟩
    · rw [going] at ended
      cases ended
    · rw [going]
      exact (nomatch ·)
  · exact ReadCall.stop_epilogue queue value (by decide)

theorem ReadCall.sleep_tracks (nonblock : Bool) (r : ReadRound) {c : ReadCall}
    (queue : c.dev.wait = me :: wait) (value : c.ret = c.buf.length) (going : c.ended = none) :
    (c.sleep me nonblock r).Tracks me wait ∧ (c.sleep me nonblock r).ended ≠ some .copyFailed := by
  have kept : (c.dev.startReceive r.noMemory).1.wait = me :: wait := by simpa using queue
  unfold ReadCall.sleep
  dsimp only
  split
  · exact ReadCall.stop_epilogue kept value (by decide)
  · split
    · exact ReadCall.stop_epilogue kept value (by decide)
    · split
      · exact ReadCall.stop_epilogue kept value (by decide)
      · exact ReadCall.again_tracks rfl kept value going

/-- A round without a failing copy keeps the relation. -/
theorem ReadCall.copyOut_tracks {r : ReadRound} {c : ReadCall} (task : c.task = .running)
    (queue : c.dev.wait = me :: wait) (value : c.ret = c.buf.length) (going : c.ended = none)
    (copied : r.copyFails = false) :
    (c.copyOut pipesize me r).Tracks me wait ∧
      (c.copyOut pipesize me r).ended ≠ some .copyFailed := by
  unfold ReadCall.copyOut
  rw [if_neg (by simp [copied])]
  refine ReadCall.again_tracks task ?_ ?_ going
  · simpa using queue
  · simp [value]

/-- After a failing copy the entry is still in the queue. -/
theorem ReadCall.copyOut_failed {r : ReadRound} {c : ReadCall} (task : c.task = .running)
    (queue : c.dev.wait = me :: wait) (value : c.ret = c.buf.length) (failed : r.copyFails = true) :
    (c.copyOut pipesize me r).Tracks me wait ∧
      (c.copyOut pipesize me r).ended = some .copyFailed := by
  unfold ReadCall.copyOut
  rw [if_pos failed]
  refine ⟨⟨task, (nomatch ·), fun e ended => ?_⟩, rfl⟩
  obtain rfl : .copyFailed = e := Option.some.inj ended
  exact ⟨queue, ReadCall.stop_ret value _⟩

def ReadCall.CopyFails (r : ReadRound) (c : ReadCall) : Prop :=
  c.ended = none ∧ 0 < (c.dev.receive pipesize r.before).cnt c.count ∧ r.copyFails = true

theorem ReadCall.round_tracks (nonblock : Bool) {c : ReadCall} (tracks : c.Tracks me wait)
    (r : ReadRound) :
    (c.round pipesize me nonblock r).Tracks me wait ∧
      ((c.round pipesize me nonblock r).ended = some .copyFailed ↔
        c.ended = some .copyFailed ∨ c.CopyFails pipesize r) := by
  unfold ReadCall.round ReadCall.CopyFails
  rcases c with ⟨dev, task, count, ret, buf, _ | e⟩
  · obtain ⟨-, queue, value⟩ := tracks.looping rfl
    simp only [Option.isSome_none, Bool.false_eq_true, if_false, reduceCtorEq, false_or, true_and]
    split
    · next empty =>
      obtain ⟨after, other⟩ := ReadCall.sleep_tracks nonblock r
        (c := ⟨dev.receive pipesize r.before, task, count, ret, buf, none⟩) queue value rfl
      exact ⟨after, iff_of_false other fun fails => absurd fails.1 (by omega)⟩
    · next some =>
      have bytes : 0 < (dev.receive pipesize r.before).cnt count := Nat.pos_of_ne_zero some
      cases copy : r.copyFails with
      | false =>
        obtain ⟨after, other⟩ := ReadCall.copyOut_tracks pipesize
          (c := ⟨dev.receive pipesize r.before, task, count, ret, buf, none⟩) tracks.task queue value
          rfl copy
        exact ⟨after, iff_of_false other fun fails => by cases fails.2⟩
      | true =>
        obtain ⟨after, failed⟩ := ReadCall.copyOut_failed pipesize
          (c := ⟨dev.receive pipesize r.before, task, count, ret, buf, none⟩) tracks.task queue value
          copy
        exact ⟨after, iff_of_true failed ⟨bytes, rfl⟩⟩
  · exact ⟨tracks, by simp⟩

section Run

variable (me) (s : ReadDev) (ppos : Nat) (accessOk : Bool) (count : Nat)

theorem wavefinderRead_push (rounds : List ReadRound) (r : ReadRound) :
    wavefinderRead pipesize me nonblock s ppos accessOk count (rounds ++ [r]) =
      (wavefinderRead pipesize me nonblock s ppos accessOk count rounds).round pipesize me nonblock r := by
  unfold wavefinderRead
  dsimp only
  split
  · rfl
  · split
    · rfl
    · rw [List.foldl_append]
      rfl

def CopiesSucceed (rounds : List ReadRound) : Prop :=
  ∀ earlier r, earlier ++ [r] <+: rounds →
    ¬(wavefinderRead pipesize me nonblock s ppos accessOk count earlier).CopyFails pipesize r

theorem wavefinderRead_start :
    (wavefinderRead pipesize me nonblock s ppos accessOk count []).Tracks me s.wait ∧
      (wavefinderRead pipesize me nonblock s ppos accessOk count []).ended ≠ some .copyFailed := by
  have early (e : ReadEnd) (other : e ≠ .copyFailed) :
      ((⟨s, .running, count, 0, [], none⟩ : ReadCall).stop e).Tracks me s.wait ∧
        ((⟨s, .running, count, 0, [], none⟩ : ReadCall).stop e).ended ≠ some .copyFailed := by
    refine ⟨⟨rfl, (nomatch ·), fun e' ended => ?_⟩, fun failed => other (Option.some.inj failed)⟩
    obtain rfl : e = e' := Option.some.inj ended
    rw [if_neg other]
    exact ⟨rfl, rfl⟩
  unfold wavefinderRead
  dsimp only
  split
  · exact early .badPosition (by decide)
  · split
    · exact early .badAddress (by decide)
    · exact ReadCall.again_tracks rfl rfl rfl rfl

theorem wavefinderRead_tracks (rounds : List ReadRound) :
    (wavefinderRead pipesize me nonblock s ppos accessOk count rounds).Tracks me s.wait ∧
      ((wavefinderRead pipesize me nonblock s ppos accessOk count rounds).ended = some .copyFailed ↔
        ¬CopiesSucceed pipesize me nonblock s ppos accessOk count rounds) := by
  induction rounds using List.reverseRecOn with
  | nil =>
    obtain ⟨tracks, other⟩ := wavefinderRead_start pipesize me nonblock s ppos accessOk count
    exact ⟨tracks, iff_of_false other (not_not.mpr Steps.forall_nil)⟩
  | append_singleton rounds r ih =>
    obtain ⟨tracks, failed⟩ := ih
    obtain ⟨after, fails⟩ := ReadCall.round_tracks pipesize nonblock tracks r
    rw [wavefinderRead_push, CopiesSucceed, Steps.forall_push, fails, failed, CopiesSucceed]
    exact ⟨after, by rw [not_and_or, not_not]⟩

/-- A call cleans up, however it ends, exactly when no copy to the caller fails. -/
theorem read_cleans_up_iff (fresh : me ∉ s.wait) (rounds : List ReadRound) :
    (∀ e, (wavefinderRead pipesize me nonblock s ppos accessOk count rounds).ended = some e →
      CleanExit me (wavefinderRead pipesize me nonblock s ppos accessOk count rounds) e) ↔
      CopiesSucceed pipesize me nonblock s ppos accessOk count rounds := by
  obtain ⟨tracks, failed⟩ := wavefinderRead_tracks pipesize me nonblock s ppos accessOk count rounds
  constructor
  · intro clean
    by_contra fails
    have ended := failed.mpr fails
    have queue := (clean _ ended).queue
    rw [(tracks.finished _ ended).1, if_pos rfl] at queue
    exact queue List.mem_cons_self
  · intro succeed e ended
    obtain ⟨queue, value⟩ := tracks.finished e ended
    have other : e ≠ .copyFailed := by
      rintro rfl
      exact failed.mp ended succeed
    rw [if_neg other] at queue
    exact ⟨by rwa [queue], tracks.task, value⟩

end Run

end Calls

def unreadPacket : ReadDev := ⟨⟨fun _ => 0, 524, 0, fun _ => 0⟩, true, true, []⟩

theorem read_cleans_up_iff_packet : CleanExit 1
    (wavefinderRead 524 1 false unreadPacket 0 true 524 [⟨[], [], false, false, false⟩]) .filled := by
  refine (read_cleans_up_iff 524 1 false unreadPacket 0 true 524 (by decide) _).mpr ?_ .filled rfl
  intro earlier r inside fails
  rw [List.mem_singleton.mp (Steps.mem_of_inside inside)] at fails
  cases fails.2.2

/-- The first copy fails: the call returns with its entry in the queue. -/
theorem failed_copy_keeps_entry : ¬∀ e,
    (wavefinderRead 524 1 false unreadPacket 0 true 524 [⟨[], [], false, false, true⟩]).ended = some e →
    CleanExit 1 (wavefinderRead 524 1 false unreadPacket 0 true 524 [⟨[], [], false, false, true⟩]) e :=
  fun clean => (clean .copyFailed rfl).queue List.mem_cons_self

end OpenDab
