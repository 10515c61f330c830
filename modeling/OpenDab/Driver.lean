import OpenDab.Library.Buffers
import OpenDab.Library.Steps
import Mathlib.Tactic.Common

/-! The receive buffer of the driver. Packets are copied in at the byte count taken round
the buffer, while reads go straight on from the read pointer, and both start again at 0
when they meet. -/
namespace OpenDab

open Buffers

def isopipesize : Nat := 16768

def nurbs : Nat := 2

def recbufSize : Nat := isopipesize * nurbs

/-- `strncmp(a, b, n) == 0`. -/
def strncmpSame : Nat → (Nat → UInt8) → (Nat → UInt8) → Bool
  | 0, _, _ => true
  | n + 1, a, b => a 0 == b 0 && (a 0 == 0 || strncmpSame n (shift a 1) (shift b 1))

structure IsoPacket where
  status : Int
  actualLength : Nat
  buffer : Nat → UInt8

structure Wavefinder where
  recbuf : Nat → UInt8
  count : Nat
  readptr : Nat
  prevH : Nat → UInt8

/-- Valid packets start with the header, and no bad or duplicate packet is copied. -/
def Wavefinder.accepts (pipesize : Nat) (s : Wavefinder) (p : IsoPacket) : Bool :=
  decide (p.status = 0) && decide (p.actualLength ≤ pipesize) &&
    (strncmpSame 2 (ofList [0x0c, 0x62] fun _ => 0) p.buffer && !strncmpSame 12 p.buffer s.prevH)

def Wavefinder.bptr (s : Wavefinder) : Nat := s.count % recbufSize

def Wavefinder.append (s : Wavefinder) (p : IsoPacket) : Wavefinder :=
  let recbuf := copy s.recbuf s.bptr p.buffer p.actualLength
  { s with
    recbuf := recbuf
    prevH := copy s.prevH 0 (shift recbuf s.bptr) 12
    count := s.count + p.actualLength }

def Wavefinder.cnt (s : Wavefinder) (requested : Nat) : Nat := min requested (s.count - s.readptr)

/-- Both counters start again when everything has been read. -/
def Wavefinder.read (s : Wavefinder) (requested : Nat) : Wavefinder :=
  let readptr := s.readptr + s.cnt requested
  if readptr = s.count then { s with readptr := 0, count := 0 } else { s with readptr := readptr }

inductive DriverStep where
  | packet (p : IsoPacket)
  | read (requested : Nat)

/-- The device, the bytes accepted and returned so far, and the places in `recbuf` that were copied
to or from. -/
structure DriverRun where
  dev : Wavefinder
  accepted : List UInt8
  returned : List UInt8
  copies : List (Nat × Nat)

def DriverRun.step (pipesize : Nat) (r : DriverRun) : DriverStep → DriverRun
  | .packet p =>
    if r.dev.accepts pipesize p then
      { r with
        dev := r.dev.append p
        accepted := r.accepted ++ cells p.buffer 0 p.actualLength
        copies := r.copies ++ [(r.dev.bptr, p.actualLength), (r.dev.bptr, 12)] }
    else r
  | .read requested =>
    { r with
      dev := r.dev.read requested
      returned := r.returned ++ cells r.dev.recbuf r.dev.readptr (r.dev.cnt requested)
      copies := r.copies ++ [(r.dev.readptr, r.dev.cnt requested)] }

def driverRun (pipesize : Nat) (recbuf prevH : Nat → UInt8) (steps : List DriverStep) : DriverRun :=
  steps.foldl (DriverRun.step pipesize) ⟨⟨recbuf, 0, 0, prevH⟩, [], [], []⟩

@[simp] theorem driverRun_push (pipesize : Nat) (recbuf prevH : Nat → UInt8)
    (steps : List DriverStep) (step : DriverStep) :
    driverRun pipesize recbuf prevH (steps ++ [step]) =
      (driverRun pipesize recbuf prevH steps).step pipesize step := by
  simp [driverRun]

def DriverRun.Inside (r : DriverRun) : Prop := ∀ c ∈ r.copies, c.1 + c.2 ≤ recbufSize

/-- A first-in first-out queue: the copies stay inside, and what is returned is what was accepted,
in order. -/
structure DriverRun.Fifo (r : DriverRun) : Prop where
  inside : r.Inside
  order : r.returned <+: r.accepted

structure DriverRun.Straight (r : DriverRun) : Prop where
  unread : r.dev.readptr ≤ r.dev.count
  room : r.dev.count ≤ recbufSize
  bytes : r.accepted = r.returned ++ cells r.dev.recbuf r.dev.readptr (r.dev.count - r.dev.readptr)
  inside : r.Inside

/-- A packet that is accepted fits behind the bytes received since the buffer was last empty, and
so do the twelve bytes that are taken back as its header. -/
def DriverRun.Fits (pipesize : Nat) (r : DriverRun) : DriverStep → Prop
  | .packet p => r.dev.accepts pipesize p = true →
      r.dev.count + p.actualLength ≤ recbufSize ∧ r.dev.bptr + 12 ≤ recbufSize
  | .read _ => True

theorem DriverRun.Straight.fifo {r : DriverRun} (straight : r.Straight) : r.Fifo :=
  ⟨straight.inside, by rw [straight.bytes]; exact List.prefix_append _ _⟩

theorem inside_append {r : DriverRun} (inside : r.Inside) {more : List (Nat × Nat)}
    (within : ∀ c ∈ more, c.1 + c.2 ≤ recbufSize) :
    ∀ c ∈ r.copies ++ more, c.1 + c.2 ≤ recbufSize :=
  List.forall_mem_append.mpr ⟨inside, within⟩

/-- A packet that fits lands at the count itself, past the bytes that are there. -/
theorem append_straight {s : Wavefinder} {p : IsoPacket} (behind : s.count + p.actualLength ≤ recbufSize) :
    (∀ a < s.count, (s.append p).recbuf a = s.recbuf a) ∧
      cells (s.append p).recbuf s.count p.actualLength = cells p.buffer 0 p.actualLength := by
  change (∀ a < s.count, copy s.recbuf s.bptr p.buffer p.actualLength a = s.recbuf a) ∧
    cells (copy s.recbuf s.bptr p.buffer p.actualLength) s.count p.actualLength = _
  by_cases empty : p.actualLength = 0
  · rw [empty]
    exact ⟨fun a _ => copy_outside _ _ (by omega), rfl⟩
  · have here : s.bptr = s.count := Nat.mod_eq_of_lt (by omega)
    rw [here]
    exact ⟨fun a before => copy_outside _ _ (.inl before), cells_copy _ _ _ _⟩

theorem DriverRun.Straight.packet {r : DriverRun} (straight : r.Straight) {pipesize : Nat}
    {p : IsoPacket} (fits : r.Fits pipesize (.packet p)) :
    (r.step pipesize (.packet p)).Straight := by
  by_cases accepted : r.dev.accepts pipesize p = true
  · obtain ⟨unread, room, bytes, inside⟩ := straight
    obtain ⟨behind, header⟩ := fits accepted
    obtain ⟨kept, new⟩ := append_straight behind
    have place : r.dev.bptr ≤ r.dev.count := Nat.mod_le _ _
    have longer : r.dev.count + p.actualLength - r.dev.readptr =
        r.dev.count - r.dev.readptr + p.actualLength := by omega
    have last : r.dev.readptr + (r.dev.count - r.dev.readptr) = r.dev.count := by omega
    simp only [DriverRun.step, if_pos accepted]
    refine ⟨?_, behind, ?_, inside_append inside ?_⟩
    · change r.dev.readptr ≤ r.dev.count + p.actualLength
      omega
    · change r.accepted ++ _ = r.returned ++ cells (r.dev.append p).recbuf r.dev.readptr
        (r.dev.count + p.actualLength - r.dev.readptr)
      rw [longer, cells_add, last, new, bytes, List.append_assoc]
      refine congrArg _ (congrArg (· ++ _) (cells_congr fun i low => (kept _ ?_).symm))
      omega
    · simp only [List.mem_cons, List.not_mem_nil, or_false, forall_eq_or_imp, forall_eq]
      omega
  · simp only [DriverRun.step, if_neg accepted]
    exact straight

theorem DriverRun.Straight.read {r : DriverRun} (straight : r.Straight) (pipesize requested : Nat) :
    (r.step pipesize (.read requested)).Straight := by
  obtain ⟨unread, room, bytes, inside⟩ := straight
  have some : r.dev.cnt requested ≤ r.dev.count - r.dev.readptr := Nat.min_le_right _ _
  obtain ⟨rest, split⟩ : ∃ rest, r.dev.count - r.dev.readptr = r.dev.cnt requested + rest :=
    ⟨_, (Nat.add_sub_of_le some).symm⟩
  rw [split, cells_add, ← List.append_assoc] at bytes
  have copies : ∀ c ∈ [(r.dev.readptr, r.dev.cnt requested)], c.1 + c.2 ≤ recbufSize := by
    simp only [List.mem_singleton, forall_eq]
    omega
  by_cases drained : r.dev.readptr + r.dev.cnt requested = r.dev.count
  · have dev : r.dev.read requested = { r.dev with readptr := 0, count := 0 } := if_pos drained
    obtain rfl : rest = 0 := by omega
    refine ⟨?_, ?_, ?_, inside_append inside copies⟩
    · simp [DriverRun.step, dev]
    · simp [DriverRun.step, dev]
    · simpa [DriverRun.step, dev] using bytes
  · have dev : r.dev.read requested = { r.dev with readptr := r.dev.readptr + r.dev.cnt requested } :=
      if_neg drained
    have left : r.dev.count - (r.dev.readptr + r.dev.cnt requested) = rest := by omega
    refine ⟨?_, ?_, ?_, inside_append inside copies⟩
    · simp only [DriverRun.step, dev]
      omega
    · simpa only [DriverRun.step, dev] using room
    · simpa only [DriverRun.step, dev, left] using bytes

theorem DriverRun.Straight.step {r : DriverRun} (straight : r.Straight) {pipesize : Nat}
    {step : DriverStep} (fits : r.Fits pipesize step) : (r.step pipesize step).Straight := by
  cases step with
  | packet p => exact straight.packet fits
  | read requested => exact straight.read pipesize requested

section Runs

variable (pipesize : Nat) (recbuf prevH : Nat → UInt8)

def RunFits (steps : List DriverStep) : Prop :=
  ∀ earlier step, earlier ++ [step] <+: steps →
    (driverRun pipesize recbuf prevH earlier).Fits pipesize step

theorem straight_run {steps : List DriverStep} (fits : RunFits pipesize recbuf prevH steps) :
    (driverRun pipesize recbuf prevH steps).Straight := by
  refine Steps.invariant (fun steps => (driverRun pipesize recbuf prevH steps).Straight) ?_ ?_ fits
  · exact ⟨Nat.le_refl _, Nat.zero_le _, rfl, fun c member => by cases member⟩
  · intro earlier step before fit
    rw [driverRun_push]
    exact before.step fit

end Runs

def DriverRun.Overrun (r : DriverRun) : Prop := ¬r.Inside ∨ recbufSize < r.dev.count

theorem DriverRun.Overrun.step {r : DriverRun} (overrun : r.Overrun) (pipesize : Nat)
    (step : DriverStep) : (r.step pipesize step).Overrun := by
  have keeps {copies : List (Nat × Nat)} (outside : ¬r.Inside) :
      ¬∀ c ∈ r.copies ++ copies, c.1 + c.2 ≤ recbufSize :=
    fun inside => outside fun c member => inside c (List.mem_append_left _ member)
  cases step with
  | packet p =>
    by_cases accepted : r.dev.accepts pipesize p = true
    · simp only [DriverRun.step, if_pos accepted]
      exact overrun.imp keeps fun past => Nat.lt_of_lt_of_le past (Nat.le_add_right _ _)
    · simp only [DriverRun.step, if_neg accepted]
      exact overrun
  | read requested =>
    rcases overrun with outside | past
    · exact .inl (keeps outside)
    · by_cases drained : r.dev.readptr + r.dev.cnt requested = r.dev.count
      · left
        intro inside
        have last := inside (r.dev.readptr, r.dev.cnt requested) (List.mem_append_right _ (by simp))
        exact absurd last (by dsimp only; omega)
      · right
        simpa only [DriverRun.step, Wavefinder.read, if_neg drained] using past

/-- A packet that does not fit is the beginning of an overrun. -/
theorem DriverRun.overrun_of_not_fits {r : DriverRun} {pipesize : Nat} {step : DriverStep}
    (late : ¬r.Fits pipesize step) : (r.step pipesize step).Overrun := by
  cases step with
  | read requested => exact absurd trivial late
  | packet p =>
    have both := Classical.not_imp.mp late
    obtain ⟨accepted, beyond⟩ := both
    simp only [DriverRun.step, if_pos accepted]
    by_cases behind : r.dev.count + p.actualLength ≤ recbufSize
    · refine .inl fun inside => beyond ⟨behind, ?_⟩
      exact inside (r.dev.bptr, 12) (List.mem_append_right _ (by simp))
    · exact .inr (Nat.lt_of_not_le behind)

section Exact

variable (pipesize : Nat) (recbuf prevH : Nat → UInt8)

theorem overrun_run {earlier : List DriverStep}
    (overrun : (driverRun pipesize recbuf prevH earlier).Overrun) (later : List DriverStep) :
    (driverRun pipesize recbuf prevH (earlier ++ later)).Overrun := by
  induction later using List.reverseRecOn with
  | nil => rwa [List.append_nil]
  | append_singleton later step ih =>
    rw [← List.append_assoc, driverRun_push]
    exact ih.step pipesize step

/-- The buffer is a queue, whatever is read next, exactly when every packet has fitted behind the
bytes received since the buffer was last empty. -/
theorem driver_fifo_iff (steps : List DriverStep) :
    (∀ requested, (driverRun pipesize recbuf prevH (steps ++ [.read requested])).Fifo) ↔
      RunFits pipesize recbuf prevH steps := by
  constructor
  · intro fifo earlier step before
    by_contra late
    obtain ⟨later, rfl⟩ := before
    have begun := DriverRun.overrun_of_not_fits late
    rw [← driverRun_push] at begun
    have overrun := overrun_run pipesize recbuf prevH begun later
    generalize earlier ++ [step] ++ later = steps at *
    have inside := (fifo (driverRun pipesize recbuf prevH steps).dev.count).inside
    rw [driverRun_push] at inside
    rcases overrun with outside | past
    · exact outside fun c member => inside c (List.mem_append_left _ member)
    · have last := inside ((driverRun pipesize recbuf prevH steps).dev.readptr,
        (driverRun pipesize recbuf prevH steps).dev.cnt
          (driverRun pipesize recbuf prevH steps).dev.count) (List.mem_append_right _ (by simp))
      simp only [Wavefinder.cnt] at last
      omega
  · intro fits requested
    rw [driverRun_push]
    exact ((straight_run pipesize recbuf prevH fits).read pipesize requested).fifo

end Exact

def KeepsUp (pipesize : Nat) (recbuf prevH : Nat → UInt8) (steps : List DriverStep) : Prop :=
  ∀ earlier, earlier <+: steps →
    (driverRun pipesize recbuf prevH earlier).dev.count -
      (driverRun pipesize recbuf prevH earlier).dev.readptr ≤ recbufSize

def samplePacket (k : Nat) : IsoPacket :=
  ⟨0, 524, ofList [0x0c, 0x62, if k % 2 = 0 then 1 else 2] fun _ => 0⟩

def laggingRun : Nat → List DriverStep
  | 0 => [.packet (samplePacket 0)]
  | k + 1 => laggingRun k ++ [.packet (samplePacket (k + 1))] ++ [.read 524]

structure Lagging (k : Nat) (s : Wavefinder) : Prop where
  count : s.count = 524 * (k + 1)
  readptr : s.readptr = 524 * k
  header : ∀ i < 3, s.prevH i = (samplePacket k).buffer i

theorem append_header (s : Wavefinder) (k : Nat) :
    ∀ i < 3, (s.append (samplePacket k)).prevH i = (samplePacket k).buffer i := by
  intro i small
  have taken : (s.append (samplePacket k)).prevH (0 + i) =
      copy s.recbuf s.bptr (samplePacket k).buffer 524 (s.bptr + i) :=
    copy_inside _ _ _ (by omega)
  rw [Nat.zero_add, copy_inside _ _ _ (by omega)] at taken
  exact taken

theorem Lagging.accepts {k : Nat} {s : Wavefinder} (lagging : Lagging k s) :
    s.accepts 524 (samplePacket (k + 1)) = true := by
  have first := lagging.header 0 (by decide)
  have second := lagging.header 1 (by decide)
  have third := lagging.header 2 (by decide)
  have apart : k % 2 = 0 ∧ (k + 1) % 2 = 1 ∨ k % 2 = 1 ∧ (k + 1) % 2 = 0 := by omega
  rcases apart with ⟨even, odd⟩ | ⟨odd, even⟩ <;>
    simp_all [Wavefinder.accepts, strncmpSame, samplePacket, ofList]

theorem Lagging.append {k : Nat} {s : Wavefinder} (lagging : Lagging k s) :
    (s.append (samplePacket (k + 1))).count = 524 * (k + 2) ∧
      (s.append (samplePacket (k + 1))).readptr = 524 * k := by
  refine ⟨?_, lagging.readptr⟩
  change s.count + 524 = _
  rw [lagging.count]
  omega

theorem Lagging.round {k : Nat} {s : Wavefinder} (lagging : Lagging k s) :
    Lagging (k + 1) ((s.append (samplePacket (k + 1))).read 524) := by
  obtain ⟨count, readptr⟩ := lagging.append
  have header := append_header s (k + 1)
  generalize s.append (samplePacket (k + 1)) = s' at *
  have cnt : s'.cnt 524 = 524 := by
    rw [Wavefinder.cnt, count, readptr]
    omega
  have left : ¬s'.readptr + s'.cnt 524 = s'.count := by
    rw [cnt, count, readptr]
    omega
  rw [Wavefinder.read, if_neg left]
  refine ⟨count, ?_, header⟩
  dsimp only
  rw [cnt, readptr]
  omega

theorem lagging_run (recbuf prevH : Nat → UInt8) (k : Nat)
    (fresh : prevH 0 = 0) : Lagging k (driverRun 524 recbuf prevH (laggingRun k)).dev := by
  induction k with
  | zero =>
    have accepted : (⟨recbuf, 0, 0, prevH⟩ : Wavefinder).accepts 524 (samplePacket 0) = true := by
      simp [Wavefinder.accepts, strncmpSame, samplePacket, ofList, fresh]
    have dev : (driverRun 524 recbuf prevH (laggingRun 0)).dev =
        (⟨recbuf, 0, 0, prevH⟩ : Wavefinder).append (samplePacket 0) := by
      simp [driverRun, laggingRun, DriverRun.step, accepted]
    rw [dev]
    exact ⟨rfl, rfl, append_header _ 0⟩
  | succ k ih =>
    rw [laggingRun, driverRun_push, driverRun_push]
    simp only [DriverRun.step, if_pos ih.accepts]
    exact ih.round

theorem lagging_keepsUp (recbuf prevH : Nat → UInt8) (fresh : prevH 0 = 0) (k : Nat) :
    KeepsUp 524 recbuf prevH (laggingRun k) := by
  have round (k : Nat) : (driverRun 524 recbuf prevH (laggingRun k)).dev.count -
      (driverRun 524 recbuf prevH (laggingRun k)).dev.readptr ≤ recbufSize := by
    have lagging := lagging_run recbuf prevH k fresh
    rw [lagging.count, lagging.readptr, recbufSize, isopipesize, nurbs]
    omega
  induction k with
  | zero =>
    intro earlier before
    rcases List.prefix_concat_iff.mp (show earlier <+: [] ++ [_] from before) with whole | none
    · rw [whole]
      exact round 0
    · rw [List.prefix_nil.mp none]
      exact Nat.zero_le _
  | succ k ih =>
    intro earlier before
    rcases List.prefix_concat_iff.mp before with whole | shorter
    · rw [whole]
      exact round (k + 1)
    · rcases List.prefix_concat_iff.mp shorter with packet | shorter
      · have lagging := lagging_run recbuf prevH k fresh
        rw [packet, driverRun_push]
        simp only [DriverRun.step, if_pos lagging.accepts, lagging.append.1, lagging.append.2,
          recbufSize, isopipesize, nurbs]
        omega
      · exact ih earlier shorter

/-- After 65 packets the reader, one packet behind, reads past the end of the buffer. -/
theorem lagging_reader_overruns :
    KeepsUp 524 (fun _ => 0) (fun _ => 0) (laggingRun 65) ∧
      ¬(driverRun 524 (fun _ => 0) (fun _ => 0) (laggingRun 65)).Fifo := by
  refine ⟨lagging_keepsUp _ _ rfl 65, fun fifo => ?_⟩
  have lagging := lagging_run (fun _ => 0) (fun _ => 0) 64 rfl
  obtain ⟨count, readptr⟩ := lagging.append
  have inside := fifo.inside
  rw [laggingRun, driverRun_push, driverRun_push] at inside
  simp only [DriverRun.step, if_pos lagging.accepts] at inside
  have last := inside _ (List.mem_append_right _ (List.mem_singleton_self _))
  dsimp only at last
  rw [Wavefinder.cnt, count, readptr, recbufSize, isopipesize, nurbs] at last
  omega

end OpenDab
