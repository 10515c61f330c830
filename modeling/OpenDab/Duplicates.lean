import OpenDab.Driver

/-! Which packets the driver drops. The headers are compared as strings, so a zero byte at the
same place in both ends the comparison. -/
namespace OpenDab

open Buffers

/-- Two strings agree to the end, or up to and including a zero byte. -/
theorem strncmpSame_iff (n : Nat) (a b : Nat → UInt8) :
    strncmpSame n a b = true ↔
      (∀ i < n, a i = b i) ∨ ∃ k < n, a k = 0 ∧ ∀ i ≤ k, a i = b i := by
  induction n generalizing a b with
  | zero => simp [strncmpSame]
  | succ n ih =>
    simp only [strncmpSame, Bool.and_eq_true, Bool.or_eq_true, beq_iff_eq, ih, shift_apply]
    constructor
    · rintro ⟨first, zero | rest | ⟨k, inside, zero, rest⟩⟩
      · exact .inr ⟨0, by omega, zero, fun i low => by rwa [Nat.le_zero.mp low]⟩
      · left
        intro i inside
        rcases i with _ | i
        · exact first
        · rw [Nat.add_comm i 1]
          exact rest i (by omega)
      · refine .inr ⟨1 + k, by omega, zero, fun i low => ?_⟩
        rcases i with _ | i
        · exact first
        · rw [Nat.add_comm i 1]
          exact rest i (by omega)
    · rintro (all | ⟨k, inside, zero, upto⟩)
      · exact ⟨all 0 (by omega), .inr (.inl fun i inside => all (1 + i) (by omega))⟩
      · refine ⟨upto 0 (by omega), ?_⟩
        rcases k with _ | k
        · exact .inl zero
        · rw [Nat.add_comm k 1] at zero
          exact .inr (.inr ⟨k, by omega, zero, fun i low => upto (1 + i) (by omega)⟩)

structure IsoPacket.Completed (pipesize : Nat) (p : IsoPacket) : Prop where
  good : p.status = 0
  fits : p.actualLength ≤ pipesize
  header : 12 ≤ p.actualLength

def IsoPacket.Valid (p : IsoPacket) : Prop := p.buffer 0 = 0x0c ∧ p.buffer 1 = 0x62

def IsoPacket.SameHeader (p q : IsoPacket) : Prop := ∀ i < 12, p.buffer i = q.buffer i

def IsoPacket.SameToZero (p q : IsoPacket) : Prop :=
  ∃ k < 12, p.buffer k = 0 ∧ ∀ i ≤ k, p.buffer i = q.buffer i

structure TracedRun where
  run : DriverRun
  last : Option IsoPacket

def TracedRun.step (pipesize : Nat) (t : TracedRun) (step : DriverStep) : TracedRun where
  run := t.run.step pipesize step
  last :=
    match step with
    | .packet p => if t.run.dev.accepts pipesize p then some p else t.last
    | .read _ => t.last

/-- A run from the state that `wavefinder_probe` leaves: `prev_h` is zero. -/
def tracedRun (pipesize : Nat) (recbuf : Nat → UInt8) (steps : List DriverStep) : TracedRun :=
  steps.foldl (TracedRun.step pipesize) ⟨driverRun pipesize recbuf (fun _ => 0) [], none⟩

section Traced

variable (pipesize : Nat) (recbuf : Nat → UInt8)

@[simp] theorem tracedRun_push (steps : List DriverStep) (step : DriverStep) :
    tracedRun pipesize recbuf (steps ++ [step]) =
      (tracedRun pipesize recbuf steps).step pipesize step := by
  simp [tracedRun]

theorem tracedRun_run (steps : List DriverStep) :
    (tracedRun pipesize recbuf steps).run = driverRun pipesize recbuf (fun _ => 0) steps := by
  induction steps using List.reverseRecOn with
  | nil => rfl
  | append_singleton steps step ih => rw [tracedRun_push, driverRun_push, ← ih]; rfl

end Traced

/-- The device has the header of the last packet it accepted, and before the first one a string
that no valid packet starts with. -/
def Wavefinder.Remembers (s : Wavefinder) : Option IsoPacket → Prop
  | none => s.prevH 0 = 0
  | some q => ∀ i < 12, s.prevH i = q.buffer i

theorem accepts_completed {pipesize : Nat} {s : Wavefinder} {p : IsoPacket}
    (completed : p.Completed pipesize) :
    s.accepts pipesize p = true ↔ p.Valid ∧ strncmpSame 12 p.buffer s.prevH = false := by
  have starts : strncmpSame 2 (ofList [0x0c, 0x62] fun _ => 0) p.buffer = true ↔ p.Valid := by
    simp [strncmpSame, ofList, IsoPacket.Valid, @eq_comm _ (p.buffer _)]
  simp only [Wavefinder.accepts, completed.good, completed.fits, decide_true, Bool.true_and,
    Bool.and_eq_true, starts, Bool.not_eq_eq_eq_not, Bool.not_true]

theorem append_remembers (s : Wavefinder) {p : IsoPacket} (header : 12 ≤ p.actualLength) :
    (s.append p).Remembers (some p) := by
  intro i inside
  have taken : (s.append p).prevH (0 + i) =
      copy s.recbuf s.bptr p.buffer p.actualLength (s.bptr + i) := copy_inside _ _ _ inside
  rwa [Nat.zero_add, copy_inside _ _ _ (by omega)] at taken

theorem read_remembers {s : Wavefinder} {last : Option IsoPacket} (remembers : s.Remembers last)
    (requested : Nat) : (s.read requested).Remembers last := by
  have kept : (s.read requested).prevH = s.prevH := by
    simp only [Wavefinder.read]
    split <;> rfl
  cases last <;> simpa only [Wavefinder.Remembers, kept] using remembers

theorem TracedRun.step_remembers {t : TracedRun} (remembers : t.run.dev.Remembers t.last)
    {pipesize : Nat} {step : DriverStep}
    (completed : ∀ p, step = .packet p → p.Completed pipesize) :
    (t.step pipesize step).run.dev.Remembers (t.step pipesize step).last := by
  cases step with
  | read requested => exact read_remembers remembers requested
  | packet p =>
    by_cases accepted : t.run.dev.accepts pipesize p = true
    · simp only [TracedRun.step, DriverRun.step, if_pos accepted]
      exact append_remembers _ (completed p rfl).header
    · simp only [TracedRun.step, DriverRun.step, if_neg accepted]
      exact remembers

def AllCompleted (pipesize : Nat) (steps : List DriverStep) : Prop :=
  ∀ p, .packet p ∈ steps → p.Completed pipesize

theorem tracedRun_remembers {pipesize : Nat} {recbuf : Nat → UInt8} {steps : List DriverStep}
    (completed : AllCompleted pipesize steps) :
    (tracedRun pipesize recbuf steps).run.dev.Remembers (tracedRun pipesize recbuf steps).last := by
  induction steps using List.reverseRecOn with
  | nil => exact rfl
  | append_singleton steps step ih =>
    rw [tracedRun_push]
    have before := ih fun p member => completed p (List.mem_append_left _ member)
    exact TracedRun.step_remembers before fun p same => completed p (by simp [same])

def TracedRun.Duplicate (t : TracedRun) (p : IsoPacket) : Prop :=
  ¬p.Valid ∨ ∃ q, t.last = some q ∧ p.SameHeader q

/-- A packet is dropped when the strings agree, so the headers have to agree whenever they agree up
to a zero byte. -/
theorem TracedRun.dropped_iff {t : TracedRun} (remembers : t.run.dev.Remembers t.last)
    {pipesize : Nat} {p : IsoPacket} (completed : p.Completed pipesize) :
    (t.run.dev.accepts pipesize p = false ↔ t.Duplicate p) ↔
      (p.Valid → ∀ q, t.last = some q → p.SameToZero q → p.SameHeader q) := by
  have accepted := accepts_completed (s := t.run.dev) completed
  rw [← Bool.not_eq_true, accepted, Duplicate]
  by_cases valid : p.Valid
  · cases last : t.last with
    | none =>
      rw [last] at remembers
      have differs : strncmpSame 12 p.buffer t.run.dev.prevH = false := by
        have first : t.run.dev.prevH 0 = 0 := remembers
        simp [strncmpSame, valid.1, first]
      simp [valid, differs]
    | some q =>
      rw [last] at remembers
      have same : strncmpSame 12 p.buffer t.run.dev.prevH = true ↔
          p.SameHeader q ∨ p.SameToZero q := by
        rw [strncmpSame_iff]
        refine or_congr (forall₂_congr fun i inside => by rw [remembers i inside]) ?_
        refine exists_congr fun k => and_congr_right fun inside => and_congr_right fun _ => ?_
        exact forall₂_congr fun i low => by rw [remembers i (by omega)]
      simp only [valid, not_true_eq_false, false_or, true_and, Bool.not_eq_false, same,
        Option.some.injEq, exists_eq_left', forall_eq', true_implies]
      exact or_iff_left_iff_imp
  · simp [valid]

section Runs

variable (pipesize : Nat) (recbuf : Nat → UInt8)

/-- Whatever arrives next is dropped only as a duplicate or as no packet of the receiver. -/
def OnlyDuplicatesDropped (steps : List DriverStep) : Prop :=
  ∀ earlier p, earlier ++ [.packet p] <+: steps →
    ((tracedRun pipesize recbuf earlier).run.dev.accepts pipesize p = false ↔
      (tracedRun pipesize recbuf earlier).Duplicate p)

/-- No valid packet agrees with the last one accepted up to a zero byte and differs behind it. -/
def ZerosHideNothing (steps : List DriverStep) : Prop :=
  ∀ earlier p, earlier ++ [.packet p] <+: steps → p.Valid →
    ∀ q, (tracedRun pipesize recbuf earlier).last = some q → p.SameToZero q → p.SameHeader q

/-- Only true duplicates are dropped exactly when no difference lies behind a zero byte up to which
the headers agree. -/
theorem only_duplicates_dropped_iff (steps : List DriverStep)
    (completed : AllCompleted pipesize steps) :
    OnlyDuplicatesDropped pipesize recbuf steps ↔ ZerosHideNothing pipesize recbuf steps := by
  refine forall₃_congr fun earlier p before => ?_
  have whole := completed p (before.subset (by simp))
  refine TracedRun.dropped_iff (tracedRun_remembers fun q member => completed q ?_) whole
  exact before.subset (List.mem_append_left _ member)

end Runs

def zeroFramePacket (block : UInt8) : IsoPacket :=
  ⟨0, 524, ofList [0x0c, 0x62, 0x01, 0x00, 0x36, 0x20, 0x04, block, 0x00, 0x02] fun _ => 0⟩

theorem zeroFrame_completed (block : UInt8) : (zeroFramePacket block).Completed 524 :=
  ⟨rfl, Nat.le_refl _, Nat.le_of_ble_eq_true rfl⟩

def firstFramePacket (block : UInt8) : IsoPacket :=
  ⟨0, 524, ofList [0x0c, 0x62, 0x01, 0x01, 0x36, 0x20, 0x04, block, 0x00, 0x02] fun _ => 0⟩

/-- Two blocks, and the second one again. -/
theorem only_duplicates_dropped_iff_repeat : OnlyDuplicatesDropped 524 (fun _ => 0)
    [.packet (firstFramePacket 0), .packet (firstFramePacket 1), .packet (firstFramePacket 1)] := by
  refine (only_duplicates_dropped_iff 524 (fun _ => 0) _ ?_).mpr ?_
  · intro p member
    have either : p = firstFramePacket 0 ∨ p = firstFramePacket 1 := by simpa using member
    rcases either with rfl | rfl <;> exact ⟨rfl, Nat.le_refl _, Nat.le_of_ble_eq_true rfl⟩
  · have checked : ∀ earlier step, earlier ++ [step] <+: [DriverStep.packet (firstFramePacket 0),
        .packet (firstFramePacket 1), .packet (firstFramePacket 1)] → ∀ p, step = .packet p →
        ∀ q, (tracedRun 524 (fun _ => 0) earlier).last = some q → p.SameToZero q → p.SameHeader q := by
      apply Steps.forall_of_take
      intro k bound p same q last zero
      match k, bound with
      | 0, _ => cases last
      | 1, _ =>
        obtain rfl : firstFramePacket 1 = p := DriverStep.packet.inj same
        obtain rfl : firstFramePacket 0 = q := Option.some.inj last
        -- the block number differs in front of the first zero
        have apart : ¬∃ k < 12, (firstFramePacket 1).buffer k = 0 ∧
            ∀ i ≤ k, (firstFramePacket 1).buffer i = (firstFramePacket 0).buffer i := by decide
        exact absurd zero apart
      | 2, _ =>
        obtain rfl : firstFramePacket 1 = p := DriverStep.packet.inj same
        obtain rfl : firstFramePacket 1 = q := Option.some.inj last
        exact fun _ _ => rfl
    exact fun earlier p inside _ => checked earlier _ inside p rfl

/-- The second block of a phase reference symbol is lost when the frame number is zero. -/
theorem zero_frame_drops_block :
    AllCompleted 524 [.packet (zeroFramePacket 0), .packet (zeroFramePacket 1)] ∧
      ¬OnlyDuplicatesDropped 524 (fun _ => 0)
        [.packet (zeroFramePacket 0), .packet (zeroFramePacket 1)] := by
  have completed : AllCompleted 524 [.packet (zeroFramePacket 0), .packet (zeroFramePacket 1)] := by
    intro p member
    have either : p = zeroFramePacket 0 ∨ p = zeroFramePacket 1 := by simpa using member
    rcases either with rfl | rfl <;> exact zeroFrame_completed _
  refine ⟨completed, fun only => ?_⟩
  have first : (tracedRun 524 (fun _ => 0) [.packet (zeroFramePacket 0)]).last =
      some (zeroFramePacket 0) := by
    simp [tracedRun, TracedRun.step, driverRun, Wavefinder.accepts, strncmpSame, zeroFramePacket,
      ofList]
  have second : (tracedRun 524 (fun _ => 0) [.packet (zeroFramePacket 0)]).run.dev.accepts 524
      (zeroFramePacket 1) = false := by
    simp [tracedRun, TracedRun.step, DriverRun.step, driverRun, Wavefinder.accepts, strncmpSame,
      zeroFramePacket, ofList, Wavefinder.append, copy, Wavefinder.bptr]
  have drops := (only [.packet (zeroFramePacket 0)] (zeroFramePacket 1) List.prefix_rfl).mp second
  rcases drops with invalid | ⟨q, last, same⟩
  · exact invalid ⟨rfl, rfl⟩
  · obtain rfl : zeroFramePacket 0 = q := Option.some.inj (first.symm.trans last)
    exact absurd (same 7 (by decide)) (by decide)

end OpenDab
