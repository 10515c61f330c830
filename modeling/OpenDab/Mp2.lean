import OpenDab.FigProc
import Mathlib.Data.List.Induction

/-! The check of MPEG audio frames. A header with id 0 announces half the sampling rate, whose
frames take two logical frames, so the one behind it is not looked at: it goes the way of the
header. -/
namespace OpenDab

open Buffers

/-- These header bits are constant for DAB. -/
def hmask : UInt32 := 0xfff70e03

def hxor : UInt32 := 0xfff40400

/-- The bit rates for id 1; entries of -1 correspond to forbidden indices. -/
def brtab : List Int := [-1, 32, 48, 56, 64, 80, 96, 112, 128, 160, 192, 224, 256, 320, 384, -1]

def lbrtab : List Int := [-1, 8, 16, 24, 32, 40, 48, 56, 64, 80, 96, 112, 128, 144, 160, -1]

structure Mp2Header where
  bitRateIndex : Nat
  id : Nat
  deriving DecidableEq, Repr

def Mp2Header.ofBits (i : UInt32) : Mp2Header where
  bitRateIndex := bitField i.toNat 12 4
  id := bitField i.toNat 19 1

structure Mp2Frame where
  buf : Nat → UInt8
  len : Nat

def Mp2Frame.header (f : Mp2Frame) : Mp2Header := Mp2Header.ofBits (ipack f.buf)

structure Mp2State where
  headerValid : Bool
  headerExpected : Bool
  deriving DecidableEq, Repr

def Mp2State.initial : Mp2State := ⟨false, true⟩

/-- Check an audio frame; an invalid one is silently ignored, a valid one is what is written. -/
def wfmp2 (bitrate : Int) (f : Mp2Frame) (st : Mp2State) : Mp2State × Option (List UInt8) :=
  let st : Mp2State :=
    if st.headerExpected then
      let i := ipack f.buf
      let mp2h := Mp2Header.ofBits i
      if (i &&& hmask) ^^^ hxor ≠ 0 then ⟨false, true⟩
      else if mp2h.id = 0 then ⟨lbrtab.getD mp2h.bitRateIndex (-1) = bitrate, false⟩
      else ⟨brtab.getD mp2h.bitRateIndex (-1) = bitrate, true⟩
    else { st with headerExpected := true }
  (st, if st.headerValid then some (cells f.buf 0 f.len) else none)

def mp2Run (bitrate : Int) (frames : List Mp2Frame) : Mp2State :=
  frames.foldl (fun st f => (wfmp2 bitrate f st).1) .initial

def mp2Written (bitrate : Int) (earlier : List Mp2Frame) (f : Mp2Frame) : Option (List UInt8) :=
  (wfmp2 bitrate f (mp2Run bitrate earlier)).2

def Mp2Frame.Constant (f : Mp2Frame) : Prop := ipack f.buf &&& hmask = hxor

instance (f : Mp2Frame) : Decidable f.Constant := inferInstanceAs (Decidable (_ = _))

def Mp2Frame.Checked (bitrate : Int) (f : Mp2Frame) : Prop :=
  f.Constant ∧ (if f.header.id = 0 then lbrtab else brtab).getD f.header.bitRateIndex (-1) = bitrate

/-- The header is that of a genuine frame at 48 kHz. -/
def Mp2Frame.Intact (bitrate : Int) (f : Mp2Frame) : Prop :=
  f.Constant ∧ f.header.id = 1 ∧ brtab.getD f.header.bitRateIndex (-1) = bitrate

def Mp2Frame.low (f : Mp2Frame) : Bool := decide (f.Constant ∧ f.header.id = 0)

def lowRun (frames : List Mp2Frame) : Nat := (frames.reverse.takeWhile Mp2Frame.low).length

theorem lowRun_push (frames : List Mp2Frame) (f : Mp2Frame) :
    lowRun (frames ++ [f]) = if f.low then lowRun frames + 1 else 0 := by
  rw [lowRun, List.reverse_append, List.reverse_singleton, List.singleton_append,
    List.takeWhile_cons]
  split <;> rfl

theorem mp2Run_push (bitrate : Int) (earlier : List Mp2Frame) (f : Mp2Frame) :
    mp2Run bitrate (earlier ++ [f]) = (wfmp2 bitrate f (mp2Run bitrate earlier)).1 := by
  simp [mp2Run]

theorem header_id (f : Mp2Frame) : f.header.id = 0 ∨ f.header.id = 1 := by
  have two : f.header.id < 2 := Nat.mod_lt _ (by decide)
  omega

theorem wfmp2_expected (bitrate : Int) (f : Mp2Frame) {st : Mp2State}
    (expected : st.headerExpected = true) : (wfmp2 bitrate f st).1.headerExpected = !f.low ∧
      ((wfmp2 bitrate f st).1.headerValid = true ↔ f.Checked bitrate) := by
  have mask : (ipack f.buf &&& hmask) ^^^ hxor ≠ 0 ↔ ¬f.Constant := by
    rw [Ne, UInt32.xor_eq_zero_iff]
    rfl
  have fields : Mp2Header.ofBits (ipack f.buf) = f.header := rfl
  simp only [wfmp2, if_pos expected, mask, fields]
  by_cases constant : f.Constant
  · rcases header_id f with low | full
    · simp [constant, low, Mp2Frame.low, Mp2Frame.Checked]
    · simp [constant, full, Mp2Frame.low, Mp2Frame.Checked]
  · simp [constant, Mp2Frame.low, Mp2Frame.Checked]

theorem wfmp2_unexpected (bitrate : Int) (f : Mp2Frame) {st : Mp2State}
    (unexpected : st.headerExpected = false) :
    (wfmp2 bitrate f st).1 = ⟨st.headerValid, true⟩ := by
  simp [wfmp2, unexpected]

theorem mp2Written_eq (bitrate : Int) (earlier : List Mp2Frame) (f : Mp2Frame) :
    mp2Written bitrate earlier f =
      if (mp2Run bitrate (earlier ++ [f])).headerValid then some (cells f.buf 0 f.len) else none := by
  rw [mp2Run_push]
  rfl

/-- Behind an odd number of low headers the next frame is not looked at, and the last of them has
decided about it. -/
structure Mp2State.Follows (bitrate : Int) (earlier : List Mp2Frame) (st : Mp2State) : Prop where
  expected : st.headerExpected = decide (lowRun earlier % 2 = 0)
  valid : st.headerExpected = false → ∃ before g, earlier = before ++ [g] ∧ g.header.id = 0 ∧
    (st.headerValid = true ↔ g.Checked bitrate)

theorem Mp2State.Follows.step {bitrate : Int} {earlier : List Mp2Frame}
    (follows : (mp2Run bitrate earlier).Follows bitrate earlier) (f : Mp2Frame) :
    (mp2Run bitrate (earlier ++ [f])).Follows bitrate (earlier ++ [f]) := by
  have before := follows.expected
  rw [mp2Run_push]
  cases known : (mp2Run bitrate earlier).headerExpected with
  | true =>
    obtain ⟨next, checked⟩ := wfmp2_expected bitrate f known
    have even : lowRun earlier % 2 = 0 := by simpa [known] using before
    refine ⟨?_, fun half => ⟨earlier, f, rfl, ?_, checked⟩⟩
    · rw [next, lowRun_push]
      cases f.low with
      | false => rfl
      | true => simp; omega
    · have low : f.low = true := by simpa [next] using half
      exact (of_decide_eq_true low).2
  | false =>
    have odd : lowRun earlier % 2 = 1 := by
      have : ¬lowRun earlier % 2 = 0 := by simpa [known] using before
      omega
    rw [wfmp2_unexpected bitrate f known]
    refine ⟨?_, fun half => by simp at half⟩
    rw [lowRun_push]
    cases f.low with
    | false => rfl
    | true => simp; omega

theorem mp2_follows (bitrate : Int) (earlier : List Mp2Frame) :
    (mp2Run bitrate earlier).Follows bitrate earlier := by
  induction earlier using List.reverseRecOn with
  | nil => exact ⟨rfl, fun half => by simp [mp2Run, Mp2State.initial] at half⟩
  | append_singleton earlier f ih => exact ih.step f

/-- Intact frames are written in full, and no frame is written without a valid header of its own or
of the frame it continues. -/
structure Mp2Respects (bitrate : Int) (frames : List Mp2Frame) : Prop where
  intact : ∀ earlier f, earlier ++ [f] <+: frames → f.Intact bitrate →
    mp2Written bitrate earlier f = some (cells f.buf 0 f.len)
  justified : ∀ earlier f, earlier ++ [f] <+: frames → mp2Written bitrate earlier f ≠ none →
    f.Checked bitrate ∨ ∃ before g, earlier = before ++ [g] ∧ g.header.id = 0 ∧
      mp2Written bitrate before g ≠ none

/-- No intact frame comes behind an odd number of low headers the last of which is for another
bit rate. -/
def Mp2Undisturbed (bitrate : Int) (frames : List Mp2Frame) : Prop :=
  ∀ earlier f, earlier ++ [f] <+: frames → f.Intact bitrate →
    lowRun earlier % 2 = 0 ∨ ∃ before g, earlier = before ++ [g] ∧ g.Checked bitrate

theorem Mp2Frame.Intact.checked {bitrate : Int} {f : Mp2Frame} (intact : f.Intact bitrate) :
    f.Checked bitrate := by
  obtain ⟨constant, full, rate⟩ := intact
  refine ⟨constant, ?_⟩
  rw [full]
  exact rate

theorem mp2Written_iff (bitrate : Int) (earlier : List Mp2Frame) (f : Mp2Frame) :
    mp2Written bitrate earlier f ≠ none ↔ (mp2Run bitrate (earlier ++ [f])).headerValid = true := by
  rw [mp2Written_eq]
  split <;> simp_all

theorem written_even {bitrate : Int} {earlier : List Mp2Frame} (even : lowRun earlier % 2 = 0)
    (f : Mp2Frame) : mp2Written bitrate earlier f ≠ none ↔ f.Checked bitrate := by
  have expected := (mp2_follows bitrate earlier).expected
  rw [mp2Written_iff, mp2Run_push]
  exact (wfmp2_expected bitrate f (by rw [expected, even]; rfl)).2

/-- The frame behind an odd number of low headers is written if the last of them passed. -/
theorem written_odd {bitrate : Int} {earlier : List Mp2Frame} (odd : lowRun earlier % 2 ≠ 0)
    (f : Mp2Frame) : ∃ before g, earlier = before ++ [g] ∧ g.header.id = 0 ∧
      (mp2Written bitrate earlier f ≠ none ↔ g.Checked bitrate) ∧
      (mp2Written bitrate before g ≠ none ↔ g.Checked bitrate) := by
  have follows := mp2_follows bitrate earlier
  have half : (mp2Run bitrate earlier).headerExpected = false := by simp [follows.expected, odd]
  obtain ⟨before, g, rfl, low, valid⟩ := follows.valid half
  refine ⟨before, g, rfl, low, ?_, by rw [mp2Written_iff, valid]⟩
  rw [mp2Written_iff, mp2Run_push _ (before ++ [g]), wfmp2_unexpected bitrate f half, ← valid]

/-- Corrupted headers cost no other frame exactly when no intact frame comes behind a low header
for another bit rate that it would have to continue. -/
theorem mp2_respects_iff (bitrate : Int) (frames : List Mp2Frame) :
    Mp2Respects bitrate frames ↔ Mp2Undisturbed bitrate frames := by
  have whole (earlier : List Mp2Frame) (f : Mp2Frame) (written : mp2Written bitrate earlier f ≠ none) :
      mp2Written bitrate earlier f = some (cells f.buf 0 f.len) := by
    rw [mp2Written_eq] at written ⊢
    split at written <;> simp_all
  constructor
  · intro respects earlier f before intact
    have written : mp2Written bitrate earlier f ≠ none := by
      rw [respects.intact earlier f before intact]
      exact Option.some_ne_none _
    by_cases even : lowRun earlier % 2 = 0
    · exact .inl even
    · obtain ⟨front, g, same, -, next, -⟩ := written_odd even f
      exact .inr ⟨front, g, same, next.mp written⟩
  · intro undisturbed
    refine ⟨fun earlier f before intact => whole earlier f ?_, fun earlier f _ written => ?_⟩
    · by_cases even : lowRun earlier % 2 = 0
      · exact (written_even even f).mpr intact.checked
      · obtain ⟨front, g, same, -, next, -⟩ := written_odd even f
        obtain ⟨front', g', same', checked⟩ := (undisturbed earlier f before intact).resolve_left even
        rw [same] at same'
        obtain ⟨-, rfl⟩ := List.append_singleton_inj.mp same'
        exact next.mpr checked
    · by_cases even : lowRun earlier % 2 = 0
      · exact .inl ((written_even even f).mp written)
      · obtain ⟨front, g, same, low, next, last⟩ := written_odd even f
        exact .inr ⟨front, g, same, low, last.mpr (next.mp written)⟩

def intactFrame : Mp2Frame := ⟨ofList [0xff, 0xfc, 0x84, 0x00] fun _ => 0, 384⟩

def wrongIdFrame : Mp2Frame := ⟨ofList [0xff, 0xf4, 0x84, 0x00] fun _ => 0, 384⟩

/-- The wrong bit costs the frame behind it. -/
theorem wrong_id_costs_next : ¬Mp2Respects 128 [wrongIdFrame, intactFrame] := by
  intro respects
  have written := respects.intact [wrongIdFrame] intactFrame List.prefix_rfl
    ⟨by decide, by decide, by decide⟩
  exact absurd written (by decide)

end OpenDab
