import OpenDab.Library.Buffers
import Mathlib.Data.List.Induction
import Mathlib.Tactic.Common

/-! Assembly of the phase reference symbol from its four blocks. Packet `t` of the stream is
block `t % 4` of frame `t / 4`; what arrives is any increasing list of packets. The code
notes which blocks it has seen since the last block 0 and pays no heed to the frame. -/
namespace OpenDab

open Buffers

structure PrsState where
  seenFlags : UInt8
  prsbuf : Nat → UInt8

def PrsState.initial : PrsState := ⟨0, fun _ => 0⟩

/-- The new state, and whether `wf_sync` was called on `prsbuf`. -/
def prsAssemble (rdbuf : Nat → UInt8) (s : PrsState) : PrsState × Bool :=
  let blk := rdbuf 7
  if blk = 0 then
    (⟨1, copy s.prsbuf 0 (shift rdbuf 12) 512⟩, false)
  else
    let seenFlags := s.seenFlags ||| UInt8.ofNat (1 <<< blk.toNat)
    let prsbuf := copy s.prsbuf (blk.toNat * 512) (shift rdbuf 12) 512
    if seenFlags = 15 then (⟨0, prsbuf⟩, true) else (⟨seenFlags, prsbuf⟩, false)

def prsPacket (payload : Nat → Nat → UInt8) (t : Nat) : Nat → UInt8 :=
  ofList [0x0c, 0x62, 1, UInt8.ofNat (t / 4), 0, 0x20, 0, UInt8.ofNat (t % 4), 0, 2, 0, 0]
    fun a => payload t (a - 12)

def prsRun (payload : Nat → Nat → UInt8) (ts : List Nat) : PrsState :=
  ts.foldl (fun s t => (prsAssemble (prsPacket payload t) s).1) PrsState.initial

def Syncs (payload : Nat → Nat → UInt8) (before : List Nat) (t : Nat) : Prop :=
  (prsAssemble (prsPacket payload t) (prsRun payload before)).2 = true

def OneFrame (payload : Nat → Nat → UInt8) (prsbuf : Nat → UInt8) : Prop :=
  ∃ frame, ∀ b < 4, ∀ a < 512, prsbuf (512 * b + a) = payload (4 * frame + b) a

/-- Whenever the packets between one block 0 and the next bring the block numbers 1, 2 and 3, they
bring the blocks of that frame. -/
def NeverCompletedByOthers (ts : List Nat) : Prop :=
  ∀ before z segment rest, ts = before ++ z :: segment ++ rest → z % 4 = 0 →
    (∀ t ∈ segment, t % 4 ≠ 0) → (∀ b ∈ [1, 2, 3], ∃ t ∈ segment, t % 4 = b) →
    ∀ b ∈ [1, 2, 3], z + b ∈ segment

theorem mem_blocks {b : Nat} : b ∈ [1, 2, 3] ↔ 1 ≤ b ∧ b ≤ 3 := by
  simp only [List.mem_cons, List.not_mem_nil, or_false]
  omega

def latestBlock (b : Nat) (ts : List Nat) : Option Nat := ts.reverse.find? (· % 4 = b)

@[simp] theorem latestBlock_push (b : Nat) (ts : List Nat) (t : Nat) :
    latestBlock b (ts ++ [t]) = if t % 4 = b then some t else latestBlock b ts := by
  by_cases hit : t % 4 = b <;> simp [latestBlock, hit]

@[simp] theorem prsRun_push (payload : Nat → Nat → UInt8) (ts : List Nat) (t : Nat) :
    prsRun payload (ts ++ [t]) = (prsAssemble (prsPacket payload t) (prsRun payload ts)).1 := by
  simp [prsRun]

theorem prsPacket_block (payload : Nat → Nat → UInt8) (t : Nat) :
    (prsPacket payload t 7).toNat = t % 4 := by
  change (UInt8.ofNat (t % 4)).toNat = t % 4
  rw [UInt8.toNat_ofNat']
  omega

theorem prsPacket_payload (payload : Nat → Nat → UInt8) (t a : Nat) :
    shift (prsPacket payload t) 12 a = payload t a := by
  simp [prsPacket, ofList, List.getD_eq_getElem?_getD]

/-- One packet: its payload goes to the place of its block. -/
theorem prsAssemble_prsbuf (payload : Nat → Nat → UInt8) (t : Nat) (s : PrsState) :
    (prsAssemble (prsPacket payload t) s).1.prsbuf =
      copy s.prsbuf (512 * (t % 4)) (payload t) 512 := by
  have block := prsPacket_block payload t
  have data : copy s.prsbuf (512 * (t % 4)) (shift (prsPacket payload t) 12) 512 =
      copy s.prsbuf (512 * (t % 4)) (payload t) 512 :=
    copy_congr _ _ fun a _ => prsPacket_payload payload t a
  rw [← data, ← block]
  unfold prsAssemble
  by_cases zero : prsPacket payload t 7 = 0
  · simp [zero]
  · simp only [if_neg zero, Nat.mul_comm 512]
    split <;> rfl

def seenBlock (b : Nat) (ts : List Nat) : Bool := ts.any (· % 4 = b)

def blockFlags (one two three : Bool) : UInt8 :=
  1 ||| (if one then 2 else 0) ||| (if two then 4 else 0) ||| (if three then 8 else 0)

def flagsSince (segment : List Nat) : UInt8 :=
  blockFlags (seenBlock 1 segment) (seenBlock 2 segment) (seenBlock 3 segment)

theorem flagsSince_push {t : Nat} (other : t % 4 ≠ 0) (segment : List Nat) :
    flagsSince (segment ++ [t]) = flagsSince segment ||| UInt8.ofNat (1 <<< (t % 4)) := by
  have table : ∀ one two three, blockFlags true two three = blockFlags one two three ||| 2 ∧
      blockFlags one true three = blockFlags one two three ||| 4 ∧
      blockFlags one two true = blockFlags one two three ||| 8 := by decide
  obtain ⟨first, second, third⟩ := table (seenBlock 1 segment) (seenBlock 2 segment) (seenBlock 3 segment)
  have push (b : Nat) : seenBlock b (segment ++ [t]) = (seenBlock b segment || decide (t % 4 = b)) := by
    simp [seenBlock]
  have cases : t % 4 = 1 ∨ t % 4 = 2 ∨ t % 4 = 3 := by omega
  rw [flagsSince, flagsSince, push, push, push]
  rcases cases with one | two | three
  · rw [one]
    simpa using first
  · rw [two]
    simpa using second
  · rw [three]
    simpa using third

theorem flagsSince_full (segment : List Nat) :
    flagsSince segment = 15 ↔ ∀ b ∈ [1, 2, 3], ∃ t ∈ segment, t % 4 = b := by
  have table : ∀ one two three, blockFlags one two three = 15 ↔
      one = true ∧ two = true ∧ three = true := by decide
  rw [flagsSince, table]
  simp [seenBlock]

theorem prsAssemble_other (payload : Nat → Nat → UInt8) {t : Nat} (other : t % 4 ≠ 0) (s : PrsState) :
    (prsAssemble (prsPacket payload t) s).2 =
        decide (s.seenFlags ||| UInt8.ofNat (1 <<< (t % 4)) = 15) ∧
      (prsAssemble (prsPacket payload t) s).1.seenFlags =
        (if s.seenFlags ||| UInt8.ofNat (1 <<< (t % 4)) = 15 then 0
          else s.seenFlags ||| UInt8.ofNat (1 <<< (t % 4)) : UInt8) := by
  have block := prsPacket_block payload t
  have nonzero : prsPacket payload t 7 ≠ 0 := by
    intro zero
    rw [zero] at block
    exact other block.symm
  simp only [prsAssemble, if_neg nonzero, block]
  split
  · next full => simp [full]
  · next partly => simp [partly]

theorem prsAssemble_zero (payload : Nat → Nat → UInt8) {t : Nat} (zero : t % 4 = 0) (s : PrsState) :
    (prsAssemble (prsPacket payload t) s).2 = false ∧
      (prsAssemble (prsPacket payload t) s).1.seenFlags = 1 := by
  have block := prsPacket_block payload t
  have first : prsPacket payload t 7 = 0 := by
    rw [← UInt8.toNat_inj, block, zero]
    rfl
  simp [prsAssemble, first]

def headless : List UInt8 := [0, 2, 4, 6, 8, 10, 12, 14]

theorem headless_push {flags : UInt8} (small : flags ∈ headless) {t : Nat} (other : t % 4 ≠ 0) :
    flags ||| UInt8.ofNat (1 <<< (t % 4)) ∈ headless ∧
      flags ||| UInt8.ofNat (1 <<< (t % 4)) ≠ 15 := by
  have table : ∀ f ∈ headless, ∀ bit ∈ [2, 4, 8],
      (f ||| bit : UInt8) ∈ headless ∧ (f ||| bit : UInt8) ≠ 15 := by
    simp only [headless, List.mem_cons, List.not_mem_nil, or_false]
    rintro f (rfl | rfl | rfl | rfl | rfl | rfl | rfl | rfl) bit (rfl | rfl | rfl) <;> decide
  have bit : UInt8.ofNat (1 <<< (t % 4)) ∈ ([2, 4, 8] : List UInt8) := by
    have cases : t % 4 = 1 ∨ t % 4 = 2 ∨ t % 4 = 3 := by omega
    rcases cases with one | two | three
    · rw [one]
      simp
    · rw [two]
      simp
    · rw [three]
      simp
  exact table flags small _ bit

section Stream

variable (payload : Nat → Nat → UInt8)

/-- What the flags say after some packets: nothing that counts, or which blocks have come since the
last block 0 while one is still missing. -/
def FlagsTrack (ts : List Nat) (flags : UInt8) : Prop :=
  flags ∈ headless ∨ ∃ before z segment, ts = before ++ z :: segment ∧ z % 4 = 0 ∧
    (∀ t ∈ segment, t % 4 ≠ 0) ∧ flags = flagsSince segment ∧ flags ≠ 15

/-- One packet: the flags go on, and `wf_sync` is called when the last missing block comes. -/
theorem FlagsTrack.step {ts : List Nat} (track : FlagsTrack ts (prsRun payload ts).seenFlags)
    (t : Nat) : FlagsTrack (ts ++ [t]) (prsRun payload (ts ++ [t])).seenFlags ∧
      (Syncs payload ts t → ∃ before z segment, ts = before ++ z :: segment ∧ z % 4 = 0 ∧
        (∀ t ∈ segment, t % 4 ≠ 0) ∧ t % 4 ≠ 0 ∧ flagsSince segment ≠ 15 ∧
        flagsSince (segment ++ [t]) = 15) := by
  rw [prsRun_push, Syncs]
  generalize prsRun payload ts = s at *
  by_cases zero : t % 4 = 0
  · obtain ⟨quiet, flags⟩ := prsAssemble_zero payload zero s
    rw [quiet, flags]
    exact ⟨.inr ⟨ts, t, [], rfl, zero, by simp, rfl, by decide⟩, fun called => by cases called⟩
  · obtain ⟨called, flags⟩ := prsAssemble_other payload zero s
    rw [called, flags, decide_eq_true_eq]
    rcases track with small | ⟨before, z, segment, rfl, start, others, since, partly⟩
    · obtain ⟨stays, incomplete⟩ := headless_push small zero
      rw [if_neg incomplete]
      exact ⟨.inl stays, fun full => absurd full incomplete⟩
    · have others' : ∀ u ∈ segment ++ [t], u % 4 ≠ 0 :=
        List.forall_mem_append.mpr ⟨others, by simpa using zero⟩
      rw [since, ← flagsSince_push zero]
      rw [since] at partly
      by_cases full : flagsSince (segment ++ [t]) = 15
      · rw [if_pos full]
        exact ⟨.inl (by simp [headless]), fun _ => ⟨before, z, segment, rfl, start, others, zero,
          partly, full⟩⟩
      · rw [if_neg full]
        exact ⟨.inr ⟨before, z, segment ++ [t], by simp, start, others', rfl, full⟩,
          fun now => absurd now full⟩

theorem flagsTrack_run (ts : List Nat) : FlagsTrack ts (prsRun payload ts).seenFlags := by
  induction ts using List.reverseRecOn with
  | nil => exact .inl (by simp [prsRun, PrsState.initial, headless])
  | append_singleton ts t ih => exact (FlagsTrack.step payload ih t).1

/-- Packets without a block 0 among them either complete a symbol or go on being collected. -/
theorem completed_or_collecting (before : List Nat) {z : Nat} (zero : z % 4 = 0)
    (segment : List Nat) (others : ∀ t ∈ segment, t % 4 ≠ 0) :
    (∃ front t back, segment = front ++ t :: back ∧ flagsSince (front ++ [t]) = 15 ∧
        Syncs payload (before ++ z :: front) t) ∨
      ((prsRun payload (before ++ z :: segment)).seenFlags = flagsSince segment ∧
        flagsSince segment ≠ 15) := by
  induction segment using List.reverseRecOn with
  | nil =>
    right
    have start := prsAssemble_zero payload zero (prsRun payload before)
    rw [prsRun_push, start.2]
    exact ⟨rfl, by decide⟩
  | append_singleton segment t ih =>
    obtain ⟨others, other⟩ := List.forall_mem_append.mp others
    rcases ih others with ⟨front, u, back, rfl, done, syncs⟩ | ⟨flags, partly⟩
    · exact .inl ⟨front, u, back ++ [t], by simp, done, syncs⟩
    · obtain ⟨called, next⟩ := prsAssemble_other payload
        (by simpa using other) (prsRun payload (before ++ z :: segment))
      rw [flags, ← flagsSince_push (by simpa using other)] at called next
      by_cases full : flagsSince (segment ++ [t]) = 15
      · exact .inl ⟨segment, t, [], rfl, full, by rw [Syncs, called, decide_eq_true full]⟩
      · right
        rw [if_neg full] at next
        have same : before ++ z :: (segment ++ [t]) = before ++ z :: segment ++ [t] := by simp
        rw [same, prsRun_push]
        exact ⟨next, full⟩

/-- The blocks hold the payloads of the latest packets with their numbers. -/
theorem prsbuf_latest (ts : List Nat) {b l : Nat}
    (latest : latestBlock b ts = some l) :
    ∀ a < 512, (prsRun payload ts).prsbuf (512 * b + a) = payload l a := by
  induction ts using List.reverseRecOn with
  | nil => simp [latestBlock] at latest
  | append_singleton ts t ih =>
    intro a inside
    rw [prsRun_push, prsAssemble_prsbuf]
    rw [latestBlock_push] at latest
    by_cases hit : t % 4 = b
    · rw [if_pos hit, Option.some.injEq] at latest
      rw [hit, copy_inside _ _ _ inside, latest]
    · rw [if_neg hit] at latest
      rw [copy_outside _ _ (by omega), ih latest a inside]

/-- Which packets complete a symbol does not depend on what they carry. -/
theorem seenFlags_payload (payload' : Nat → Nat → UInt8) (ts : List Nat) :
    (prsRun payload ts).seenFlags = (prsRun payload' ts).seenFlags := by
  induction ts using List.reverseRecOn with
  | nil => rfl
  | append_singleton ts t ih =>
    rw [prsRun_push, prsRun_push]
    by_cases zero : t % 4 = 0
    · rw [(prsAssemble_zero _ zero _).2, (prsAssemble_zero _ zero _).2]
    · rw [(prsAssemble_other _ zero _).2, (prsAssemble_other _ zero _).2, ih]

theorem syncs_payload (payload' : Nat → Nat → UInt8) {before : List Nat} {t : Nat}
    (syncs : Syncs payload before t) : Syncs payload' before t := by
  unfold Syncs at *
  by_cases zero : t % 4 = 0
  · rw [(prsAssemble_zero _ zero _).1] at syncs
    cases syncs
  · rwa [(prsAssemble_other _ zero _).1, ← seenFlags_payload payload payload',
      ← (prsAssemble_other payload zero _).1]

end Stream

theorem latestBlock_append (b : Nat) (front back : List Nat) :
    latestBlock b (front ++ back) = (latestBlock b back).or (latestBlock b front) := by
  simp [latestBlock, List.find?_append]

theorem latestBlock_mem {b l : Nat} {ts : List Nat} (latest : latestBlock b ts = some l) :
    l ∈ ts ∧ l % 4 = b :=
  ⟨by simpa using List.mem_of_find?_eq_some latest, by simpa using List.find?_some latest⟩

theorem latestBlock_exists {b : Nat} {ts : List Nat} (some : ∃ t ∈ ts, t % 4 = b) :
    ∃ l, latestBlock b ts = Option.some l := by
  obtain ⟨t, member, hit⟩ := some
  rw [← Option.isSome_iff_exists, latestBlock, List.find?_isSome]
  exact ⟨t, by simpa using member, by simpa using hit⟩

/-- A symbol completed at `t` has the block 0 that came last. -/
theorem latestBlock_zero {before segment : List Nat} {z : Nat} (zero : z % 4 = 0)
    (others : ∀ t ∈ segment, t % 4 ≠ 0) : latestBlock 0 (before ++ z :: segment) = some z := by
  have none : latestBlock 0 segment = none := by
    simpa [latestBlock] using others
  have split : before ++ z :: segment = before ++ [z] ++ segment := by simp
  rw [split, latestBlock_append, none, latestBlock_push, if_pos zero]
  rfl

theorem latestBlock_since {before segment : List Nat} {z b l : Nat}
    (latest : latestBlock b segment = some l) : latestBlock b (before ++ z :: segment) = some l := by
  have split : before ++ z :: segment = before ++ [z] ++ segment := by simp
  rw [split, latestBlock_append, latest]
  rfl

/-- The packet that completes a symbol whose own blocks have all come is one of them. -/
theorem completed_own {segment : List Nat} {z t : Nat} (zero : z % 4 = 0)
    (partly : flagsSince segment ≠ 15) (own : ∀ b ∈ [1, 2, 3], z + b ∈ segment ++ [t]) :
    t ≤ z + 3 := by
  have missing : ∃ b ∈ [1, 2, 3], ∀ u ∈ segment, u % 4 ≠ b := by
    by_contra all
    refine partly ((flagsSince_full segment).mpr fun b member => ?_)
    by_contra absent
    exact all ⟨b, member, fun u inside hit => absent ⟨u, inside, hit⟩⟩
  obtain ⟨b, member, absent⟩ := missing
  have small := mem_blocks.mp member
  rcases List.mem_append.mp (own b member) with earlier | last
  · exact absurd (by omega) (absent _ earlier)
  · rw [List.mem_singleton] at last
    omega

/-- A symbol whose own blocks have all come is completed with these. -/
theorem latestBlock_frame {before segment : List Nat} {z t : Nat} (zero : z % 4 = 0)
    (ordered : (before ++ z :: (segment ++ [t])).Pairwise (· < ·))
    (others : ∀ u ∈ segment ++ [t], u % 4 ≠ 0) (partly : flagsSince segment ≠ 15)
    (own : ∀ b ∈ [1, 2, 3], z + b ∈ segment ++ [t]) {b : Nat} (small : b < 4) :
    latestBlock b (before ++ z :: (segment ++ [t])) = some (z + b) := by
  have later := (List.pairwise_append.mp ordered).2.1
  rw [List.pairwise_cons, List.pairwise_append] at later
  obtain ⟨after, -, -, last⟩ := later
  have near : ∀ u ∈ segment ++ [t], z < u ∧ u ≤ z + 3 := by
    intro u member
    refine ⟨after u member, ?_⟩
    have bound := completed_own zero partly own
    rcases List.mem_append.mp member with earlier | here
    · exact Nat.le_trans (Nat.le_of_lt (last u earlier t (by simp))) bound
    · rwa [List.mem_singleton.mp here]
  by_cases first : b = 0
  · rw [first]
    exact latestBlock_zero zero others
  · have member := own b (mem_blocks.mpr (by omega))
    obtain ⟨l, latest⟩ := latestBlock_exists (b := b) ⟨z + b, member, by omega⟩
    obtain ⟨inside, hit⟩ := latestBlock_mem latest
    obtain ⟨above, below⟩ := near l inside
    obtain rfl : l = z + b := by omega
    exact latestBlock_since latest

def marking (l : Nat → Nat) (t _ : Nat) : UInt8 := if t = l (t % 4) then 1 else 0

/-- Marking the latest packets tells whether these are of one frame. -/
theorem oneFrame_latest {ts : List Nat} {l : Nat → Nat}
    (latest : ∀ b < 4, latestBlock b ts = some (l b))
    (oneFrame : OneFrame (marking l) (prsRun (marking l) ts).prsbuf) : ∀ b < 4, l b = l 0 + b := by
  obtain ⟨frame, same⟩ := oneFrame
  have place : ∀ b < 4, 4 * frame + b = l b := by
    intro b small
    have cell := same b small 0 (by decide)
    rw [prsbuf_latest (marking l) ts (latest b small) 0 (by decide)] at cell
    have block := (latestBlock_mem (latest b small)).2
    have marked : marking l (l b) 0 = 1 := if_pos (by rw [block])
    by_contra apart
    have unmarked : marking l (4 * frame + b) 0 = 0 :=
      if_neg (by rwa [show (4 * frame + b) % 4 = b by omega])
    rw [marked, unmarked] at cell
    exact absurd cell (by decide)
  intro b small
  have first := place 0 (by decide)
  have here := place b small
  omega

/-- Packets with all the block numbers complete a symbol with the block 0 before them. -/
theorem sync_of_blocks (before : List Nat) {z : Nat} (zero : z % 4 = 0) {segment : List Nat}
    (others : ∀ t ∈ segment, t % 4 ≠ 0) (full : flagsSince segment = 15) :
    ∃ front t back, ∃ l : Nat → Nat, segment = front ++ t :: back ∧
      (∀ payload, Syncs payload (before ++ z :: front) t) ∧
      (∀ b < 4, latestBlock b (before ++ z :: front ++ [t]) = some (l b)) ∧
      l 0 = z ∧ ∀ b ∈ [1, 2, 3], l b ∈ front ++ [t] := by
  rcases completed_or_collecting (fun _ _ => 0) before zero segment others with
    ⟨front, t, back, rfl, done, syncs⟩ | ⟨-, partly⟩
  · have same : before ++ z :: front ++ [t] = before ++ z :: (front ++ [t]) := by simp
    have others' : ∀ u ∈ front ++ [t], u % 4 ≠ 0 := by
      intro u here
      refine others u ?_
      simp only [List.mem_append, List.mem_cons, List.not_mem_nil, or_false] at here ⊢
      tauto
    have since : ∀ b ∈ [1, 2, 3], ∃ l, latestBlock b (front ++ [t]) = some l := fun b member =>
      latestBlock_exists ((flagsSince_full _).mp done b member)
    refine ⟨front, t, back, fun b => if b = 0 then z else (latestBlock b (front ++ [t])).getD 0, rfl,
      fun payload => syncs_payload _ payload syncs, fun b small => ?_, rfl, fun b member => ?_⟩
    · rw [same]
      by_cases first : b = 0
      · rw [first]
        exact latestBlock_zero zero others'
      · obtain ⟨l, latest⟩ := since b (mem_blocks.mpr (by omega))
        simp only [if_neg first, latest, Option.getD_some]
        exact latestBlock_since latest
    · obtain ⟨l, latest⟩ := since b member
      have nonzero : b ≠ 0 := Nat.ne_of_gt (mem_blocks.mp member).1
      simp only [if_neg nonzero, latest, Option.getD_some]
      exact (latestBlock_mem latest).1
  · exact absurd full partly

/-- The four blocks are of one frame at every call of `wf_sync`, whatever the packets carry, exactly
when no symbol is completed by the packets of another frame. -/
theorem prs_blocks_iff (ts : List Nat) (ordered : ts.Pairwise (· < ·)) :
    (∀ payload before t, before ++ [t] <+: ts → Syncs payload before t →
      OneFrame payload (prsRun payload (before ++ [t])).prsbuf) ↔ NeverCompletedByOthers ts := by
  constructor
  · intro frames before z segment rest split zero others blocks b member
    obtain ⟨front, t, back, l, rfl, syncs, latest, first, own⟩ :=
      sync_of_blocks before zero others ((flagsSince_full segment).mpr blocks)
    have reached : before ++ z :: front ++ [t] <+: ts := ⟨back ++ rest, by rw [split]; simp⟩
    have small : b < 4 := Nat.lt_succ_of_le (mem_blocks.mp member).2
    have place := oneFrame_latest latest (frames _ _ t reached (syncs _)) b small
    have inside := own b member
    rw [place, first] at inside
    simp only [List.mem_append, List.mem_cons, List.not_mem_nil, or_false] at inside ⊢
    tauto
  · intro own payload before t reached syncs
    obtain ⟨front, z, segment, rfl, zero, others, other, partly, full⟩ :=
      (FlagsTrack.step payload (flagsTrack_run payload before) t).2 syncs
    obtain ⟨rest, split⟩ := reached
    have same : front ++ z :: segment ++ [t] = front ++ z :: (segment ++ [t]) := by simp
    rw [same] at split ⊢
    have others' : ∀ u ∈ segment ++ [t], u % 4 ≠ 0 :=
      List.forall_mem_append.mpr ⟨others, by simpa using other⟩
    have blocks := own front z (segment ++ [t]) rest split.symm zero others'
      ((flagsSince_full _).mp full)
    rw [← split, List.pairwise_append] at ordered
    refine ⟨z / 4, fun b small a inside => ?_⟩
    rw [prsbuf_latest payload _ (latestBlock_frame zero ordered.1 others' partly blocks small) a inside]
    congr 1
    omega

theorem prs_blocks_iff_joined : NeverCompletedByOthers [2, 3, 4, 5, 6, 7] ∧
    ((∀ payload before t, before ++ [t] <+: [2, 3, 4, 5, 6, 7] → Syncs payload before t →
      OneFrame payload (prsRun payload (before ++ [t])).prsbuf) ↔
        NeverCompletedByOthers [2, 3, 4, 5, 6, 7]) := by
  have ordered : [2, 3, 4, 5, 6, 7].Pairwise (· < ·) := by decide
  refine ⟨fun before z segment rest split zero _ blocks b member => ?_, prs_blocks_iff _ ordered⟩
  obtain ⟨t, inside, hit⟩ := blocks b member
  have later : z < t := by
    rw [split, List.append_assoc, List.pairwise_append, List.cons_append, List.pairwise_cons] at ordered
    exact ordered.2.1.1 t (List.mem_append_left _ inside)
  have arrived : ∀ u, u = z ∨ u = t → u ∈ [2, 3, 4, 5, 6, 7] := by
    rintro u (rfl | rfl) <;> simp [split, inside]
  have first := arrived z (.inl rfl)
  have second := arrived t (.inr rfl)
  simp only [List.mem_cons, List.not_mem_nil, or_false] at first second
  rwa [show z + b = t by omega]

/-- Block 3 of frame 0 and block 0 of frame 1 are lost: blocks 1, 2 and 3 of frame 1 are taken with
block 0 of frame 0. -/
theorem mixed_frames : [0, 1, 2, 5, 6, 7].Pairwise (· < ·) ∧
    Syncs (fun t _ => UInt8.ofNat t) [0, 1, 2, 5, 6] 7 ∧
    ¬ OneFrame (fun t _ => UInt8.ofNat t)
      (prsRun (fun t _ => UInt8.ofNat t) [0, 1, 2, 5, 6, 7]).prsbuf := by
  refine ⟨by decide, rfl, ?_⟩
  rintro ⟨frame, same⟩
  have zero := same 0 (by decide) 0 (by decide)
  have one := same 1 (by decide) 0 (by decide)
  rw [prsbuf_latest _ _ (show latestBlock 0 [0, 1, 2, 5, 6, 7] = some 0 from rfl) 0 (by decide)] at zero
  rw [prsbuf_latest _ _ (show latestBlock 1 [0, 1, 2, 5, 6, 7] = some 5 from rfl) 0 (by decide)] at one
  rw [← UInt8.toNat_inj, UInt8.toNat_ofNat', UInt8.toNat_ofNat'] at zero one
  omega

end OpenDab
