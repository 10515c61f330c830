import OpenDab.MscDecode

/-! The MSC from packets to audio. `msc_assemble` calls `msc_decode` whenever the circular
buffer has been filled; a run of packets is a run of the audio decoder over the frames that
these calls hand on. -/
namespace OpenDab

open Buffers Puncturing

structure MscChain where
  asm : MscState
  dec : MscDecoder

def MscEvent.isDecode : MscEvent → Bool
  | .decode => true
  | _ => false

section Chain

variable (T : Target) (mettab : Nat → Nat → Int) (decodeRs : List UInt8 → List UInt8)

/-- One packet, with the call of `msc_decode` that its assembly ends in. -/
def mscPacket (s : Subch) (sr : Symrange) (symbuf : Nat → UInt8) (c : MscChain) :
    Option (MscChain × List UInt8) :=
  let r := mscAssemble symbuf sr c.asm
  if r.2.any MscEvent.isDecode then
    (mscDecode T mettab decodeRs s sr r.1.cbuf c.dec).map fun d => (⟨r.1, d.1⟩, d.2)
  else some (⟨r.1, c.dec⟩, [])

def mscPackets (s : Subch) (sr : Symrange) :
    List (Nat → UInt8) → MscChain → Option (MscChain × List UInt8)
  | [], c => some (c, [])
  | symbuf :: packets, c =>
    (mscPacket T mettab decodeRs s sr symbuf c).bind fun r =>
      (mscPackets s sr packets r.1).map fun r' => (r'.1, r.2 ++ r'.2)

def audioRun (s : Subch) : List (Nat → UInt8) → AudioState → Option (AudioState × List UInt8)
  | [], a => some (a, [])
  | frame :: frames, a =>
    (audioDecode decodeRs s (3 * s.bitrate) frame a).bind fun r =>
      (audioRun s frames r.1).map fun r' => (r'.1, r.2 ++ r'.2)

end Chain

/-- The logical frames that the buffer holds at the calls of `msc_decode`. -/
def logicalFrames (s : Subch) (sr : Symrange) : List (Nat → UInt8) → MscState → List (Nat → UInt8)
  | [], _ => []
  | symbuf :: packets, st =>
    let r := mscAssemble symbuf sr st
    if r.2.any MscEvent.isDecode then logicalFrame s sr r.1.cbuf :: logicalFrames s sr packets r.1
    else logicalFrames s sr packets r.1

theorem any_isDecode (events : List MscEvent) :
    events.any MscEvent.isDecode = true ↔ MscEvent.decode ∈ events := by
  rw [List.any_eq_true]
  constructor
  · rintro ⟨event, member, decode⟩
    cases event with
    | decode => exact member
    | reset => exact absurd decode Bool.false_ne_true
    | insert slot place symbol => exact absurd decode Bool.false_ne_true
  · exact fun member => ⟨_, member, rfl⟩

/-! Whatever the packets hold, the buffer is filled with bits. -/

/-- Every bit of a symbol is a bit of the packet. -/
theorem freqDeinterleave_bits (symbuf : Nat → UInt8) (b : Fin 3072) :
    symbolBits (freqDeinterleave (fun _ => 0) symbuf) b = 0 ∨
      symbolBits (freqDeinterleave (fun _ => 0) symbuf) b = 1 := by
  simp only [symbolBits, freqDeinterleave, byteToBit_length]
  rw [demapped_bit _ _ _ _ _ _ b.isLt]
  exact bitAt_cases _ _ (Nat.mod_lt _ (by decide))

/-- The buffer stands for a history of symbols of bits. -/
def BitsHeld (sr : Symrange) (st : MscState) : Prop :=
  ∃ a : Assembler SymbolBits, Refines sr id a st ∧
    ∀ symbol ∈ a.history, ∀ b, symbol b = 0 ∨ symbol b = 1

theorem bitsHeld_initial (sr : Symrange) (memory : Nat → Nat → UInt8) :
    BitsHeld sr (MscState.initial memory) :=
  ⟨⟨0, []⟩, ⟨rfl, .inl ⟨rfl, initial_blank memory⟩⟩, fun _ member => absurd member List.not_mem_nil⟩

/-- A symbol number outside the MSC matches neither loop. -/
theorem mscAssemble_outside {sr : Symrange} {lo : Nat} (placed : Placed sr lo) {symbuf : Nat → UInt8}
    (outside : (symbuf 2).toNat < 5 ∨ 77 ≤ (symbuf 2).toNat) (st : MscState) :
    mscAssemble symbuf sr st = (st, []) := by
  have inside := placed.inside
  have positive := placed.positive
  have notFirst : (symbuf 2).toNat ≠ sr.start 0 := by
    rw [placed.start 0 (by decide)]
    omega
  simp only [mscAssemble, if_neg notFirst]
  rw [loop_idle, loop_idle]
  · rfl
  · intro i hi a
    refine if_neg ?_
    rw [placed.start (i + 1) (by omega)]
    omega
  · intro j hj a
    refine if_neg ?_
    rw [placed.start j hj, placed.end_ j hj]
    omega

section Collect

variable {sr : Symrange} {lo : Nat} (placed : Placed sr lo)
include placed

theorem BitsHeld.packet {st : MscState} (held : BitsHeld sr st) (symbuf : Nat → UInt8) :
    BitsHeld sr (mscAssemble symbuf sr st).1 ∧
      (MscEvent.decode ∈ (mscAssemble symbuf sr st).2 → ∀ slot < 16, ∀ place < sr.numsyms, ∀ b,
        cell (mscAssemble symbuf sr st).1.cbuf slot place b = 0 ∨
          cell (mscAssemble symbuf sr st).1.cbuf slot place b = 1) := by
  by_cases outside : (symbuf 2).toNat < 5 ∨ 77 ≤ (symbuf 2).toNat
  · rw [mscAssemble_outside placed outside]
    exact ⟨held, fun called => absurd called List.not_mem_nil⟩
  · obtain ⟨a, refines, bits⟩ := held
    have sym : (symbuf 2).toNat = 5 + ((symbuf 2).toNat - 5) := by omega
    obtain ⟨item, read⟩ : ∃ item, item = symbolBits (freqDeinterleave (fun _ => 0) (shift symbuf 12)) :=
      ⟨_, rfl⟩
    obtain ⟨next, events⟩ := mscAssemble_refines placed sym (by omega) id item read refines
    have symbol : ∀ b, item b = 0 ∨ item b = 1 := read ▸ freqDeinterleave_bits (shift symbuf 12)
    have gathered : ∀ symbol ∈ (a.step sr lo ((symbuf 2).toNat - 5) (symbuf 3).toNat item).history,
        ∀ b, symbol b = 0 ∨ symbol b = 1 := by
      unfold Assembler.step
      split
      · intro other member
        rcases List.mem_append.mp member with old | new
        · exact bits other old
        · exact List.mem_singleton.mp new ▸ symbol
      · split
        · exact fun _ member => absurd member List.not_mem_nil
        · exact bits
    refine ⟨⟨_, next, gathered⟩, fun called slot small place inside b => ?_⟩
    rw [events] at called
    obtain ⟨accepts, complete⟩ := (Assembler.decode_iff a sr lo _ _ _).mp called
    rw [Assembler.step, if_pos accepts] at next gathered
    have filled := next.holds.filled (by simp)
    -- the group that has just been completed is in the current slot, the fifteen before it in the others
    obtain ⟨g, early, recent, rfl⟩ : ∃ g, g ≤ a.history.length / sr.numsyms ∧
        a.history.length / sr.numsyms < g + 16 ∧ slot = g % 16 := by
      have enough := complete.1
      refine ⟨a.history.length / sr.numsyms - (a.history.length / sr.numsyms + 16 - slot) % 16, ?_, ?_, ?_⟩
        <;> omega
    have bound := Ring.group_complete complete.2 early inside
    have stored := filled.held.lookup g place inside (by simpa using Nat.lt_succ_of_le bound)
      (by simpa using recent)
    rw [stored, List.getElem_map, id_eq]
    exact gathered _ (List.getElem_mem _) b

end Collect

/-- The sub-channel ends inside the symbols of a slot. -/
theorem subchannel_slots (s : Subch) (r : Symrange) (some : 0 < s.subchsz) :
    bitspercu * ((startsym r s).startcu + s.subchsz) ≤ (startsym r s).numsyms * bitspersym := by
  have last := subchannel_place s r (64 * s.subchsz - 1) (by omega)
  unfold bitspercu bitspersym cuspersym
  omega

theorem logicalFrame_bits (s : Subch) (r : Symrange) {b : Cbuf}
    (cells : ∀ slot < 16, ∀ place < (startsym r s).numsyms, ∀ bit,
      cell b slot place bit = 0 ∨ cell b slot place bit = 1) :
    ∀ i < bitspercu * s.subchsz, logicalFrame s (startsym r s) b i = 0 ∨
      logicalFrame s (startsym r s) b i = 1 := by
  intro i inside
  have stored := cells ((b.head + timeMap (i % 16)) % 16) (Nat.mod_lt _ (by decide)) _
    (subchannel_place s r i inside) ⟨(64 * (startsym r s).startcu + i) % 3072, Nat.mod_lt _ (by decide)⟩
  rw [logicalFrame, timeDisinterleave_apply _ _ _ _ _ inside]
  simpa only [cell, bitspersym, cuspersym, Nat.div_add_mod'] using stored

/-- MPEG frames are always defined. -/
theorem audioRun_mpeg (decodeRs : List UInt8 → List UInt8) {s : Subch} (mpeg : s.dabplus = 0)
    (frames : List (Nat → UInt8)) (a : AudioState) : (audioRun decodeRs s frames a).isSome := by
  induction frames generalizing a with
  | nil => rfl
  | cons frame frames ih =>
    rw [audioRun, audioDecode, if_neg (not_not_intro mpeg), Option.bind_some, Option.isSome_map]
    exact ih _

section Reception

variable {T : Target} (native : T.Native) {mettab : Nat → Nat → Int} (met : GenMet mettab)
  (decodeRs : List UInt8 → List UInt8) {s : Subch} (consumable : s.Consumable) {r : Symrange} {lo : Nat}
  (placed : Placed (startsym r s) lo)
include native met consumable placed

theorem mscPackets_frames (packets : List (Nat → UInt8)) {c : MscChain} (ready : c.dec.For s)
    (held : BitsHeld (startsym r s) c.asm) :
    ∃ frames, List.Forall₂ s.Nearest (logicalFrames s (startsym r s) packets c.asm) frames ∧
      (mscPackets T mettab decodeRs s (startsym r s) packets c).map Prod.snd =
        (audioRun decodeRs s frames c.dec.audio).map Prod.snd := by
  induction packets generalizing c with
  | nil => exact ⟨[], .nil, rfl⟩
  | cons symbuf packets ih =>
    obtain ⟨next, cells⟩ := held.packet placed symbuf
    by_cases called : (mscAssemble symbuf (startsym r s) c.asm).2.any MscEvent.isDecode = true
    · have bits := logicalFrame_bits s r (cells ((any_isDecode _).mp called))
      obtain ⟨-, d, ready', near, run⟩ := mscDecode_nearest native met decodeRs consumable ready
        (subchannel_slots s r (Nat.lt_of_lt_of_le (by decide) consumable.size)) bits
      cases audio : audioDecode decodeRs s (3 * s.bitrate) d.obuf c.dec.audio with
      | none =>
        -- the audio decoder is undefined here, and with it everything behind
        obtain ⟨frames, nearest, -⟩ := ih (c := ⟨(mscAssemble symbuf (startsym r s) c.asm).1, d⟩)
          ready' next
        refine ⟨d.obuf :: frames, ?_, ?_⟩
        · rw [logicalFrames]
          simp only [called, if_true]
          exact .cons near nearest
        · rw [mscPackets, mscPacket, audioRun, audio]
          simp only [called, if_true, run, audio]
          rfl
      | some a =>
        obtain ⟨frames, nearest, rest⟩ := ih (c := ⟨(mscAssemble symbuf (startsym r s) c.asm).1,
          { d with audio := a.1 }⟩) ready' next
        refine ⟨d.obuf :: frames, ?_, ?_⟩
        · rw [logicalFrames]
          simp only [called, if_true]
          exact .cons near nearest
        · rw [mscPackets, mscPacket, audioRun, audio]
          simp only [called, if_true, run, audio, Option.map_some, Option.bind_some, Option.map_map]
          have output := congrArg (Option.map (a.2 ++ ·)) rest
          rwa [Option.map_map, Option.map_map] at output
    · obtain ⟨frames, nearest, rest⟩ := ih (c := ⟨(mscAssemble symbuf (startsym r s) c.asm).1, c.dec⟩)
        ready next
      refine ⟨frames, ?_, ?_⟩
      · rw [logicalFrames]
        simp only [called]
        exact nearest
      · rw [mscPackets, mscPacket, ← rest]
        simp [called]

theorem mscPacket_ready {symbuf : Nat → UInt8} {c c' : MscChain} {out : List UInt8} (ready : c.dec.For s)
    (held : BitsHeld (startsym r s) c.asm)
    (run : mscPacket T mettab decodeRs s (startsym r s) symbuf c = some (c', out)) :
    c'.dec.For s ∧ BitsHeld (startsym r s) c'.asm := by
  obtain ⟨next, cells⟩ := held.packet placed symbuf
  rw [mscPacket] at run
  by_cases called : (mscAssemble symbuf (startsym r s) c.asm).2.any MscEvent.isDecode = true
  · have bits := logicalFrame_bits s r (cells ((any_isDecode _).mp called))
    obtain ⟨-, d, ready', -, decode⟩ := mscDecode_nearest native met decodeRs consumable ready
      (subchannel_slots s r (Nat.lt_of_lt_of_le (by decide) consumable.size)) bits
    rw [if_pos called, decode, Option.map_map] at run
    obtain ⟨a, -, same⟩ := Option.map_eq_some_iff.mp run
    cases same
    exact ⟨ready', next⟩
  · rw [if_neg called] at run
    cases run
    exact ⟨ready, next⟩

theorem mscPackets_ready {packets : List (Nat → UInt8)} {c c' : MscChain} {out : List UInt8}
    (ready : c.dec.For s) (held : BitsHeld (startsym r s) c.asm)
    (run : mscPackets T mettab decodeRs s (startsym r s) packets c = some (c', out)) :
    c'.dec.For s ∧ BitsHeld (startsym r s) c'.asm := by
  induction packets generalizing c out with
  | nil =>
    cases run
    exact ⟨ready, held⟩
  | cons symbuf packets ih =>
    rw [mscPackets] at run
    obtain ⟨first, packet, others⟩ := Option.bind_eq_some_iff.mp run
    obtain ⟨rest, ran, same⟩ := Option.map_eq_some_iff.mp others
    obtain ⟨ready', held'⟩ := mscPacket_ready native met decodeRs consumable placed ready held packet
    cases same
    exact ih ready' held' ran

/-- Wherever a run has got to, the next call of `msc_decode` reaches the audio decoder. -/
theorem mscPackets_reaches {packets : List (Nat → UInt8)} {c c' : MscChain} {out : List UInt8}
    (ready : c.dec.For s) (held : BitsHeld (startsym r s) c.asm)
    (run : mscPackets T mettab decodeRs s (startsym r s) packets c = some (c', out)) (symbuf : Nat → UInt8)
    (called : MscEvent.decode ∈ (mscAssemble symbuf (startsym r s) c'.asm).2) :
    c'.dec.Reaches T mettab s (startsym r s) (mscAssemble symbuf (startsym r s) c'.asm).1.cbuf := by
  obtain ⟨ready', held'⟩ := mscPackets_ready native met decodeRs consumable placed ready held run
  have bits := logicalFrame_bits s r ((held'.packet placed symbuf).2 called)
  exact (mscDecode_nearest native met decodeRs consumable ready'
    (subchannel_slots s r (Nat.lt_of_lt_of_le (by decide) consumable.size)) bits).1

end Reception

/-- From the first call on, one frame for each call goes to the audio decoder. -/
theorem mscPackets_fresh {T : Target} (native : T.Native) {mettab : Nat → Nat → Int}
    (met : GenMet mettab) (decodeRs : List UInt8 → List UInt8) {s : Subch} (read : ReadFrom s)
    (whole : s.Whole) (inside : s.startaddr + s.subchsz < 864) (r : Symrange)
    (memory : Nat → Nat → UInt8) {d : MscDecoder} (fresh : d.init = true)
    (packets : List (Nat → UInt8)) :
    ∃ frames, List.Forall₂ s.Nearest
        (logicalFrames s (startsym r s) packets (MscState.initial memory)) frames ∧
      (mscPackets T mettab decodeRs s (startsym r s) packets ⟨MscState.initial memory, d⟩).map
          Prod.snd = (audioRun decodeRs s frames d.audio).map Prod.snd :=
  mscPackets_frames native met decodeRs (read.consumable whole) (startsym_placed r s inside) packets
    (c := ⟨MscState.initial memory, d⟩) (.inl fresh) (bitsHeld_initial _ memory)

/-- For every sub-channel that the FIC can describe, whatever the packets hold, every call of
`msc_decode` gets as far as the audio decoder, and the output is that of the audio decoder over the
frames nearest to what was received. -/
theorem msc_reception {T : Target} (native : T.Native) {mettab : Nat → Nat → Int}
    (met : GenMet mettab) (decodeRs : List UInt8 → List UInt8) {s : Subch} (read : ReadFrom s)
    (whole : s.Whole) (inside : s.startaddr + s.subchsz < 864) (r : Symrange)
    (memory : Nat → Nat → UInt8) {d : MscDecoder} (fresh : d.init = true)
    (packets : List (Nat → UInt8)) :
    ∃ frames, List.Forall₂ s.Nearest
        (logicalFrames s (startsym r s) packets (MscState.initial memory)) frames ∧
      (mscPackets T mettab decodeRs s (startsym r s) packets ⟨MscState.initial memory, d⟩).map
          Prod.snd = (audioRun decodeRs s frames d.audio).map Prod.snd ∧
      (∀ c out symbuf,
        mscPackets T mettab decodeRs s (startsym r s) packets ⟨MscState.initial memory, d⟩ =
          some (c, out) →
        MscEvent.decode ∈ (mscAssemble symbuf (startsym r s) c.asm).2 →
        c.dec.Reaches T mettab s (startsym r s) (mscAssemble symbuf (startsym r s) c.asm).1.cbuf) ∧
      (s.dabplus = 0 →
        (mscPackets T mettab decodeRs s (startsym r s) packets ⟨MscState.initial memory, d⟩).isSome) := by
  obtain ⟨frames, nearest, output⟩ := mscPackets_fresh native met decodeRs read whole inside r memory
    fresh packets
  refine ⟨frames, nearest, output, ?_, fun mpeg => ?_⟩
  · intro c out symbuf run called
    exact mscPackets_reaches native met decodeRs (read.consumable whole) (startsym_placed r s inside)
      (.inl fresh) (bitsHeld_initial _ memory) run symbuf called
  have total := congrArg Option.isSome output
  rwa [Option.isSome_map, Option.isSome_map, audioRun_mpeg decodeRs mpeg] at total

/-- The smallest sub-channel at level 4-B, read from the four bytes of its entry. -/
theorem weakest_read : ReadFrom weakest :=
  ⟨⟨0, 0, 0, 0, 0, 0, 0, 0⟩, ofList [0x14, 0x00, 0x9c, 0x0f] fun _ => 0, weakest, 4, by decide, rfl⟩

theorem weakest_whole : weakest.Whole := by
  intro _ row level
  cases level
  exact Nat.le_refl 15

def MscDecoder.initial : MscDecoder where
  init := true
  units := 0
  super := false
  lf := fun _ => 0
  dpbuf := fun _ => 0
  obuf := fun _ => 0
  audio := ⟨⟨0, fun _ => 0⟩, .initial⟩

theorem msc_reception_flat : (mscPackets .x86_64 unitMettab id weakest
    (startsym ⟨fun _ => 0, fun _ => 0, 0, 0, 0⟩ weakest)
    ((List.range 306).map (Broadcast.flat fun t => UInt8.ofNat t).packet)
    ⟨MscState.initial fun _ _ => 0, .initial⟩).isSome = true := by
  obtain ⟨_, _, _, _, defined⟩ := msc_reception (T := .x86_64) rfl genMet_unit id weakest_read
    weakest_whole (by decide) ⟨fun _ => 0, fun _ => 0, 0, 0, 0⟩ (fun _ _ => 0)
    (show MscDecoder.initial.init = true from rfl)
    ((List.range 306).map (Broadcast.flat fun t => UInt8.ofNat t).packet)
  exact defined rfl

/-! An unbroken broadcast. -/

theorem logicalFrames_append (s : Subch) (sr : Symrange) (packets : List (Nat → UInt8))
    (symbuf : Nat → UInt8) (st : MscState) :
    logicalFrames s sr (packets ++ [symbuf]) st = logicalFrames s sr packets st ++
      let r := mscAssemble symbuf sr (packets.foldl (fun st p => (mscAssemble p sr st).1) st)
      if r.2.any MscEvent.isDecode then [logicalFrame s sr r.1.cbuf] else [] := by
  induction packets generalizing st with
  | nil => rfl
  | cons first packets ih =>
    rw [List.cons_append, logicalFrames, logicalFrames, List.foldl_cons]
    dsimp only
    rw [ih]
    split
    · rfl
    · rfl

def Subch.lastSymbol (s : Subch) : Nat := (s.startaddr + s.subchsz) / 48

def Subch.decodes (s : Subch) (t : Nat) : Nat := (t + 17 - s.lastSymbol) / 18 - 15

def Broadcast.atCif (b : Broadcast) (s : Subch) (r : Symrange) (memory : Nat → Nat → UInt8) (c : Nat) :
    Cbuf :=
  (b.feed (startsym r s) memory (List.range (18 * c + s.lastSymbol + 1))).cbuf

section Lossless

variable (b : Broadcast) {s : Subch} (r : Symrange) (memory : Nat → Nat → UInt8)
  (inside : s.startaddr + s.subchsz < 864)
include inside

theorem decode_lossless (t : Nat) :
    MscEvent.decode ∈ b.calls (startsym r s) memory (List.range t) t ↔
      t % 18 = s.lastSymbol ∧ 15 ≤ t / 18 := by
  rw [b.calls_lossless r s memory inside, Broadcast.losslessCalls]
  have cif : t % 72 / symspercif < 4 := by
    unfold symspercif
    omega
  rw [startsym_start r s _ cif, startsym_end r s _ cif]
  unfold Subch.lastSymbol mscstart symspercif
  have order : s.startaddr / 48 ≤ (s.startaddr + s.subchsz) / 48 :=
    Nat.div_le_div_right (Nat.le_add_right _ _)
  split
  · split <;> simp <;> omega
  · simp
    omega

/-- The calls come at the last symbol of every CIF from the sixteenth on. -/
theorem logicalFrames_lossless (t : Nat) :
    logicalFrames s (startsym r s) ((List.range t).map b.packet) (MscState.initial memory) =
      (List.range (s.decodes t)).map fun k =>
        logicalFrame s (startsym r s) (b.atCif s r memory (15 + k)) := by
  induction t with
  | zero =>
    have none : s.decodes 0 = 0 := by
      unfold Subch.decodes
      omega
    rw [none]
    rfl
  | succ t ih =>
    have calls := decode_lossless b r memory inside t
    have small : s.lastSymbol ≤ 17 := by
      unfold Subch.lastSymbol
      omega
    have step : logicalFrames s (startsym r s) ((List.range t).map b.packet ++ [b.packet t])
        (MscState.initial memory) =
        logicalFrames s (startsym r s) ((List.range t).map b.packet) (MscState.initial memory) ++
          if (b.calls (startsym r s) memory (List.range t) t).any MscEvent.isDecode then
            [logicalFrame s (startsym r s) (b.feed (startsym r s) memory (List.range t ++ [t])).cbuf]
          else [] := by
      rw [logicalFrames_append, List.foldl_map, b.feed_append]
      rfl
    rw [List.range_succ, List.map_append, List.map_cons, List.map_nil, step, ih]
    by_cases called : t % 18 = s.lastSymbol ∧ 15 ≤ t / 18
    · have more : s.decodes (t + 1) = s.decodes t + 1 ∧ 18 * (15 + s.decodes t) + s.lastSymbol = t := by
        unfold Subch.decodes
        omega
      rw [if_pos ((any_isDecode _).mpr (calls.mpr called)), more.1, ← List.range_succ,
        List.range_succ (n := s.decodes t), List.map_append, List.map_cons, List.map_nil,
        Broadcast.atCif, more.2]
    · have same : s.decodes (t + 1) = s.decodes t := by
        unfold Subch.decodes
        omega
      rw [if_neg fun any => called (calls.mp ((any_isDecode _).mp any)), same, List.append_nil]

/-- The base slot at a call is that of the newest CIF. -/
theorem head_lossless (c : Nat) : (b.atCif s r memory c).head = c % 16 := by
  have placed := startsym_placed r s inside
  have refines := b.feed_refines placed memory (List.range (18 * c + s.lastSymbol + 1))
  have lossless := lossless_range b placed (18 * c + s.lastSymbol + 1)
  have count : wantedBefore (startsym r s).numsyms (s.startaddr / 48) (18 * c + s.lastSymbol + 1) =
      c * (startsym r s).numsyms + (startsym r s).numsyms := by
    have order : s.startaddr / 48 ≤ s.lastSymbol := Nat.div_le_div_right (Nat.le_add_right _ _)
    have range : s.lastSymbol < 18 := by
      unfold Subch.lastSymbol
      omega
    have length : (startsym r s).numsyms = s.lastSymbol - s.startaddr / 48 + 1 := startsym_numsyms r s
    unfold wantedBefore
    by_cases last : s.lastSymbol = 17
    · rw [last, show (18 * c + 17 + 1) / 18 = c + 1 by omega, Nat.add_mul, Nat.one_mul]
      omega
    · rw [show (18 * c + s.lastSymbol + 1) / 18 = c by omega]
      omega
  have positive := placed.positive
  have filled := refines.holds.filled (by
    rw [← List.length_pos_iff_ne_nil, List.length_map, lossless.length, count]
    omega)
  rw [Broadcast.atCif, filled.head, List.length_map, lossless.length, count]
  have group := (Ring.item_position c (show (startsym r s).numsyms - 1 < (startsym r s).numsyms by omega)).1
  rw [Nat.add_sub_assoc (by omega), group]

/-- A bit of the frame in the buffer: one in sixteen is from the newest CIF, and the others are those
that the CIF sixteen before it began. -/
theorem logicalFrame_lossless {c : Nat} (late : 16 ≤ c) {i : Nat} (bound : i < bitspercu * s.subchsz) :
    logicalFrame s (startsym r s) (b.atCif s r memory c) i =
      b.cifBit (sourceCif c (timeMap (i % 16))) (bitspercu * s.startaddr + i) := by
  have small : s.lastSymbol < 18 := by
    unfold Subch.lastSymbol
    omega
  have holds := b.slots_lossless r s memory inside (18 * c + s.lastSymbol)
    ((decode_lossless b r memory inside _).mpr (by omega))
  rw [show (18 * c + s.lastSymbol) / symspercif = c by unfold symspercif; omega] at holds
  have delay := timeMap_lt (i % 16) (Nat.mod_lt _ (by decide))
  have source : sourceCif c (timeMap (i % 16)) ≤ c ∧ c < sourceCif c (timeMap (i % 16)) + 16 ∧
      (c % 16 + timeMap (i % 16)) % 16 = sourceCif c (timeMap (i % 16)) % 16 := by
    unfold sourceCif
    split <;> omega
  rw [logicalFrame, timeDisinterleave_apply _ _ _ _ _ bound, head_lossless b r memory inside, source.2.2]
  exact holds.units _ source.1 source.2.1 i (by rw [Nat.mul_comm]; exact bound)

end Lossless

/-- The broadcast carries the messages in the sub-channel, each bit delayed by its place. -/
def Broadcast.Conveys (b : Broadcast) (s : Subch) (message : Nat → Nat → UInt8) : Prop :=
  ∀ f i, i < (s.sent (message f)).length →
    b.cifBit (f + timeMap (i % 16)) (bitspercu * s.startaddr + i) = (s.sent (message f)).getD i 0

/-- Every sixteenth bit of a frame, where it differs from what is sent of another. -/
def Subch.crossed (s : Subch) (message other : Nat → UInt8) : Nat :=
  Nat.count (fun i => i % 16 = 0 ∧ (s.sent message).getD i 0 ≠ (s.sent other).getD i 0)
    (s.sent message).length

/-- The errors in the frame of CIF `c` are the sixteenth bits in which its message differs from that
of the CIF sixteen before. -/
theorem errors_crossed (b : Broadcast) {s : Subch} (consumable : s.Consumable) (r : Symrange)
    (memory : Nat → Nat → UInt8) (inside : s.startaddr + s.subchsz < 864)
    {message : Nat → Nat → UInt8} (conveys : b.Conveys s message) (f : Nat) :
    s.errors (message f) (logicalFrame s (startsym r s) (b.atCif s r memory (16 + f))) =
      s.crossed (message f) (message (16 + f)) := by
  rw [Subch.errors, Subch.crossed]
  simp only [Nat.count_eq_card_filter_range]
  refine congrArg _ (Finset.filter_congr fun i member => ?_)
  have early := Finset.mem_range.mp member
  have length (g : Nat) : (s.sent (message g)).length = (s.sent (message f)).length := by
    rw [length_sent, length_sent]
  have bound : i < bitspercu * s.subchsz := by
    rw [length_sent] at early
    exact Nat.lt_of_lt_of_le early consumable.rank_le
  rw [logicalFrame_lossless b r memory inside (Nat.le_add_right 16 f) bound]
  by_cases first : i % 16 = 0
  · have newest := conveys (16 + f) i (by rwa [length])
    rw [first] at newest ⊢
    rw [show sourceCif (16 + f) (timeMap 0) = 16 + f + timeMap 0 from rfl, newest]
    simp
  · have delayed : sourceCif (16 + f) (timeMap (i % 16)) = f + timeMap (i % 16) := by
      have nonzero := mt (timeMap_eq_zero (i % 16) (Nat.mod_lt _ (by decide))).mp first
      rw [sourceCif, if_neg nonzero]
      omega
    rw [delayed, conveys f i early]
    simp [first]

/-- Over an unbroken broadcast one frame a CIF comes out from the sixteenth CIF on. Behind the first
of them each is the message that was sent, sixteen CIFs late, as long as the sixteenth bits of the
newest frame do too little harm. -/
theorem msc_reception_lossless {T : Target} (native : T.Native) {mettab : Nat → Nat → Int}
    (met : GenMet mettab) (decodeRs : List UInt8 → List UInt8) {s : Subch} (read : ReadFrom s)
    (whole : s.Whole) (inside : s.startaddr + s.subchsz < 864) (r : Symrange)
    (memory : Nat → Nat → UInt8) {d : MscDecoder} (fresh : d.init = true) (b : Broadcast)
    {message : Nat → Nat → UInt8} (conveys : b.Conveys s message) (t : Nat) :
    ∃ frames, frames.length = s.decodes t ∧
      (mscPackets T mettab decodeRs s (startsym r s) ((List.range t).map b.packet)
          ⟨MscState.initial memory, d⟩).map Prod.snd =
        (audioRun decodeRs s frames d.audio).map Prod.snd ∧
      ∀ f (bound : f + 1 < frames.length),
        s.crossed (message f) (message (16 + f)) = 0 ∨
          s.Strong ∧ s.crossed (message f) (message (16 + f)) ≤ 4 →
        ∀ j < 3 * s.bitrate, frames[f + 1] j = message f j := by
  have consumable := read.consumable whole
  obtain ⟨frames, nearest, output⟩ := mscPackets_fresh native met decodeRs read whole inside r memory
    fresh ((List.range t).map b.packet)
  rw [logicalFrames_lossless b r memory inside t] at nearest
  have length : frames.length = s.decodes t := by
    rw [← nearest.length_eq, List.length_map, List.length_range]
  refine ⟨frames, length, output, fun f bound few => ?_⟩
  have near := nearest.get (i := f + 1) (by simpa [length] using bound) bound
  simp only [List.get_eq_getElem, List.getElem_map, List.getElem_range] at near
  rw [show 15 + (f + 1) = 16 + f by omega] at near
  apply near.exact consumable
  rwa [errors_crossed b consumable r memory inside conveys]

/-! A transmitter. -/

def packetOf (bit : Nat → Nat → UInt8) (t k : Nat) : UInt8 :=
  if k = 2 then UInt8.ofNat (5 + t % 72)
  else if k = 3 then UInt8.ofNat (t / 72)
  else transmitSymbol (fun i => bit (t / 18) (3072 * (t % 18) + i)) (k - 12)

theorem packetOf_symbol (bit : Nat → Nat → UInt8) (t : Nat) : (packetOf bit t 2).toNat = 5 + t % 72 := by
  rw [packetOf, if_pos rfl, UInt8.toNat_ofNat']
  omega

def Broadcast.ofBits (bit : Nat → Nat → UInt8) : Broadcast where
  packet := packetOf bit
  number f := UInt8.ofNat f
  symbol_number := packetOf_symbol bit
  frame_number _ := rfl

theorem ofBits_cifBit {bit : Nat → Nat → UInt8} (bits : ∀ c p, bit c p = 0 ∨ bit c p = 1) (c : Nat)
    {p : Nat} (inside : p < 55296) : (Broadcast.ofBits bit).cifBit c p = bit c p := by
  have packet : shift ((Broadcast.ofBits bit).packet (18 * c + p / 3072)) 12 =
      transmitSymbol fun i => bit ((18 * c + p / 3072) / 18) (3072 * ((18 * c + p / 3072) % 18) + i) := by
    funext k
    change packetOf bit (18 * c + p / 3072) (12 + k) = _
    rw [packetOf, if_neg (by omega), if_neg (by omega), Nat.add_sub_cancel_left]
  simp only [Broadcast.cifBit, Broadcast.symbol, symbolBits, symspercif, freqDeinterleave,
    byteToBit_length]
  rw [packet, demapped_transmitSymbol (fun i => bit ((18 * c + p / 3072) / 18)
    (3072 * ((18 * c + p / 3072) % 18) + i)) _ _ _ _ (Nat.mod_lt _ (by decide)) (bits _ _)]
  congr 1 <;> omega

def Subch.convey (s : Subch) (message : Nat → Nat → UInt8) (c p : Nat) : UInt8 :=
  let i := p - bitspercu * s.startaddr
  if timeMap (i % 16) ≤ c then (s.sent (message (c - timeMap (i % 16)))).getD i 0 else 0

theorem sent_bit (s : Subch) (message : Nat → UInt8) (i : Nat) :
    (s.sent message).getD i 0 = 0 ∨ (s.sent message).getD i 0 = 1 := by
  by_cases inside : i < (s.sent message).length
  · rw [List.getD_eq_getElem _ _ inside]
    have member := List.getElem_mem inside
    obtain ⟨p, position, value⟩ := List.mem_map.mp member
    have early := List.mem_range.mp (List.mem_filter.mp position).1
    rw [← value, encodeBits_codeword _ (fun i _ => dispersed_bit message i) early]
    exact codeword_bit _ p
  · exact .inl (List.getD_eq_default _ _ (Nat.le_of_not_lt inside))

/-- Every sequence of messages is conveyed by some broadcast. -/
theorem ofBits_conveys {s : Subch} (consumable : s.Consumable)
    (inside : s.startaddr + s.subchsz < 864) (message : Nat → Nat → UInt8) :
    (Broadcast.ofBits (s.convey message)).Conveys s message := by
  intro f i early
  have bits (c p : Nat) : s.convey message c p = 0 ∨ s.convey message c p = 1 := by
    unfold Subch.convey
    dsimp only
    split
    · exact sent_bit s _ _
    · exact .inl rfl
  rw [length_sent] at early
  have bound := Nat.lt_of_lt_of_le early consumable.rank_le
  rw [ofBits_cifBit bits _ (by unfold bitspercu at *; omega), Subch.convey, Nat.add_sub_cancel_left,
    if_pos (Nat.le_add_left _ _), Nat.add_sub_cancel]

/-- Eighteen CIFs that carry the same message: of the three frames two are that message. -/
theorem msc_reception_lossless_constant : ∃ frames : List (Nat → UInt8), frames.length = 3 ∧
    (mscPackets .x86_64 unitMettab id weakest (startsym ⟨fun _ => 0, fun _ => 0, 0, 0, 0⟩ weakest)
        ((List.range 324).map (Broadcast.ofBits (weakest.convey fun _ _ => 0xa5)).packet)
        ⟨MscState.initial fun _ _ => 0, .initial⟩).map Prod.snd =
      (audioRun id weakest frames MscDecoder.initial.audio).map Prod.snd ∧
    ∀ f (bound : f + 1 < frames.length), ∀ j < 96, frames[f + 1] j = 0xa5 := by
  obtain ⟨frames, length, output, same⟩ := msc_reception_lossless (T := .x86_64) rfl genMet_unit id
    weakest_read weakest_whole (by decide) ⟨fun _ => 0, fun _ => 0, 0, 0, 0⟩ (fun _ _ => 0)
    (show MscDecoder.initial.init = true from rfl) _
    (ofBits_conveys (weakest_read.consumable weakest_whole) (by decide) fun _ _ => 0xa5) 324
  refine ⟨frames, length, output, fun f bound => same f bound (.inl ?_)⟩
  rw [Subch.crossed, Nat.count_iff_forall_not]
  exact fun i _ crossed => crossed.2 rfl

end OpenDab
