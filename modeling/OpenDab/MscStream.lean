import OpenDab.MscAssembly
import OpenDab.TimeInterleaving
import OpenDab.Wfic.Symbol
import Mathlib.Data.List.Induction

/-! Whole streams of MSC packets. Packet `t` of the ordered stream is symbol `t % 18` of
CIF `t / 18`; a run feeds the packets at some list of positions to the assembler. -/
namespace OpenDab

open Buffers

/-- The ordered stream of frames: symbols 5 to 76 of each frame under that frame's number. -/
structure Broadcast where
  packet : Nat → Nat → UInt8
  number : Nat → UInt8
  symbol_number : ∀ t, (packet t 2).toNat = 5 + t % 72
  frame_number : ∀ t, packet t 3 = number (t / 72)

def Broadcast.symbol (b : Broadcast) (t : Nat) : SymbolBits :=
  symbolBits (freqDeinterleave (fun _ => 0) (shift (b.packet t) 12))

def MscState.initial (memory : Nat → Nat → UInt8) : MscState := ⟨Cbuf.initial memory, 0, 0⟩

def Broadcast.feed (b : Broadcast) (sr : Symrange) (memory : Nat → Nat → UInt8) (ts : List Nat) :
    MscState :=
  ts.foldl (fun s t => (mscAssemble (b.packet t) sr s).1) (MscState.initial memory)

/-- The calls made for packet `t` once the packets at `ts` have been assembled. -/
def Broadcast.calls (b : Broadcast) (sr : Symrange) (memory : Nat → Nat → UInt8) (ts : List Nat)
    (t : Nat) : List MscEvent :=
  (mscAssemble (b.packet t) sr (b.feed sr memory ts)).2

/-- The abstract run: its items are the positions of the inserted packets. -/
def Broadcast.assembler (b : Broadcast) (sr : Symrange) (lo : Nat) (ts : List Nat) :
    Assembler Nat :=
  ts.foldl (fun a t => a.step sr lo (t % 72) (b.number (t / 72)).toNat t) ⟨0, []⟩

@[simp] theorem Broadcast.feed_append (b : Broadcast) (sr : Symrange)
    (memory : Nat → Nat → UInt8) (ts : List Nat) (t : Nat) :
    b.feed sr memory (ts ++ [t]) = (mscAssemble (b.packet t) sr (b.feed sr memory ts)).1 := by
  simp [feed]

@[simp] theorem Broadcast.assembler_append (b : Broadcast) (sr : Symrange) (lo : Nat)
    (ts : List Nat) (t : Nat) :
    b.assembler sr lo (ts ++ [t]) =
      (b.assembler sr lo ts).step sr lo (t % 72) (b.number (t / 72)).toNat t := by
  simp [assembler]

section Refinement

variable (b : Broadcast) {sr : Symrange} {lo : Nat} (placed : Placed sr lo)
  (memory : Nat → Nat → UInt8)
include placed

theorem Broadcast.step_refines {ts : List Nat}
    (refines : Refines sr b.symbol (b.assembler sr lo ts) (b.feed sr memory ts)) (t : Nat) :
    Refines sr b.symbol (b.assembler sr lo (ts ++ [t])) (b.feed sr memory (ts ++ [t])) ∧
    b.calls sr memory ts t = (b.assembler sr lo ts).events sr lo (t % 72)
      (b.number (t / 72)).toNat (b.symbol t) := by
  have step := mscAssemble_refines placed (b.symbol_number t) (Nat.mod_lt _ (by decide))
    b.symbol t rfl refines
  rw [b.frame_number t] at step
  simpa [Broadcast.calls] using step

/-- Every run of the assembler stands for the abstract run over the same packets. -/
theorem Broadcast.feed_refines (ts : List Nat) :
    Refines sr b.symbol (b.assembler sr lo ts) (b.feed sr memory ts) := by
  induction ts using List.reverseRecOn with
  | nil => exact ⟨rfl, .inl ⟨rfl, initial_blank memory⟩⟩
  | append_singleton ts t ih => exact (b.step_refines placed memory ih t).1

theorem Broadcast.calls_eq (ts : List Nat) (t : Nat) :
    b.calls sr memory ts t = (b.assembler sr lo ts).events sr lo (t % 72)
      (b.number (t / 72)).toNat (b.symbol t) :=
  (b.step_refines placed memory (b.feed_refines placed memory ts) t).2

end Refinement

/-- The stream position of wanted symbol number `k`, counted from the first one of CIF `g`. -/
def position (n lo g k : Nat) : Nat := 18 * (g + k / n) + lo + k % n

/-- The history is an unbroken row of wanted symbols that begins with CIF `g`. -/
def Unbroken (n lo g : Nat) (history : List Nat) : Prop :=
  history = (List.range history.length).map (position n lo g)

theorem Unbroken.nil (n lo g : Nat) : Unbroken n lo g [] := rfl

theorem Unbroken.push {history : List Nat} (unbroken : Unbroken n lo g history) :
    Unbroken n lo g (history ++ [position n lo g history.length]) := by
  simp only [Unbroken, List.length_append, List.length_singleton, List.range_succ, List.map_append,
    List.map_singleton]
  rw [← unbroken]

theorem Unbroken.get {history : List Nat} (unbroken : Unbroken n lo g history) (k : Nat)
    (bound : k < history.length) : history[k] = position n lo g k := by
  have entry := List.getElem_of_eq unbroken bound
  simpa using entry

theorem Unbroken.cells {history : List Nat} {symbol : Nat → SymbolBits} {s : Cbuf}
    (unbroken : Unbroken n lo g history) (filled : Filled n (history.map symbol) s)
    (c place : Nat) (inside : place < n) (bound : c * n + place < history.length)
    (recent : (history.length - 1) / n < c + 16) :
    cell s (c % 16) place = symbol (18 * (g + c) + lo + place) := by
  have stored := filled.held.lookup c place inside (by simpa using bound) (by simpa using recent)
  obtain ⟨group, rest⟩ := Ring.item_position c inside
  rw [stored, List.getElem_map, unbroken.get _ bound, position, group, rest]

/-- An insertion that completes a CIF with 15 others before it is followed by `msc_decode`. -/
theorem Assembler.decode_iff (a : Assembler ι) (sr : Symrange) (lo w frame : Nat)
    (symbol : SymbolBits) : MscEvent.decode ∈ a.events sr lo w frame symbol ↔
      a.Accepts sr lo w frame ∧ Completes sr.numsyms a.history.length := by
  unfold events
  by_cases accepts : a.Accepts sr lo w frame
  · by_cases complete : Completes sr.numsyms a.history.length <;> simp [accepts, complete]
  · by_cases wanted : Wanted sr lo w <;> simp [accepts, wanted]

theorem wanted_iff (sr : Symrange) (lo t : Nat) :
    Wanted sr lo (t % 72) ↔ lo ≤ t % 18 ∧ t % 18 < lo + sr.numsyms := by
  unfold Wanted
  omega

def wantedBefore (n lo t : Nat) : Nat := t / 18 * n + min (t % 18 - lo) n

theorem wantedBefore_wanted {n lo t : Nat} (inside : lo + n ≤ 18) (low : lo ≤ t % 18)
    (high : t % 18 < lo + n) :
    wantedBefore n lo t / n = t / 18 ∧ wantedBefore n lo t % n = t % 18 - lo ∧
      wantedBefore n lo (t + 1) = wantedBefore n lo t + 1 := by
  have place : min (t % 18 - lo) n = t % 18 - lo := by omega
  obtain ⟨group, rest⟩ := Ring.item_position (t / 18) (show t % 18 - lo < n by omega)
  refine ⟨by rw [wantedBefore, place, group], by rw [wantedBefore, place, rest], ?_⟩
  unfold wantedBefore
  by_cases last : t % 18 = 17
  · rw [show (t + 1) / 18 = t / 18 + 1 by omega, Nat.add_mul]
    omega
  · rw [show (t + 1) / 18 = t / 18 by omega]
    omega

theorem wantedBefore_unwanted {n lo t : Nat} (inside : lo + n ≤ 18)
    (unwanted : ¬(lo ≤ t % 18 ∧ t % 18 < lo + n)) :
    wantedBefore n lo (t + 1) = wantedBefore n lo t := by
  unfold wantedBefore
  by_cases last : t % 18 = 17
  · rw [show (t + 1) / 18 = t / 18 + 1 by omega, Nat.add_mul]
    omega
  · rw [show (t + 1) / 18 = t / 18 by omega]
    omega

structure Lossless (b : Broadcast) (n lo t : Nat) (a : Assembler Nat) : Prop where
  unbroken : Unbroken n lo 0 a.history
  length : a.history.length = wantedBefore n lo t
  frame : lo < t % 72 → a.frame = (b.number (t / 72)).toNat

theorem Lossless.accepts {b : Broadcast} {sr : Symrange} {a : Assembler Nat}
    (lossless : Lossless b sr.numsyms lo t a) :
    a.Accepts sr lo (t % 72) (b.number (t / 72)).toNat ↔ Wanted sr lo (t % 72) := by
  refine ⟨fun accepts => accepts.1, fun wanted => ⟨wanted, ?_⟩⟩
  by_cases first : t % 72 = lo
  · exact .inl first
  · have later : lo < t % 72 := by
      rw [wanted_iff] at wanted
      omega
    exact .inr (lossless.frame later).symm

theorem lossless_range (b : Broadcast) {sr : Symrange} {lo : Nat} (placed : Placed sr lo)
    (t : Nat) : Lossless b sr.numsyms lo t (b.assembler sr lo (List.range t)) := by
  have inside := placed.inside
  have positive := placed.positive
  induction t with
  | zero =>
    refine ⟨Unbroken.nil _ _ _, ?_, fun later => absurd later (Nat.not_lt_zero _)⟩
    simp [Broadcast.assembler, wantedBefore]
  | succ t ih =>
    have accepts := ih.accepts
    rw [List.range_succ, Broadcast.assembler_append]
    by_cases wanted : Wanted sr lo (t % 72)
    · have range := (wanted_iff sr lo t).mp wanted
      obtain ⟨group, place, next⟩ := wantedBefore_wanted inside range.1 range.2
      have item : position sr.numsyms lo 0 (b.assembler sr lo (List.range t)).history.length = t := by
        rw [ih.length, position, group, place]
        omega
      have pushed := ih.unbroken.push
      rw [item] at pushed
      rw [Assembler.step, if_pos (accepts.mpr wanted)]
      refine ⟨pushed, by simp [ih.length, next], fun later => ?_⟩
      have frame : (t + 1) / 72 = t / 72 := by omega
      rw [frame]
    · have range : ¬(lo ≤ t % 18 ∧ t % 18 < lo + sr.numsyms) :=
        fun h => wanted ((wanted_iff sr lo t).mpr h)
      rw [Assembler.step, if_neg fun h => wanted (accepts.mp h), if_neg wanted]
      refine ⟨ih.unbroken, by rw [ih.length, wantedBefore_unwanted inside range], fun later => ?_⟩
      have frame : (t + 1) / 72 = t / 72 ∧ lo < t % 72 := by omega
      rw [frame.1]
      exact ih.frame frame.2

/-- The calls that an unbroken stream makes for packet `t`: every symbol of the range in the slot
of its CIF, and `msc_decode` at the last one from the sixteenth CIF on. -/
def Broadcast.losslessCalls (b : Broadcast) (sr : Symrange) (t : Nat) : List MscEvent :=
  let sym := mscstart + t % 72
  let cif := t / symspercif
  let j := t % 72 / symspercif
  if sr.start j ≤ sym ∧ sym ≤ sr.end_ j then
    .insert (cif % 16) (sym - sr.start j) (b.symbol t) ::
      if sym = sr.end_ j ∧ 15 ≤ cif then [.decode] else []
  else []

def Broadcast.cifBit (b : Broadcast) (cif p : Nat) : UInt8 :=
  b.symbol (symspercif * cif + p / 3072) ⟨p % 3072, Nat.mod_lt _ (by decide)⟩

structure HoldsCifs (b : Broadcast) (sr : Symrange) (s : Subch) (cif : Nat) (buffer : Cbuf) :
    Prop where
  symbols : ∀ c ≤ cif, cif < c + 16 → ∀ place < sr.numsyms,
    cell buffer (c % 16) place = b.symbol (symspercif * c + (sr.start 0 - mscstart) + place)
  units : ∀ c ≤ cif, cif < c + 16 → ∀ i < s.subchsz * bitspercu,
    (buffer.cb (c % 16)).data (bitspercu * sr.startcu + i) =
      b.cifBit c (bitspercu * s.startaddr + i)

/-- The slot bits from `startcu` on are the sub-channel's capacity units. -/
theorem units_of_symbols (b : Broadcast) (r : Symrange) (s : Subch) (cif : Nat) (buffer : Cbuf)
    (symbols : ∀ c ≤ cif, cif < c + 16 → ∀ place < (startsym r s).numsyms,
      cell buffer (c % 16) place = b.symbol (18 * c + s.startaddr / 48 + place)) :
    HoldsCifs b (startsym r s) s cif buffer := by
  have start : (startsym r s).start 0 - mscstart = s.startaddr / 48 := by
    rw [startsym_start r s 0 (by decide)]
    rfl
  refine ⟨fun c early recent place inside => ?_, fun c early recent i bound => ?_⟩
  · rw [start]
    exact symbols c early recent place inside
  · simp only [bitspercu] at bound ⊢
    have place := subchannel_place s r i (by omega)
    have bit := congrFun (symbols c early recent _ place)
      ⟨(64 * (startsym r s).startcu + i) % 3072, Nat.mod_lt _ (by decide)⟩
    rw [startsym_startcu] at bit ⊢
    simp only [cell, bitspersym, cuspersym, Nat.div_add_mod'] at bit
    have row : 18 * c + s.startaddr / 48 + (64 * (s.startaddr % 48) + i) / 3072 =
        18 * c + (64 * s.startaddr + i) / 3072 := by omega
    have column : (64 * (s.startaddr % 48) + i) % 3072 = (64 * s.startaddr + i) % 3072 := by omega
    simp only [Broadcast.cifBit, symspercif]
    simpa only [row, column] using bit

/-- Without losses the calls for every packet are those of `losslessCalls`. -/
theorem Broadcast.calls_lossless (b : Broadcast) (r : Symrange) (s : Subch)
    (memory : Nat → Nat → UInt8) (inside : s.startaddr + s.subchsz < 864) (t : Nat) :
    b.calls (startsym r s) memory (List.range t) t = b.losslessCalls (startsym r s) t := by
  have placed := startsym_placed r s inside
  have lossless := lossless_range b placed t
  rw [b.calls_eq placed memory]
  have range := wanted_iff (startsym r s) (s.startaddr / 48) t
  have slice : (startsym r s).start (t % 72 / symspercif) ≤ mscstart + t % 72 ∧
      mscstart + t % 72 ≤ (startsym r s).end_ (t % 72 / symspercif) ↔
      Wanted (startsym r s) (s.startaddr / 48) (t % 72) := by
    rw [range]
    simp only [mscstart, symspercif]
    rw [placed.start _ (by omega), placed.end_ _ (by omega)]
    have := placed.positive
    omega
  simp only [Broadcast.losslessCalls, Assembler.events, lossless.accepts, slice]
  by_cases wanted : Wanted (startsym r s) (s.startaddr / 48) (t % 72)
  · obtain ⟨low, high⟩ := range.mp wanted
    obtain ⟨group, place, -⟩ := wantedBefore_wanted placed.inside low high
    have offset : mscstart + t % 72 - (startsym r s).start (t % 72 / symspercif) =
        t % 18 - s.startaddr / 48 := by
      simp only [mscstart, symspercif]
      rw [placed.start _ (by omega)]
      omega
    have last : mscstart + t % 72 = (startsym r s).end_ (t % 72 / symspercif) ∧
        15 ≤ t / symspercif ↔ Completes (startsym r s).numsyms (wantedBefore
          (startsym r s).numsyms (s.startaddr / 48) t) := by
      simp only [Completes, group, place, mscstart, symspercif]
      rw [placed.end_ _ (by omega)]
      omega
    simp only [if_pos wanted, lossless.length, group, place, offset, last]
    rfl
  · simp only [if_neg wanted]

/-- Without losses the slots hold the last sixteen CIFs whenever `msc_decode` is called. -/
theorem Broadcast.slots_lossless (b : Broadcast) (r : Symrange) (s : Subch)
    (memory : Nat → Nat → UInt8) (inside : s.startaddr + s.subchsz < 864) (t : Nat)
    (decode : .decode ∈ b.calls (startsym r s) memory (List.range t) t) :
    HoldsCifs b (startsym r s) s (t / symspercif)
      (b.feed (startsym r s) memory (List.range (t + 1))).cbuf := by
  have placed := startsym_placed r s inside
  have lossless := lossless_range b placed t
  rw [b.calls_eq placed memory, Assembler.decode_iff] at decode
  obtain ⟨accepts, complete⟩ := decode
  have range := (wanted_iff _ _ _).mp accepts.1
  obtain ⟨group, place, next⟩ := wantedBefore_wanted placed.inside range.1 range.2
  have after := lossless_range b placed (t + 1)
  obtain ⟨-, holds⟩ := b.feed_refines placed memory (List.range (t + 1))
  have length := after.length
  rw [next] at length
  have filled := holds.filled fun nil => by
    simp [List.map_eq_nil_iff.mp nil] at length
  refine units_of_symbols b r s _ _ fun c early recent place' inside' => ?_
  rw [Completes, lossless.length] at complete
  have cells := after.unbroken.cells filled c place' inside' ?_ ?_
  · rwa [Nat.zero_add] at cells
  · rw [length]
    exact Nat.lt_succ_of_le (Ring.group_complete complete.2 (by rwa [group]) inside')
  · rw [length, Nat.add_sub_cancel, group]
    exact recent

/-- Lossless assembly from the program's initial state: exactly the calls of `losslessCalls`, and
at each `msc_decode` the slots hold the last sixteen CIFs. -/
theorem lossless_assembly (b : Broadcast) (r : Symrange) (s : Subch)
    (memory : Nat → Nat → UInt8) (inside : s.startaddr + s.subchsz < 864) (t : Nat) :
    b.calls (startsym r s) memory (List.range t) t = b.losslessCalls (startsym r s) t ∧
    (.decode ∈ b.calls (startsym r s) memory (List.range t) t →
      HoldsCifs b (startsym r s) s (t / symspercif)
        (b.feed (startsym r s) memory (List.range (t + 1))).cbuf) :=
  ⟨b.calls_lossless r s memory inside t, b.slots_lossless r s memory inside t⟩

/-- Frames numbered from 0 whose packet `t` repeats one payload byte. -/
def Broadcast.flat (payload : Nat → UInt8) : Broadcast where
  packet t := store (store (fun _ => payload t) 2 (UInt8.ofNat (5 + t % 72))) 3 (UInt8.ofNat (t / 72))
  number f := UInt8.ofNat f
  symbol_number t := by
    simp only [store_other _ _ (show 2 ≠ 3 by decide), store_same, UInt8.toNat_ofNat']
    omega
  frame_number t := store_same _ _ _

/-- Each bit of a flat packet's symbol is one fixed bit of the payload byte. -/
theorem flat_symbol (bit : Fin 3072) : ∃ w < 8, ∀ (payload : Nat → UInt8) (t : Nat),
    (Broadcast.flat payload).symbol t bit = bitAt (payload t) w := by
  refine ⟨wireBit bit % 8, Nat.mod_lt _ (by decide), fun payload t => ?_⟩
  have header : ∀ i, shift ((Broadcast.flat payload).packet t) 12 i = payload t := by
    intro i
    simp only [Broadcast.flat, shift_apply]
    rw [store_other _ _ (by omega), store_other _ _ (by omega)]
  simp only [Broadcast.symbol, symbolBits, freqDeinterleave, byteToBit_length]
  rw [demapped_bit _ _ _ _ _ _ bit.isLt, header]

/-- A sub-channel that occupies the last eight units of one symbol and the first twelve of the
next: `msc_decode` is first called at the second symbol of CIF 15. -/
theorem lossless_assembly_two_symbols :
    let s : Subch := ⟨3, 40, 20, 16, 1, 2, 0, 0⟩
    let sr := startsym ⟨fun _ => 0, fun _ => 0, 0, 0, 0⟩ s
    let b := Broadcast.flat fun t => UInt8.ofNat t
    .decode ∈ b.calls sr (fun _ _ => 0) (List.range 271) 271 ∧
      HoldsCifs b sr s 15 (b.feed sr (fun _ _ => 0) (List.range 272)).cbuf := by
  intro s sr b
  obtain ⟨calls, holds⟩ := lossless_assembly b ⟨fun _ => 0, fun _ => 0, 0, 0, 0⟩ s (fun _ _ => 0)
    (by decide) 271
  have decode : .decode ∈ b.losslessCalls sr 271 := by simp [Broadcast.losslessCalls, sr, s,
    startsym_start, startsym_end, mscstart, symspercif]
  rw [← calls] at decode
  exact ⟨decode, holds decode⟩

end OpenDab
