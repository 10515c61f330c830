import OpenDab.SuperframeDecoding
import OpenDab.SuperframeEncoding

/-! Decoding undoes encoding: the parameters and the starts are read back, a superframe without
errors passes the correction unchanged, and every access unit is found and its CRC is good. -/
namespace OpenDab

open Buffers Division

theorem streamParms_encode (rfa dacRate sbrFlag aacChannelMode psFlag : Fin 2) :
    streamParms (UInt8.ofNat (rfa * 128 + dacRate * 64 + sbrFlag * 32 + aacChannelMode * 16 + psFlag * 8)) =
      ⟨rfa, dacRate, sbrFlag, psFlag, aacChannelMode, 0⟩ := by
  revert rfa dacRate sbrFlag aacChannelMode psFlag
  decide

theorem austab_unitCount (dacRate sbrFlag : Fin 2) :
    austab.getD (dacRate.val <<< 1 ||| sbrFlag.val) 0 = unitCount dacRate sbrFlag := by
  revert dacRate sbrFlag
  decide

theorem starts_pair {m : Nat → UInt8} {k a b : Nat} {rest : List Nat} (small : a < 4096) (small' : b < 4096)
    (begins : Begins (shift m k) (pack12 (a :: b :: rest))) :
    startHigh m k = a ∧ startLow m (k + 1) = b ∧ Begins (shift m (k + 3)) (pack12 rest) := by
  simp only [pack12, begins_cons, shift_shift, shift_apply, Nat.add_zero] at begins
  obtain ⟨first, second, third, rest⟩ := begins
  have mask : (a % 16 * 16 + b / 256) % 256 % 16 = b / 256 := by omega
  refine ⟨?_, ?_, rest⟩
  · rw [startHigh, first, second, UInt8.toNat_ofNat', UInt8.toNat_ofNat', Nat.shiftLeft_eq,
      Nat.shiftRight_eq_div_pow]
    omega
  · rw [startLow, second, third, UInt8.toNat_ofNat', UInt8.toNat_ofNat', Nat.shiftLeft_eq,
      Nat.and_two_pow_sub_one_eq_mod _ 4]
    omega

theorem starts_last {m : Nat → UInt8} {k a : Nat} (small : a < 4096)
    (begins : Begins (shift m k) (pack12 [a])) : startHigh m k = a := by
  simp only [pack12, begins_cons, shift_shift, shift_apply, Nat.add_zero] at begins
  obtain ⟨first, second, -⟩ := begins
  rw [startHigh, first, second, UInt8.toNat_ofNat', UInt8.toNat_ofNat', Nat.shiftLeft_eq,
    Nat.shiftRight_eq_div_pow]
  omega

theorem auStart_encode {m : Nat → UInt8} {starts : List Nat} (units : starts.length ∈ [1, 2, 3, 5])
    (small : ∀ start ∈ starts, start < 4096) (begins : Begins (shift m 3) (pack12 starts)) :
    auStart m (starts.length + 1) = headerLength (starts.length + 1) :: starts := by
  rcases starts with _ | ⟨a, _ | ⟨b, _ | ⟨c, _ | ⟨d, _ | ⟨e, _ | ⟨f, rest⟩⟩⟩⟩⟩⟩
  case nil => simp at units
  case cons.nil =>
    have start1 := starts_last (small a (by simp)) begins
    simp [auStart, headerLength, start1]
  case cons.cons.nil =>
    obtain ⟨start1, start2, -⟩ := starts_pair (small a (by simp)) (small b (by simp)) begins
    simp [auStart, headerLength, start1, start2]
  case cons.cons.cons.nil =>
    obtain ⟨start1, start2, rest⟩ := starts_pair (small a (by simp)) (small b (by simp)) begins
    have start3 := starts_last (small c (by simp)) rest
    simp [auStart, headerLength, start1, start2, start3]
  case cons.cons.cons.cons.nil => simp at units
  case cons.cons.cons.cons.cons.nil =>
    obtain ⟨start1, start2, rest⟩ := starts_pair (small a (by simp)) (small b (by simp)) begins
    obtain ⟨start3, start4, rest⟩ := starts_pair (small c (by simp)) (small d (by simp)) rest
    have start5 := starts_last (small e (by simp)) rest
    simp [auStart, headerLength, start1, start2, start3, start4, start5]
  case cons.cons.cons.cons.cons.cons => simp at units

def unitTable (start : Nat) : List (List UInt8) → List (Nat × Int)
  | [] => []
  | payload :: payloads =>
    (start, (payload.length + 2 : Int)) :: unitTable (start + (payload.length + 2)) payloads

theorem unitTable_zip {total : Int} {start : Nat} {payloads : List (List UInt8)}
    (filled : total = (start + (payloads.map fun p => p.length + 2).sum : Nat)) :
    (unitStarts start payloads).zip (auSize total (unitStarts start payloads)) =
      unitTable start payloads := by
  induction payloads generalizing start with
  | nil => rfl
  | cons payload payloads ih =>
    rw [List.map_cons, List.sum_cons, ← Nat.add_assoc] at filled
    cases payloads with
    | nil =>
      have size : total - start = payload.length + 2 := by
        rw [filled, List.map_nil, List.sum_nil]
        omega
      simp only [unitStarts, unitTable, auSize, List.zip_cons_cons, List.zip_nil_right, size]
    | cons next payloads =>
      have size : ((start + (payload.length + 2) : Nat) : Int) - start = payload.length + 2 := by omega
      rw [unitTable, ← ih filled]
      simp only [unitStarts, auSize, List.zip_cons_cons, size]

theorem ofBitVec_not (crc : BitVec 16) {start : Nat} (byte : start ≤ 8) :
    UInt8.ofBitVec ((~~~crc).extractLsb' start 8) ^^^ 0xff = UInt8.ofBitVec (crc.extractLsb' start 8) := by
  rw [← UInt8.toBitVec_inj]
  apply BitVec.eq_of_getLsbD_eq
  intro i inside
  simp [inside, mask_bit inside, show start + i < 16 by omega]

/-- A unit in the buffer is found good and written out, and only its CRC is changed. -/
theorem accessUnit_unit (sp : StreamParms) {m : Nat → UInt8} {start : Nat} {payload : List UInt8}
    (carries : Begins (shift m start) (unit payload)) :
    ∃ m', accessUnit sp m start (payload.length + 2) = some (m', wfadts payload.length sp ++ payload) ∧
      ∀ a, start + payload.length + 2 ≤ a → m' a = m a := by
  obtain ⟨content, check⟩ := (begins_append _ _ _).mp carries
  have bound : ¬((payload.length + 2 : Int) < 0 ∨ (start : Int) + (payload.length + 2) < 2) := by omega
  have len : (payload.length + 2 : Int).toNat = payload.length + 2 := by omega
  have first : start + (payload.length + 2) - 2 = start + payload.length := by omega
  rw [accessUnit, if_neg bound]
  simp only [len, first]
  generalize inverted : store (store m (start + payload.length) (m (start + payload.length) ^^^ 0xff))
    (start + payload.length + 1) _ = m'
  have behind : ∀ a, start + payload.length + 2 ≤ a → m' a = m a := by
    intro a later
    rw [← inverted, store_other _ _ (by omega), store_other _ _ (by omega)]
  have before : ∀ a, a < start + payload.length → m' a = m a := by
    intro a earlier
    rw [← inverted, store_other _ _ (by omega), store_other _ _ (by omega)]
  have unchanged : cells (shift m' start) 0 payload.length = payload := by
    refine cells_begins fun i inside => ?_
    rw [shift_apply, before _ (by omega)]
    exact content i inside
  have good : cells (shift m' start) 0 (payload.length + 2) =
      payload ++ crcBytes (divide ccittPoly (BitVec.allOnes 16) (byteBits payload)) := by
    simp only [crcBytes, begins_cons, shift_shift, shift_apply, Nat.add_zero] at check
    rw [cells_add, unchanged, cells_add _ _ 1 1, crcBytes, ← ofBitVec_not _ (Nat.le_refl 8),
      ← ofBitVec_not _ (Nat.zero_le 8), ← check.1, ← check.2.1, ← inverted]
    simp [cells, Nat.add_assoc]
  have size : (payload.length + 2 : Int) - 2 = payload.length := by omega
  rw [if_pos (crccheck_appended good), if_neg (by omega), size, Nat.add_sub_cancel]
  refine ⟨m', ?_, behind⟩
  rw [← Nat.add_zero start, ← cells_shift, unchanged]

theorem accessUnits_encode (sp : StreamParms) (payloads : List (List UInt8)) {start : Nat}
    {m : Nat → UInt8} (carries : Begins (shift m start) (payloads.flatMap unit)) :
    ∃ m', accessUnits sp (unitTable start payloads) m =
      some (m', payloads.flatMap fun p => wfadts p.length sp ++ p) := by
  induction payloads generalizing start m with
  | nil => exact ⟨m, rfl⟩
  | cons payload payloads ih =>
    rw [List.flatMap_cons, begins_append, shift_shift, length_unit] at carries
    obtain ⟨m', first, kept⟩ := accessUnit_unit sp carries.1
    have rest : Begins (shift m' (start + (payload.length + 2))) (payloads.flatMap unit) := by
      intro i inside
      rw [shift_apply, kept _ (by omega)]
      exact carries.2 i inside
    obtain ⟨m'', later⟩ := ih rest
    refine ⟨m'', ?_⟩
    rw [unitTable, accessUnits, first, Option.bind_some, later, Option.map_some, List.flatMap_cons]

theorem correctColumn_fixed {decodeRs : List UInt8 → List UInt8} {s i : Nat} {m : Nat → UInt8}
    (fixed : decodeRs ((List.range 120).map fun j => m (s * j + i)) =
      (List.range 120).map fun j => m (s * j + i)) : correctColumn decodeRs s i m = m := by
  rw [correctColumn, fixed]
  refine loop_invariant (fun _ t => t = m) rfl ?_
  rintro j inside t rfl
  have cell : ((List.range 120).map fun j => t (s * j + i)).getD j 0 = t (s * j + i) := by
    simp [List.getD_eq_getElem?_getD, show j < 120 by omega]
  rw [cell, store_self]

theorem correct_fixed {decodeRs : List UInt8 → List UInt8} {s : Nat} {m : Nat → UInt8}
    (fixed : ∀ i < s, decodeRs ((List.range 120).map fun j => m (s * j + i)) =
      (List.range 120).map fun j => m (s * j + i)) : correct decodeRs s m = m := by
  refine loop_invariant (fun _ t => t = m) rfl ?_
  rintro i inside t rfl
  exact correctColumn_fixed (fixed i inside)

section Superframe

variable {s : Nat} (sf : Superframe s)

def Superframe.parms : StreamParms :=
  ⟨sf.rfa, sf.dacRate, sf.sbrFlag, sf.psFlag, sf.aacChannelMode, 0⟩

theorem row_lt {j n i : Nat} (row : j < n) (inside : i < s) : s * j + i < n * s := by
  have room := Nat.mul_le_mul_left s row
  rw [Nat.mul_succ, Nat.mul_comm s n] at room
  omega

theorem Superframe.column_data {m : Nat → UInt8} (begins : Begins m sf.data) {i : Nat}
    (inside : i < s) : (List.range 110).map (fun j => m (s * j + i)) = sf.column i := by
  refine List.map_congr_left fun j member => begins_getD begins ?_ 0
  rw [length_data]
  exact row_lt (List.mem_range.mp member) inside

/-- The parity of a column, in the rows behind the data. -/
theorem Superframe.column_parity {m : Nat → UInt8} (begins : Begins m sf.encode) {i : Nat}
    (inside : i < s) :
    (List.range 10).map (fun r => m (s * (110 + r) + i)) = rsParity (sf.column i) := by
  obtain ⟨-, parity⟩ := (begins_append _ _ _).mp begins
  rw [length_data] at parity
  refine List.ext_getElem (by simp [length_rsParity]) fun r short here => ?_
  have small : r < 10 := by simpa using short
  have place : s * (110 + r) + i = 110 * s + (s * r + i) := by
    rw [Nat.mul_add, Nat.mul_comm s 110, Nat.add_assoc]
  have column : (s * r + i) % s = i := by
    rw [Nat.mul_add_mod, Nat.mod_eq_of_lt inside]
  have rest : (s * r + i) / s = r := by
    rw [Nat.mul_add_div (by omega), Nat.div_eq_of_lt inside, Nat.add_zero]
  have cell := parity (s * r + i) (by simpa using row_lt small inside)
  rw [shift_apply] at cell
  simp only [List.getElem_map, List.getElem_range, place]
  rw [cell]
  simp [column, rest, List.getD_eq_getElem?_getD, List.getElem?_eq_getElem here]

theorem Superframe.columns {m : Nat → UInt8} (begins : Begins m sf.encode) {i : Nat}
    (inside : i < s) : (List.range 120).map (fun j => m (s * j + i)) =
      sf.column i ++ rsParity (sf.column i) := by
  have split : List.range 120 = List.range 110 ++ (List.range 10).map (110 + ·) := rfl
  rw [split, List.map_append, List.map_map,
    sf.column_data ((begins_append _ _ _).mp begins).1 inside, ← sf.column_parity begins inside]
  rfl

theorem Superframe.positive (sf : Superframe s) : 0 < s := by
  have filled := sf.filled
  rw [headerLength] at filled
  omega

theorem Superframe.units : sf.payloads.length ∈ [2, 3, 4, 6] := by
  have table : ∀ dacRate sbrFlag, unitCount dacRate sbrFlag ∈ [2, 3, 4, 6] := by decide
  rw [sf.count]
  exact table _ _

theorem Superframe.layout {m : Nat → UInt8} (begins : Begins m sf.data) :
    m 2 = sf.parameters ∧
      Begins (shift m 3) (pack12 (unitStarts (headerLength sf.payloads.length) sf.payloads).tail) ∧
      Begins (shift m (headerLength sf.payloads.length)) (sf.payloads.flatMap unit) := by
  have header : headerLength sf.payloads.length = 2 + 1 + (12 * (unitStarts
      (headerLength sf.payloads.length) sf.payloads).tail.length + 7) / 8 := by
    rw [List.length_tail, length_unitStarts, headerLength]
  obtain ⟨-, body⟩ := (begins_append _ _ _).mp begins
  rw [length_crcBytes, Superframe.body, List.cons_append, begins_cons, shift_apply, Nat.add_zero,
    shift_shift, begins_append, shift_shift, length_pack12, ← header] at body
  exact body

theorem unitStarts_cons {payloads : List (List UInt8)} (some : 0 < payloads.length) (start : Nat) :
    unitStarts start payloads = start :: (unitStarts start payloads).tail := by
  cases payloads with
  | nil => simp at some
  | cons payload payloads => rfl

theorem Superframe.auStart {m : Nat → UInt8} (begins : Begins m sf.data) :
    auStart m sf.payloads.length = unitStarts (headerLength sf.payloads.length) sf.payloads := by
  have units := sf.units
  simp only [List.mem_cons, List.not_mem_nil, or_false] at units
  have first := unitStarts_cons (show 0 < sf.payloads.length by omega) (headerLength sf.payloads.length)
  have length := congrArg List.length first
  rw [length_unitStarts, List.length_cons] at length
  have read := auStart_encode (by
    simp only [List.mem_cons, List.not_mem_nil, or_false]
    omega) (fun start member => sf.addressable start (List.mem_of_mem_tail member))
    (sf.layout begins).2.1
  rwa [← length, ← first] at read

/-- A complete superframe goes to the output unit by unit. -/
theorem Superframe.process {decodeRs : List UInt8 → List UInt8}
    (unchanged : ∀ message : List UInt8, message.length = 110 →
      decodeRs (message ++ rsParity message) = message ++ rsParity message)
    {m : Nat → UInt8} (begins : Begins m sf.encode) :
    ∃ m', processSuperframe decodeRs s (110 * s : Nat) m =
      some (m', sf.payloads.flatMap fun p => wfadts p.length sf.parms ++ p) := by
  have fixed : correct decodeRs s m = m := by
    refine correct_fixed fun i inside => ?_
    rw [sf.columns begins inside]
    exact unchanged _ (by simp [column])
  obtain ⟨data, -⟩ := (begins_append _ _ _).mp begins
  obtain ⟨parameters, -, units⟩ := sf.layout data
  have params : streamParms (m 2) = sf.parms := by
    rw [parameters]
    exact streamParms_encode ..
  have count : austab.getD (sf.parms.dacRate <<< 1 ||| sf.parms.sbrFlag) 0 = sf.payloads.length := by
    rw [sf.count]
    exact austab_unitCount ..
  obtain ⟨m', written⟩ := accessUnits_encode sf.parms sf.payloads units
  refine ⟨m', ?_⟩
  simp only [processSuperframe, fixed, params, count, sf.auStart data]
  rwa [unitTable_zip (congrArg Nat.cast sf.filled.symm)]

theorem Superframe.logicalFrame_cell {k : Nat} (five : k < 5) {ibuf : Nat → UInt8}
    (begins : Begins ibuf (sf.logicalFrame k)) {i : Nat} (inside : i < 24 * s) :
    ibuf i = sf.encode.getD (24 * s * k + i) 0 := by
  have room := Nat.mul_le_mul_left (24 * s) (show k + 1 ≤ 5 by omega)
  rw [Nat.mul_succ] at room
  have length : i < (sf.logicalFrame k).length := by
    rw [logicalFrame, List.length_take, List.length_drop, length_encode]
    omega
  rw [begins_getD begins length 0, logicalFrame, List.getD_eq_getElem?_getD, List.getElem?_take_of_lt inside,
    List.getElem?_drop, List.getD_eq_getElem?_getD]

def Superframe.Collected (k : Nat) (m : Nat → UInt8) : Prop :=
  ∀ a < 24 * s * k, m a = sf.encode.getD a 0

theorem Superframe.Collected.next {k : Nat} {m ibuf : Nat → UInt8} (collected : sf.Collected k m)
    (five : k < 5) (begins : Begins ibuf (sf.logicalFrame k)) :
    sf.Collected (k + 1) (copy m (24 * s * k) ibuf (24 * s)) := by
  intro a inside
  rw [Nat.mul_succ] at inside
  by_cases earlier : a < 24 * s * k
  · rw [copy_outside _ _ (.inl earlier), collected a earlier]
  · obtain ⟨i, rfl⟩ : ∃ i, a = 24 * s * k + i := ⟨a - 24 * s * k, by omega⟩
    rw [copy_inside _ _ _ (by omega), sf.logicalFrame_cell five begins (by omega)]

theorem Superframe.Collected.begins {m : Nat → UInt8} (collected : sf.Collected 5 m) :
    Begins m sf.encode := by
  intro a inside
  rw [collected a (by rw [length_encode] at inside; omega), List.getD_eq_getElem?_getD,
    List.getElem?_eq_getElem inside, Option.getD_some]

theorem Superframe.firecrccheck {ibuf : Nat → UInt8} (begins : Begins ibuf (sf.logicalFrame 0)) :
    firecrccheck ibuf = true := by
  have positive := sf.positive
  have body : 9 ≤ sf.body.length := by
    have length := sf.length_data
    rw [data, List.length_append, length_crcBytes] at length
    omega
  have front : sf.data.take 11 = crcBytes (divide firePoly 0#16 (byteBits (sf.body.take 9))) ++
      sf.body.take 9 := by
    rw [data, List.take_append]
    rfl
  have header : Begins ibuf (sf.data.take 11) := by
    intro i inside
    have bound : i < sf.data.length := by
      rw [List.length_take] at inside
      omega
    rw [List.length_take] at inside
    rw [sf.logicalFrame_cell (by decide) begins (show i < 24 * s by omega), Nat.mul_zero, Nat.zero_add,
      encode, List.getD_eq_getElem?_getD, List.getElem?_append_left bound,
      List.getElem?_eq_getElem bound, Option.getD_some, List.getElem_take]
  rw [front] at header
  obtain ⟨check, message⟩ := (begins_append _ _ _).mp header
  have read := cells_begins message
  rw [length_crcBytes, cells_shift, List.length_take, Nat.min_eq_left body] at read
  rw [firecrccheck_iff, read]
  simp only [crcBytes, begins_cons, shift_apply, Nat.add_zero] at check ⊢
  rw [check.1, check.2.1]

end Superframe

def frameLengthField (header : List UInt8) : Nat :=
  (header.getD 3 0).toNat % 4 * 2048 + (header.getD 4 0).toNat * 8 + (header.getD 5 0).toNat / 32

theorem frameLengthField_wfadts (sp : StreamParms) {framelen : Nat} (small : framelen + 7 < 8192) :
    frameLengthField (wfadts framelen sp) = framelen + 7 := by
  have high : ∀ x < 4, ∀ y < 4, (UInt8.ofNat (x <<< 6) ||| UInt8.ofNat (0 <<< 5) |||
      UInt8.ofNat (0 <<< 4) ||| UInt8.ofNat (0 <<< 3) ||| UInt8.ofNat (0 <<< 2) |||
      UInt8.ofNat y).toNat % 4 = y := by decide
  have low : ∀ x < 8, (UInt8.ofNat (x <<< 5) ||| UInt8.ofNat (1999 >>> 6)).toNat / 32 = x := by decide
  have length : (variableHeader framelen).frameLength = framelen + 7 := by
    simp only [variableHeader]
    omega
  have mask2 (n : Nat) : n &&& 0x3 = n % 4 := Nat.and_two_pow_sub_one_eq_mod n 2
  have mask3 (n : Nat) : n &&& 0x7 = n % 8 := Nat.and_two_pow_sub_one_eq_mod n 3
  have mask8 (n : Nat) : n &&& 0xff = n % 256 := Nat.and_two_pow_sub_one_eq_mod n 8
  have byte3 : ((wfadts framelen sp).getD 3 0).toNat % 4 = (framelen + 7) / 2048 % 4 := by
    change (UInt8.ofNat ((channelConfig sp &&& 0x3) <<< 6) ||| _ ||| _ ||| _ ||| _ |||
      UInt8.ofNat (((variableHeader framelen).frameLength >>> 11) &&& 0x3)).toNat % 4 = _
    rw [length, mask2, mask2, Nat.shiftRight_eq_div_pow]
    exact high _ (Nat.mod_lt _ (by decide)) _ (Nat.mod_lt _ (by decide))
  have byte4 : ((wfadts framelen sp).getD 4 0).toNat = (framelen + 7) / 8 % 256 := by
    change (UInt8.ofNat (((variableHeader framelen).frameLength >>> 3) &&& 0xff)).toNat = _
    rw [length, mask8, Nat.shiftRight_eq_div_pow, UInt8.toNat_ofNat', Nat.mod_mod]
  have byte5 : ((wfadts framelen sp).getD 5 0).toNat / 32 = (framelen + 7) % 8 := by
    change (UInt8.ofNat (((variableHeader framelen).frameLength &&& 0x7) <<< 5) ||| _).toNat / 32 = _
    rw [length, mask3]
    exact low _ (Nat.mod_lt _ (by decide))
  rw [frameLengthField, byte3, byte4, byte5]
  omega

section Calls

variable {decodeRs : List UInt8 → List UInt8} {ibytes bitrate : Nat} {ibuf m : Nat → UInt8}

theorem wfdabplusdec_first (header : firecrccheck ibuf = true) :
    wfdabplusdec decodeRs ibytes bitrate ibuf ⟨0, m⟩ = some (⟨1, copy m 0 ibuf ibytes⟩, []) := by
  simp [wfdabplusdec, header]

theorem wfdabplusdec_next {k : Nat} (begun : 0 < k) (more : k < 4) :
    wfdabplusdec decodeRs ibytes bitrate ibuf ⟨k, m⟩ =
      some (⟨k + 1, copy m (ibytes * k) ibuf ibytes⟩, []) := by
  simp [wfdabplusdec, begun, show k ≠ 0 by omega, show ¬4 < k + 1 by omega]

theorem decodeFrames_collect {st st' : DabPlusState} (frames : List (Nat → UInt8))
    (call : wfdabplusdec decodeRs ibytes bitrate ibuf st = some (st', [])) :
    decodeFrames decodeRs ibytes bitrate (ibuf :: frames) st =
      decodeFrames decodeRs ibytes bitrate frames st' := by
  rw [decodeFrames, call, Option.bind_some]
  simp

theorem wfdabplusdec_last : wfdabplusdec decodeRs ibytes bitrate ibuf ⟨4, m⟩ =
    (processSuperframe decodeRs (bitrate / 8) (ibytes * 5 - (bitrate / 8 : Nat) * 10)
      (copy m (ibytes * 4) ibuf ibytes)).map fun r => (⟨0, r.1⟩, r.2) := by
  simp [wfdabplusdec]

end Calls

/-- Five logical frames of an encoded superframe are decoded to its payloads, each with a header
that holds its length, and the next superframe can begin. -/
theorem superframe_roundtrip (decodeRs : List UInt8 → List UInt8)
    (unchanged : ∀ message : List UInt8, message.length = 110 →
      decodeRs (message ++ rsParity message) = message ++ rsParity message)
    (s : Nat) (sf : Superframe s) (sfbuf : Nat → UInt8) (ibuf : Nat → Nat → UInt8)
    (frames : ∀ k < 5, Begins (ibuf k) (sf.logicalFrame k)) :
    ∃ st, decodeFrames decodeRs (24 * s) (8 * s) ((List.range 5).map ibuf) ⟨0, sfbuf⟩ =
        some (st, sf.payloads.flatMap fun p => wfadts p.length sf.parms ++ p) ∧ st.frame = 0 ∧
      ∀ p ∈ sf.payloads, (wfadts p.length sf.parms).length = 7 ∧
        (p.length + 7 < 8192 → frameLengthField (wfadts p.length sf.parms) = p.length + 7) := by
  have none : sf.Collected 0 sfbuf := fun a inside => absurd inside (by simp)
  have one : sf.Collected 1 (copy sfbuf 0 (ibuf 0) (24 * s)) :=
    none.next sf (by decide) (frames 0 (by decide))
  have two := one.next sf (by decide) (frames 1 (by decide))
  have three := two.next sf (by decide) (frames 2 (by decide))
  have four := three.next sf (by decide) (frames 3 (by decide))
  have five := four.next sf (by decide) (frames 4 (by decide))
  obtain ⟨m', processed⟩ := sf.process unchanged (five.begins sf)
  have bitrate : 8 * s / 8 = s := by omega
  have size : ((24 * s : Nat) : Int) * 5 - (s : Int) * 10 = (110 * s : Nat) := by omega
  refine ⟨⟨0, m'⟩, ?_, rfl, fun p _ => ⟨rfl, frameLengthField_wfadts _⟩⟩
  change decodeFrames decodeRs (24 * s) (8 * s) [ibuf 0, ibuf 1, ibuf 2, ibuf 3, ibuf 4] _ = _
  rw [decodeFrames_collect _ (wfdabplusdec_first (sf.firecrccheck (frames 0 (by decide)))),
    decodeFrames_collect _ (wfdabplusdec_next (by decide) (by decide)),
    decodeFrames_collect _ (wfdabplusdec_next (by decide) (by decide)),
    decodeFrames_collect _ (wfdabplusdec_next (by decide) (by decide)),
    decodeFrames, wfdabplusdec_last, bitrate, size, processed]
  simp [decodeFrames]

def twoUnits : Superframe 1 where
  rfa := ⟨0, by decide⟩
  dacRate := ⟨0, by decide⟩
  sbrFlag := ⟨1, by decide⟩
  aacChannelMode := ⟨0, by decide⟩
  psFlag := ⟨1, by decide⟩
  payloads := [List.replicate 50 0x21, List.replicate 51 0x42]
  count := rfl
  filled := rfl
  addressable := by decide

theorem superframe_roundtrip_two :
    ∃ st, decodeFrames id (24 * 1) (8 * 1)
        ((List.range 5).map fun k => ofList (twoUnits.logicalFrame k) fun _ => 0) ⟨0, fun _ => 0⟩ =
        some (st, twoUnits.payloads.flatMap fun p => wfadts p.length twoUnits.parms ++ p) ∧
      st.frame = 0 ∧ ∀ p ∈ twoUnits.payloads, (wfadts p.length twoUnits.parms).length = 7 ∧
        (p.length + 7 < 8192 →
          frameLengthField (wfadts p.length twoUnits.parms) = p.length + 7) :=
  superframe_roundtrip id (fun _ _ => rfl) 1 twoUnits (fun _ => 0) _ fun _ _ => begins_ofList _ _

end OpenDab
