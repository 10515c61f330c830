import OpenDab.Library.BitFields
import OpenDab.SuperframeDecoding

/-! The header in front of each access unit, read as ISO/IEC 14496-3 lays it out. The fields come
out as they were computed, but a channel configuration of 4 or more loses its top bit to the
sampling index. -/
namespace OpenDab

open BitFields Division

def adtsLayout : List Nat := [12, 1, 2, 1, 2, 4, 1, 3, 1, 1, 1, 1, 13, 11, 2]

def parseAdts (header : List UInt8) : Option (AdtsFixedHeader × AdtsVariableHeader) :=
  match read adtsLayout (byteBits header) with
  | [syncword, id, layer, protectionAbsent, profile, samplingFreqIndex, privateBit, channelConfig,
      orig, home, copyrightIdBit, copyrightIdStart, frameLength, adtsBufferFullness,
      numRawDataBlksInFrame] =>
    some (
      { home, orig, channelConfig, privateBit, samplingFreqIndex, profile, protectionAbsent, layer, id,
        syncword },
      { numRawDataBlksInFrame, adtsBufferFullness, frameLength, copyrightIdStart, copyrightIdBit })
  | _ => none

def adtsFields (fh : AdtsFixedHeader) (vh : AdtsVariableHeader) : List Nat :=
  [fh.syncword, fh.id, fh.layer, fh.protectionAbsent, fh.profile, fh.samplingFreqIndex, fh.privateBit,
    fh.channelConfig, fh.orig, fh.home, vh.copyrightIdBit, vh.copyrightIdStart, vh.frameLength,
    vh.adtsBufferFullness, vh.numRawDataBlksInFrame]

theorem parseAdts_of_read {header : List UInt8} {fh : AdtsFixedHeader} {vh : AdtsVariableHeader}
    (fields : read adtsLayout (byteBits header) = adtsFields fh vh) :
    parseAdts header = some (fh, vh) := by
  rw [parseAdts, fields]
  rfl

/-- The flags are bits and the surround configuration is three bits wide. -/
structure StreamParms.InRange (sp : StreamParms) : Prop where
  dacRate : sp.dacRate ≤ 1
  sbrFlag : sp.sbrFlag ≤ 1
  psFlag : sp.psFlag ≤ 1
  aacChannelMode : sp.aacChannelMode ≤ 1
  mpegSurroundConfig : sp.mpegSurroundConfig ≤ 7

/-- Reading the header gives the fields that were computed for it, with the length of the whole
frame. -/
structure AdtsCarries (framelen : Int) (sp : StreamParms) : Prop where
  fields : parseAdts (wfadts framelen sp) = some (fixedHeader sp, variableHeader framelen)
  length : ((variableHeader framelen).frameLength : Int) = framelen + 7

theorem StreamParms.InRange.index {sp : StreamParms} (range : sp.InRange) :
    (fixedHeader sp).samplingFreqIndex < 16 := by
  have table : ∀ i < 2, ∀ j < 2, samptab.getD (i <<< 1 ||| j) 0 < 16 := by decide
  exact table _ (Nat.lt_succ_of_le range.dacRate) _ (Nat.lt_succ_of_le range.sbrFlag)

theorem StreamParms.InRange.config {sp : StreamParms} (range : sp.InRange)
    (plain : sp.mpegSurroundConfig ≠ 1) : (fixedHeader sp).channelConfig < 4 := by
  have modes : ∀ m < 2, (1 <<< m) % 8 < 4 := by decide
  have mode := modes _ (Nat.lt_succ_of_le range.aacChannelMode)
  change channelConfig sp < 4
  unfold channelConfig
  split
  · next surround => exact absurd surround plain
  · split
    · decide
    · exact mode

/-- Bytes 2 to 5, bit by bit: the bytes that depend on the parameters. -/
theorem byte2_bits : ∀ index < 16, ∀ config < 4,
    msbFirst (UInt8.ofNat (0 <<< 6) ||| UInt8.ofNat (index <<< 2) ||| UInt8.ofNat (0 <<< 1) |||
      UInt8.ofNat (config &&& 0x4)).toBitVec =
    bits 2 0 ++ bits 4 index ++ bits 1 0 ++ bits 1 (config / 2 ^ 2) := by
  decide +kernel

theorem byte3_bits : ∀ config < 4, ∀ length < 4,
    msbFirst (UInt8.ofNat ((config &&& 0x3) <<< 6) ||| UInt8.ofNat (0 <<< 5) |||
      UInt8.ofNat (0 <<< 4) ||| UInt8.ofNat (0 <<< 3) ||| UInt8.ofNat (0 <<< 2) |||
      UInt8.ofNat length).toBitVec =
    bits 2 config ++ bits 1 0 ++ bits 1 0 ++ bits 1 0 ++ bits 1 0 ++ bits 2 length := by
  decide +kernel

theorem byte4_bits : ∀ length < 256, msbFirst (UInt8.ofNat length).toBitVec = bits 8 length := by
  decide +kernel

theorem byte5_bits : ∀ length < 8,
    msbFirst (UInt8.ofNat (length <<< 5) ||| UInt8.ofNat (1999 >>> 6)).toBitVec =
    bits 3 length ++ bits 5 (1999 / 2 ^ 6) := by
  decide +kernel

def adtsBits (index config length : Nat) : List Bool :=
  (msbFirst (UInt8.ofNat (0xfff >>> 4)).toBitVec ++
    msbFirst (UInt8.ofNat ((0xfff &&& 0xf) <<< 4) ||| UInt8.ofNat (0 <<< 3) ||| UInt8.ofNat (0 <<< 1) |||
      UInt8.ofNat 1).toBitVec) ++
  msbFirst (UInt8.ofNat (0 <<< 6) ||| UInt8.ofNat (index <<< 2) ||| UInt8.ofNat (0 <<< 1) |||
    UInt8.ofNat (config &&& 0x4)).toBitVec ++
  msbFirst (UInt8.ofNat ((config &&& 0x3) <<< 6) ||| UInt8.ofNat (0 <<< 5) |||
    UInt8.ofNat (0 <<< 4) ||| UInt8.ofNat (0 <<< 3) ||| UInt8.ofNat (0 <<< 2) |||
    UInt8.ofNat ((length >>> 11) &&& 0x3)).toBitVec ++
  msbFirst (UInt8.ofNat ((length >>> 3) &&& 0xff)).toBitVec ++
  (msbFirst (UInt8.ofNat ((length &&& 0x7) <<< 5) ||| UInt8.ofNat (1999 >>> 6)).toBitVec ++
    msbFirst (UInt8.ofNat ((1999 &&& 0x3f) <<< 2) ||| UInt8.ofNat 0).toBitVec)

theorem byteBits_wfadts (framelen : Int) (sp : StreamParms) : byteBits (wfadts framelen sp) =
    adtsBits (fixedHeader sp).samplingFreqIndex (fixedHeader sp).channelConfig
      (variableHeader framelen).frameLength := by
  simp only [byteBits, wfadts, headerBytes, List.flatMap_cons, List.flatMap_nil, List.append_nil,
    adtsBits, List.append_assoc]
  rfl

/-- With a small channel configuration the bytes hold the fields one behind the other. -/
theorem adtsBits_write {index config : Nat} (small : index < 16) (plain : config < 4) (length : Nat) :
    adtsBits index config length = write (adtsLayout.zip
      [0xfff, 0, 0, 1, 0, index, 0, config, 0, 0, 0, 0, length, 1999, 0]) := by
  have low (n : Nat) : n &&& 0x7 = n % 2 ^ 3 := Nat.and_two_pow_sub_one_eq_mod n 3
  have middle (n : Nat) : n &&& 0xff = n % 2 ^ 8 := Nat.and_two_pow_sub_one_eq_mod n 8
  have high (n : Nat) : n &&& 0x3 = n % 2 ^ 2 := Nat.and_two_pow_sub_one_eq_mod n 2
  have front : msbFirst (UInt8.ofNat (0xfff >>> 4)).toBitVec ++
      msbFirst (UInt8.ofNat ((0xfff &&& 0xf) <<< 4) ||| UInt8.ofNat (0 <<< 3) ||| UInt8.ofNat (0 <<< 1) |||
        UInt8.ofNat 1).toBitVec = bits 12 0xfff ++ bits 1 0 ++ bits 2 0 ++ bits 1 1 := by
    decide
  have last : msbFirst (UInt8.ofNat ((1999 &&& 0x3f) <<< 2) ||| UInt8.ofNat 0).toBitVec =
      bits 6 1999 ++ bits 2 0 := by
    decide
  have channels : bits 3 config = bits 1 (config / 2 ^ 2) ++ bits 2 config := bits_add 1 2 config
  have frame : bits 13 length =
      bits 2 (length / 2 ^ 11 % 2 ^ 2) ++ (bits 8 (length / 2 ^ 3 % 2 ^ 8) ++ bits 3 (length % 2 ^ 3)) := by
    rw [bits_mod, bits_mod, bits_mod, ← bits_add 8 3]
    exact bits_add 2 11 length
  have fullness : bits 11 1999 = bits 5 (1999 / 2 ^ 6) ++ bits 6 1999 := bits_add 5 6 1999
  rw [adtsBits, front, last, byte2_bits _ small _ plain, Nat.shiftRight_eq_div_pow,
    Nat.shiftRight_eq_div_pow, high (length / 2 ^ 11), middle, low,
    byte3_bits _ plain (length / 2 ^ 11 % 2 ^ 2) (Nat.mod_lt _ (by decide)),
    byte4_bits (length / 2 ^ 3 % 2 ^ 8) (Nat.mod_lt _ (by decide)),
    byte5_bits (length % 2 ^ 3) (Nat.mod_lt _ (by decide))]
  simp only [write, adtsLayout, List.zip_cons_cons, List.flatMap_cons, List.zip_nil_left,
    List.flatMap_nil, channels, frame, fullness, List.append_assoc, List.append_nil]

theorem read_adtsBits {index config length : Nat} (small : index < 16) (plain : config < 4)
    (short : length < 8192) : read adtsLayout (adtsBits index config length) =
      [0xfff, 0, 0, 1, 0, index, 0, config, 0, 0, 0, 0, length, 1999, 0] := by
  rw [adtsBits_write small plain]
  refine read_write (adtsLayout.zip
    [0xfff, 0, 0, 1, 0, index, 0, config, 0, 0, 0, 0, length, 1999, 0]) fun f member => ?_
  simp only [adtsLayout, List.zip_cons_cons, List.zip_nil_left, List.mem_cons, List.not_mem_nil,
    or_false] at member
  rcases member with rfl | rfl | rfl | rfl | rfl | rfl | rfl | rfl | rfl | rfl | rfl | rfl | rfl |
    rfl | rfl <;> dsimp only <;> omega

/-- The top bit of channel configuration 6 goes to the sampling index. -/
theorem adtsBits_surround {index : Nat} (small : index < 16) (length : Nat) :
    adtsBits index 6 length = adtsBits (index ||| 1) 2 length := by
  have byte2 : ∀ index < 16, UInt8.ofNat (0 <<< 6) ||| UInt8.ofNat (index <<< 2) |||
      UInt8.ofNat (0 <<< 1) ||| UInt8.ofNat (6 &&& 0x4) =
      UInt8.ofNat (0 <<< 6) ||| UInt8.ofNat ((index ||| 1) <<< 2) |||
      UInt8.ofNat (0 <<< 1) ||| UInt8.ofNat (2 &&& 0x4) := by decide
  rw [adtsBits, byte2 index small]
  rfl

/-- The header carries the parameters unless they ask for MPEG Surround configuration 1 (or the
length of the frame is negative). -/
theorem adts_carries_iff (framelen : Int) (sp : StreamParms) (range : sp.InRange)
    (short : framelen + 7 < 8192) :
    AdtsCarries framelen sp ↔ sp.mpegSurroundConfig ≠ 1 ∧ 0 ≤ framelen + 7 := by
  have length : ((variableHeader framelen).frameLength : Int) = (framelen + 7) % 8192 :=
    Int.toNat_of_nonneg (Int.emod_nonneg _ (by decide))
  have wrapped : (variableHeader framelen).frameLength < 8192 := by omega
  constructor
  · intro carries
    refine ⟨fun surround => ?_, by have := carries.length; omega⟩
    have six : (fixedHeader sp).channelConfig = 6 := by
      change channelConfig sp = 6
      unfold channelConfig
      rw [surround]
      rfl
    have two : (parseAdts (wfadts framelen sp)).map (·.1.channelConfig) = some 2 := by
      rw [parseAdts, byteBits_wfadts, six, adtsBits_surround range.index,
        read_adtsBits (Nat.or_lt_two_pow (n := 4) range.index (by decide)) (by decide) wrapped]
      rfl
    rw [carries.fields, Option.map_some, six] at two
    exact absurd two (by decide)
  · rintro ⟨plain, positive⟩
    refine ⟨parseAdts_of_read ?_, by omega⟩
    rw [byteBits_wfadts, read_adtsBits range.index (range.config plain) wrapped]
    rfl

theorem adts_carries_iff_mono : AdtsCarries 100 ⟨0, 1, 0, 0, 0, 0⟩ :=
  (adts_carries_iff 100 ⟨0, 1, 0, 0, 0, 0⟩ ⟨by decide, by decide, by decide, by decide, by decide⟩
    (by decide)).mpr ⟨by decide, by decide⟩

/-- With SBR and MPEG Surround, sampling index 6 and channel configuration 6 come out as 7 and 2. -/
theorem surround_header_differs :
    (⟨0, 1, 1, 0, 0, 1⟩ : StreamParms).InRange ∧ ¬AdtsCarries 100 ⟨0, 1, 1, 0, 0, 1⟩ := by
  refine ⟨⟨by decide, by decide, by decide, by decide, by decide⟩, fun carries => ?_⟩
  exact absurd carries.fields (by decide)

end OpenDab
