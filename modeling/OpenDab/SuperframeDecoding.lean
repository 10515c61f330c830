import OpenDab.CrcCheck

/-! Decoding of DAB+ audio superframes: five logical frames are collected, corrected column by
column, and cut into access units that go to the output with a header each. The corrector is a
parameter; an access that leaves the buffer or a negative length gives `none`. -/
namespace OpenDab

open Buffers

structure StreamParms where
  rfa : Nat
  dacRate : Nat
  sbrFlag : Nat
  psFlag : Nat
  aacChannelMode : Nat
  mpegSurroundConfig : Nat
  deriving DecidableEq, Repr

structure AdtsFixedHeader where
  home : Nat
  orig : Nat
  channelConfig : Nat
  privateBit : Nat
  samplingFreqIndex : Nat
  profile : Nat
  protectionAbsent : Nat
  layer : Nat
  id : Nat
  syncword : Nat
  deriving DecidableEq, Repr

structure AdtsVariableHeader where
  numRawDataBlksInFrame : Nat
  adtsBufferFullness : Nat
  frameLength : Nat
  copyrightIdStart : Nat
  copyrightIdBit : Nat
  deriving DecidableEq, Repr

/-- 32k, 16k, 48k, 24k. -/
def samptab : List Nat := [0x5, 0x8, 0x3, 0x6]

def channelConfig (sp : StreamParms) : Nat :=
  match sp.mpegSurroundConfig with
  | 1 => 6
  | _ => if sp.sbrFlag ≠ 0 ∧ sp.aacChannelMode = 0 ∧ sp.psFlag ≠ 0 then 2
    else (1 <<< sp.aacChannelMode) % 8

def fixedHeader (sp : StreamParms) : AdtsFixedHeader where
  syncword := 0xfff
  id := 0
  layer := 0
  protectionAbsent := 1
  profile := 0
  samplingFreqIndex := samptab.getD (sp.dacRate <<< 1 ||| sp.sbrFlag) 0
  privateBit := 0
  channelConfig := channelConfig sp
  orig := 0
  home := 0

/-- The frame length includes the header and is 13 bits wide. -/
def variableHeader (framelen : Int) : AdtsVariableHeader where
  copyrightIdBit := 0
  copyrightIdStart := 0
  frameLength := ((framelen + 7) % 8192).toNat
  adtsBufferFullness := 1999
  numRawDataBlksInFrame := 0

def headerBytes (fh : AdtsFixedHeader) (vh : AdtsVariableHeader) : List UInt8 :=
  [UInt8.ofNat (fh.syncword >>> 4),
    UInt8.ofNat ((fh.syncword &&& 0xf) <<< 4) ||| UInt8.ofNat (fh.id <<< 3) |||
      UInt8.ofNat (fh.layer <<< 1) ||| UInt8.ofNat fh.protectionAbsent,
    UInt8.ofNat (fh.profile <<< 6) ||| UInt8.ofNat (fh.samplingFreqIndex <<< 2) |||
      UInt8.ofNat (fh.privateBit <<< 1) ||| UInt8.ofNat (fh.channelConfig &&& 0x4),
    UInt8.ofNat ((fh.channelConfig &&& 0x3) <<< 6) ||| UInt8.ofNat (fh.orig <<< 5) |||
      UInt8.ofNat (fh.home <<< 4) ||| UInt8.ofNat (vh.copyrightIdBit <<< 3) |||
      UInt8.ofNat (vh.copyrightIdStart <<< 2) ||| UInt8.ofNat ((vh.frameLength >>> 11) &&& 0x3),
    UInt8.ofNat ((vh.frameLength >>> 3) &&& 0xff),
    UInt8.ofNat ((vh.frameLength &&& 0x7) <<< 5) ||| UInt8.ofNat (vh.adtsBufferFullness >>> 6),
    UInt8.ofNat ((vh.adtsBufferFullness &&& 0x3f) <<< 2) ||| UInt8.ofNat vh.numRawDataBlksInFrame]

def wfadts (framelen : Int) (sp : StreamParms) : List UInt8 :=
  headerBytes (fixedHeader sp) (variableHeader framelen)

/-- One round of the correction: column `i` goes through the decoder and is written back. -/
def correctColumn (decodeRs : List UInt8 → List UInt8) (s i : Nat) (sfbuf : Nat → UInt8) :
    Nat → UInt8 :=
  let cbuf := decodeRs ((List.range 120).map fun j => sfbuf (s * j + i))
  loop 110 (fun j m => store m (s * j + i) (cbuf.getD j 0)) sfbuf

def correct (decodeRs : List UInt8 → List UInt8) (s : Nat) (sfbuf : Nat → UInt8) : Nat → UInt8 :=
  loop s (correctColumn decodeRs s) sfbuf

def streamParms (b : UInt8) : StreamParms where
  rfa := if b &&& 0x80 ≠ 0 then 1 else 0
  dacRate := if b &&& 0x40 ≠ 0 then 1 else 0
  sbrFlag := if b &&& 0x20 ≠ 0 then 1 else 0
  aacChannelMode := if b &&& 0x10 ≠ 0 then 1 else 0
  psFlag := if b &&& 0x8 ≠ 0 then 1 else 0
  mpegSurroundConfig := (b &&& 0x7).toNat

def austab : List Nat := [4, 2, 6, 3]

/-- A start that begins with byte `k`. -/
def startHigh (sfbuf : Nat → UInt8) (k : Nat) : Nat :=
  ((sfbuf k).toNat <<< 4) + ((sfbuf (k + 1)).toNat >>> 4)

/-- A start that begins in the middle of byte `k`. -/
def startLow (sfbuf : Nat → UInt8) (k : Nat) : Nat :=
  (((sfbuf k).toNat &&& 0x0f) <<< 8) + (sfbuf (k + 1)).toNat

def auStart (sfbuf : Nat → UInt8) : Nat → List Nat
  | 2 => [5, startHigh sfbuf 3]
  | 3 => [6, startHigh sfbuf 3, startLow sfbuf 4]
  | 4 => [8, startHigh sfbuf 3, startLow sfbuf 4, startHigh sfbuf 6]
  | 6 => [11, startHigh sfbuf 3, startLow sfbuf 4, startHigh sfbuf 6, startLow sfbuf 7,
      startHigh sfbuf 9]
  | _ => []

/-- `au_size`: up to the next start, or to the end of the superframe. -/
def auSize (audioSuperFrameSize : Int) : List Nat → List Int
  | [] => []
  | [start] => [audioSuperFrameSize - start]
  | start :: next :: starts => (next - start : Int) :: auSize audioSuperFrameSize (next :: starts)

/-- One access unit: invert its CRC, and write it out if the CRC is good. -/
def accessUnit (sp : StreamParms) (sfbuf : Nat → UInt8) (start : Nat) (size : Int) :
    Option ((Nat → UInt8) × List UInt8) :=
  if size < 0 ∨ start + size < 2 then none
  else
    let len := size.toNat
    let first := start + len - 2
    let sfbuf := store sfbuf first (sfbuf first ^^^ 0xff)
    let sfbuf := store sfbuf (first + 1) (sfbuf (first + 1) ^^^ 0xff)
    if crccheck (shift sfbuf start) len then
      if len < 2 then none else some (sfbuf, wfadts (size - 2) sp ++ cells sfbuf start (len - 2))
    else some (sfbuf, [])

def accessUnits (sp : StreamParms) : List (Nat × Int) → (Nat → UInt8) →
    Option ((Nat → UInt8) × List UInt8)
  | [], sfbuf => some (sfbuf, [])
  | (start, size) :: units, sfbuf =>
    (accessUnit sp sfbuf start size).bind fun r =>
      (accessUnits sp units r.1).map fun r' => (r'.1, r.2 ++ r'.2)

def processSuperframe (decodeRs : List UInt8 → List UInt8) (s : Nat) (audioSuperFrameSize : Int)
    (sfbuf : Nat → UInt8) : Option ((Nat → UInt8) × List UInt8) :=
  let sfbuf := correct decodeRs s sfbuf
  let sp := streamParms (sfbuf 2)
  let starts := auStart sfbuf (austab.getD (sp.dacRate <<< 1 ||| sp.sbrFlag) 0)
  accessUnits sp (starts.zip (auSize audioSuperFrameSize starts)) sfbuf

structure DabPlusState where
  frame : Nat
  sfbuf : Nat → UInt8

def wfdabplusdec (decodeRs : List UInt8 → List UInt8) (ibytes bitrate : Nat) (ibuf : Nat → UInt8)
    (st : DabPlusState) : Option (DabPlusState × List UInt8) :=
  let s := bitrate / 8
  let st :=
    if st.frame = 0 ∧ firecrccheck ibuf then ⟨1, copy st.sfbuf 0 ibuf ibytes⟩
    else if st.frame > 0 then ⟨st.frame + 1, copy st.sfbuf (ibytes * st.frame) ibuf ibytes⟩
    else st
  if st.frame > 4 then
    (processSuperframe decodeRs s (ibytes * 5 - s * 10) st.sfbuf).map fun r => (⟨0, r.1⟩, r.2)
  else some (st, [])

def decodeFrames (decodeRs : List UInt8 → List UInt8) (ibytes bitrate : Nat) :
    List (Nat → UInt8) → DabPlusState → Option (DabPlusState × List UInt8)
  | [], st => some (st, [])
  | ibuf :: frames, st =>
    (wfdabplusdec decodeRs ibytes bitrate ibuf st).bind fun r =>
      (decodeFrames decodeRs ibytes bitrate frames r.1).map fun r' => (r'.1, r.2 ++ r'.2)

end OpenDab
