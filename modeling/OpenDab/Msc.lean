import OpenDab.Symsel
import OpenDab.Library.Ring
import OpenDab.Wfic.Bits
import OpenDab.Wfic.Interleaver

/-! The circular buffer of logical frames, the time de-interleaver and the
assembly of MSC symbols. Statics of the source are fields of an explicit state;
`msc_decode` is the event that its caller raises. -/
namespace OpenDab

open Buffers

/-- `struct blist`; `next` holds the index of the node it points to. -/
structure Blist where
  data : Nat → UInt8
  syms : Nat
  index : Nat
  next : Nat

/-- The file-level `cb` and `head` together with the statics of `wcbuf`. -/
structure Cbuf where
  cb : Nat → Blist
  head : Nat
  lfp : Nat
  lframe : Nat
  first : Bool
  full : Bool

/-- The allocated `data` keeps whatever the memory held before. -/
def initCbuf (s : Cbuf) : Cbuf :=
  { s with cb := loop 16 (fun i cb =>
      store cb i { cb i with next := (i + 1) % 16, syms := 0, index := i }) s.cb }

def Cbuf.setup (s : Cbuf) : Cbuf :=
  if s.first then { initCbuf s with lframe := 0, lfp := 0, first := false, head := 0 } else s

def Cbuf.advance (sr : Symrange) (s : Cbuf) : Cbuf :=
  if (s.cb s.lframe).syms = sr.numsyms then
    let lfp := (s.cb s.lframe).next
    let lframe := (s.cb lfp).index
    { s with
      head := (s.head + 1) % 16, lfp := lfp, lframe := lframe
      cb := store s.cb lframe { s.cb lframe with syms := 0 } }
  else s

/-- Append one symbol to the current logical frame; the flag is `full && frame_complete`. -/
def Cbuf.append (symdata : Nat → UInt8) (len : Nat) (sr : Symrange) (s : Cbuf) : Cbuf × Bool :=
  let b := s.cb s.lframe
  let r := if b.syms < sr.numsyms then
      let b := { b with data := copy b.data (b.syms * bitspersym) symdata len, syms := b.syms + 1 }
      ({ s with cb := store s.cb s.lframe b }, b.syms == sr.numsyms)
    else (s, false)
  let s := if r.1.lframe = 15 then { r.1 with full := true } else r.1
  (s, s.full && r.2)

def wcbuf (symdata : Nat → UInt8) (len : Nat) (sr : Symrange) (reset : Bool) (s : Cbuf) :
    Cbuf × Bool :=
  if reset then
    ({ s with
        lframe := 0, lfp := 0, head := 0, full := false
        cb := loop 16 (fun i cb => store cb i { cb i with syms := 0 }) s.cb }, false)
  else Cbuf.append symdata len sr (s.setup.advance sr)

def freqDeinterleave (obuf cbuf : Nat → UInt8) : Nat → UInt8 :=
  let bits := byteToBit 0 cbuf 384 (fun _ => 0)
  let dbuf := bitswap16 bits.1 (fun _ => 0) bits.2
  let bbuf := frequencyDeinterleaver dbuf bits.1
  qpskSymbolDemapper bbuf obuf

/-- The time interleaving delays, by bit position modulo 16. -/
def timeMap : Nat → Nat := fun i => [0, 8, 4, 12, 2, 10, 6, 14, 1, 9, 5, 13, 3, 11, 7, 15].getD i 0

def timeDisinterleave (obuf : Nat → UInt8) (subchsz : Nat) (sr : Symrange) (s : Cbuf) :
    Nat → UInt8 :=
  loop (subchsz * bitspercu) (fun i obuf =>
    let cif := timeMap (i % 16)
    store obuf i ((s.cb ((s.head + cif) % 16)).data (bitspercu * sr.startcu + i))) obuf

abbrev SymbolBits := Fin 3072 → UInt8

def symbolBits (fbuf : Nat → UInt8) : SymbolBits := fun b => fbuf b

/-- What one packet made `msc_assemble` do: reset or insert through `wcbuf`, and call `msc_decode`. -/
inductive MscEvent where
  | reset
  | insert (slot place : Nat) (symbol : SymbolBits)
  | decode

structure MscState where
  cbuf : Cbuf
  curFrame : Nat
  cifcnt : Nat

structure Assembly extends MscState where
  bufferFull : Bool
  events : List MscEvent

def Assembly.reset (sr : Symrange) (a : Assembly) : Assembly :=
  { a with
    cbuf := (wcbuf (fun _ => 0) 0 sr true a.cbuf).1
    events := a.events ++ [.reset] }

/-- De-interleave the symbol after the 12-byte header and write it to the buffer. -/
def Assembly.insert (symbuf : Nat → UInt8) (sr : Symrange) (a : Assembly) : Assembly :=
  let fbuf := freqDeinterleave (fun _ => 0) (shift symbuf 12)
  let r := wcbuf fbuf bitspersym sr false a.cbuf
  { a with
    cbuf := r.1
    bufferFull := r.2
    events := a.events ++
      [.insert r.1.lframe ((r.1.cb r.1.lframe).syms - 1) (symbolBits fbuf)] }

/-- Copy the symbols of the selected sub-channel to the circular buffer and finish
processing once it is full. -/
def mscAssemble (symbuf : Nat → UInt8) (sr : Symrange) (s : MscState) :
    MscState × List MscEvent :=
  let sym := (symbuf 2).toNat
  let frame := (symbuf 3).toNat
  let a : Assembly := ⟨s, false, []⟩
  let a := if sym = sr.start 0 then
      Assembly.insert symbuf sr { a with curFrame := frame }
    else
      let a := loop 3 (fun i a =>
        let j := i + 1
        if sym = sr.start j then
          if frame ≠ a.curFrame then a.reset sr else a.insert symbuf sr
        else a) a
      loop 4 (fun j a =>
        if sym > sr.start j ∧ sym ≤ sr.end_ j then
          if frame ≠ a.curFrame then a.reset sr
          else
            let a := a.insert symbuf sr
            if sym = sr.end_ j then { a with cifcnt := (a.cifcnt + 1) % 2 ^ 32 } else a
        else a) a
  (a.toMscState, if a.bufferFull then a.events ++ [.decode] else a.events)

end OpenDab
