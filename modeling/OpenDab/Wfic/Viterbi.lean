import OpenDab.Library.Bitmap
import OpenDab.Wfic.Bits

/-! The convolutional encoder and the Viterbi decoder. `unsigned long` has the width of
the target; path metrics are exact integers. The table of metrics comes from floating
point and is a parameter. -/
namespace OpenDab

open Buffers Bitmap

def partab : List UInt8 := [
  0, 1, 1, 0, 1, 0, 0, 1, 1, 0, 0, 1, 0, 1, 1, 0, 1, 0, 0, 1, 0, 1, 1, 0, 0, 1, 1, 0, 1, 0, 0, 1,
  1, 0, 0, 1, 0, 1, 1, 0, 0, 1, 1, 0, 1, 0, 0, 1, 0, 1, 1, 0, 1, 0, 0, 1, 1, 0, 0, 1, 0, 1, 1, 0,
  1, 0, 0, 1, 0, 1, 1, 0, 0, 1, 1, 0, 1, 0, 0, 1, 0, 1, 1, 0, 1, 0, 0, 1, 1, 0, 0, 1, 0, 1, 1, 0,
  0, 1, 1, 0, 1, 0, 0, 1, 1, 0, 0, 1, 0, 1, 1, 0, 1, 0, 0, 1, 0, 1, 1, 0, 0, 1, 1, 0, 1, 0, 0, 1,
  1, 0, 0, 1, 0, 1, 1, 0, 0, 1, 1, 0, 1, 0, 0, 1, 0, 1, 1, 0, 1, 0, 0, 1, 1, 0, 0, 1, 0, 1, 1, 0,
  0, 1, 1, 0, 1, 0, 0, 1, 1, 0, 0, 1, 0, 1, 1, 0, 1, 0, 0, 1, 0, 1, 1, 0, 0, 1, 1, 0, 1, 0, 0, 1,
  0, 1, 1, 0, 1, 0, 0, 1, 1, 0, 0, 1, 0, 1, 1, 0, 1, 0, 0, 1, 0, 1, 1, 0, 0, 1, 1, 0, 1, 0, 0, 1,
  1, 0, 0, 1, 0, 1, 1, 0, 0, 1, 1, 0, 1, 0, 0, 1, 0, 1, 1, 0, 1, 0, 0, 1, 1, 0, 0, 1, 0, 1, 1, 0]

def parity (x : Nat) : UInt8 :=
  let x := x ^^^ (x >>> 16)
  let x := x ^^^ (x >>> 8)
  partab.getD (x &&& 0xff) 0

/-- `Poly47`, the rate 1/4 code of constraint length 7. -/
def polys (j : Nat) : Nat := [0x6d, 0x4f, 0x53, 0x6d].getD j 0

structure Encoder where
  encstate : UInt32
  symbols : Nat → UInt8
  written : Nat

def Encoder.push (bit : UInt32) (e : Encoder) : Encoder :=
  let encstate := e.encstate <<< 1 ||| bit
  loop 4 (fun j e =>
    { e with
      symbols := store e.symbols e.written (parity (encstate.toNat &&& polys j))
      written := e.written + 1 }) { e with encstate := encstate }

/-- Convolutionally encode data into binary symbols; the tail flushes `endstate` out. -/
def encode (symbols data : Nat → UInt8) (nbytes : Nat) (startstate endstate : UInt32) :
    Nat → UInt8 :=
  let e : Encoder := ⟨startstate, symbols, 0⟩
  let e := loop nbytes (fun k =>
    loop 8 fun r => Encoder.push (bitAt (data k) (7 - r)).toUInt32) e
  (loop 6 (fun r => Encoder.push ((endstate >>> UInt32.ofNat (5 - r)) &&& 1)) e).symbols

/-- The targets told apart by the preprocessor: x86_64 and alpha, other 64-bit processors, and
32-bit processors. -/
inductive Target where
  | x86_64
  | lp64
  | ilp32
  deriving DecidableEq, Repr

def Target.width : Target → Nat
  | .x86_64 => 64
  | .lp64 => 64
  | .ilp32 => 32

def Target.longbits : Target → Nat
  | .x86_64 => 64
  | .lp64 => 32
  | .ilp32 => 32

def Target.loglongbits : Target → Nat
  | .x86_64 => 6
  | .lp64 => 5
  | .ilp32 => 5

/-- `D`, the words kept for each trellis step. -/
def Target.d (T : Target) : Nat := 1 <<< (7 - T.loglongbits - 1)

def syms (i : Nat) : Nat := loop 4 (fun j sym => sym * 2 + (parity (i &&& polys j)).toNat) 0

def mets (mettab : Nat → Nat → Int) (symbols : Nat → UInt8) (i : Nat) : Int :=
  loop 4 (fun j sum => sum + mettab ((i >>> (4 - j - 1)) &&& 1) (symbols j).toNat) 0

structure Acs (w : Nat) where
  nmetric : Nat → Int
  paths : Array (BitVec w)
  pp : Nat
  mask : BitVec w

/-- Keep the larger metric of a state; the second one sets its decision bit. -/
def Acs.select (i : Nat) (m0 m1 : Int) (bit : BitVec w) (a : Acs w) : Acs w :=
  let a := { a with nmetric := store a.nmetric i m0 }
  if m1 > m0 then
    { a with nmetric := store a.nmetric i m1, paths := mark a.paths a.pp bit }
  else a

/-- One round for the states `i` and `i + 1`, which share their predecessors. -/
def Acs.butterfly (mets cmetric : Nat → Int) (k : Nat) (a : Acs w) : Acs w :=
  let i := 2 * k
  let b1 := mets (syms i)
  let m0 := cmetric (i / 2) + b1
  let b2 := mets (syms (i + 1))
  let difference := b1 - b2
  let m1 := cmetric (i / 2 + 2 ^ 5) + b2
  let a := a.select i m0 m1 a.mask
  let a := a.select (i + 1) (m0 - difference) (m1 + difference) (a.mask <<< 1)
  let a := { a with mask := a.mask <<< 2 }
  if a.mask = 0 then { a with mask := 1, pp := a.pp + 1 } else a

structure Paths (w : Nat) where
  cmetric : Nat → Int
  paths : Array (BitVec w)
  pp : Nat

def Paths.advance (mettab : Nat → Nat → Int) (symbols : Nat → UInt8) (t : Nat) (v : Paths w) :
    Paths w :=
  let mets := mets mettab (shift symbols (4 * t))
  let a := loop 32 (Acs.butterfly mets v.cmetric) ⟨v.cmetric, v.paths, v.pp, 1⟩
  ⟨a.nmetric, a.paths, if a.mask ≠ 1 then a.pp + 1 else a.pp⟩

/-- Chain back from the terminal state; reading outside `paths` gives `none`. -/
def chainBack (T : Target) (paths : Array (BitVec T.width)) :
    Nat → Nat → Nat → (Nat → UInt8) → Option (Nat → UInt8)
  | 0, _, _, data => some data
  | i + 1, pp, endstate, data =>
    if T.d ≤ pp then
      let pp := pp - T.d
      paths[pp + endstate >>> T.loglongbits]?.bind fun word =>
        if word &&& 1#T.width <<< (endstate &&& (T.longbits - 1)) ≠ 0 then
          chainBack T paths i pp ((endstate ||| 1 <<< 6) >>> 1) (store data i 1)
        else chainBack T paths i pp (endstate >>> 1) data
    else none

structure Decoded where
  metric : Nat
  data : Nat → UInt8

def kViterbi (T : Target) (data symbols : Nat → UInt8) (nbits : Nat) (mettab : Nat → Nat → Int)
    (startstate endstate : Nat) : Option Decoded :=
  let startstate := startstate / 2 ^ 6 * 2 ^ 6
  let endstate := endstate / 2 ^ 6 * 2 ^ 6
  let cmetric := store (fun _ => -999999) startstate 0
  let paths := Array.replicate ((nbits + 6) * T.d) (0 : BitVec T.width)
  let v := loop (nbits + 6) (Paths.advance mettab symbols) ⟨cmetric, paths, 0⟩
  let data := fun i => if i < nbits then 0 else data i
  (chainBack T v.paths nbits v.pp endstate data).map fun data =>
    ⟨(v.cmetric endstate % 2 ^ 32).toNat, data⟩

/-- Soft symbols: 0 gives 127, 1 gives 129 and an erasure gives 128. -/
def softSymbol (b : UInt8) : UInt8 := if b = 1 then 128 + 1 else if b = 0 then 128 - 1 else 128

def viterbi (T : Target) (mettab : Nat → Nat → Int) (ibuf : Nat → UInt8) (ilen : Nat)
    (obuf : Nat → UInt8) : Option ((Nat → UInt8) × Nat) :=
  let bits := ilen / 4 - (7 - 1)
  let symbols := fun i => softSymbol (ibuf i)
  (kViterbi T obuf symbols bits mettab 0 0).map fun r => (r.data, bits)

end OpenDab
