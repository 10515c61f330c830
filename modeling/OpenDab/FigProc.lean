import OpenDab.Ensemble
import OpenDab.Tables

/-! The FIG handlers. A `fig` pointer is a view of the FIB buffer from its offset on, so
a handler can read past the end of its FIG as the code does. Reading a table outside its
rows is undefined behaviour and gives `none`; handlers that only fill locals are left
out of the jump tables. -/
namespace OpenDab

open Buffers

def ipack (f : Nat → UInt8) : UInt32 :=
  (f 0).toUInt32 <<< 24 ||| (f 1).toUInt32 <<< 16 ||| (f 2).toUInt32 <<< 8 ||| (f 3).toUInt32

def spack (f : Nat → UInt8) : UInt16 := (f 0).toUInt16 <<< 8 ||| (f 1).toUInt16

/-- The bit-field of `width` bits from bit `offset` on. -/
def bitField (v offset width : Nat) : Nat := v / 2 ^ offset % 2 ^ width

def Mscstau.ofBits (v : Nat) : Mscstau where
  caFlag := Fin.ofNat 2 v
  primary := Fin.ofNat 2 (v / 2)
  subChId := Fin.ofNat 64 (v / 4)
  ascTy := Fin.ofNat 64 (v / 256)
  tmId := Fin.ofNat 4 (v / 16384)

/-- One entry of FIG 0/1 read into the local `s`, with the number of bytes it takes. -/
def fig01Entry (s : Subch) (fig : Nat → UInt8) : Option (Subch × Nat) :=
  let f := (ipack fig).toNat
  let s := { s with
    subchid := bitField f 26 6, startaddr := bitField f 16 10, eepprot := bitField f 15 1 }
  if s.eepprot ≠ 0 then
    let subchsz := bitField f 0 10
    let protlvl := bitField f 12 3 * 4 + bitField f 10 2
    (eeptable[protlvl]?).map fun p =>
      ({ s with
        subchsz := subchsz, protlvl := protlvl
        bitrate := subchsz / p.sizemul * p.ratemul }, 4)
  else
    let tabIndx := bitField f 8 6
    (ueptable[tabIndx]?).map fun p =>
      ({ s with
        subchsz := p.subchsz, protlvl := p.protlvl, bitrate := p.bitrate
        uepIndx := tabIndx }, 3)

/-- `while (j > 0)`; every round takes at least three bytes. -/
def fig01Loop : Nat → Nat → (Nat → UInt8) → Subch → EnsInfo → Option EnsInfo
  | 0, _, _, _, e => some e
  | fuel + 1, j, fig, s, e =>
    if j > 0 then
      (fig01Entry s fig).bind fun r =>
        fig01Loop fuel (j - r.2) (shift fig r.2) r.1 (addSubchannel e r.1)
    else some e

/-- Sub-channel organization; `stack` is what the uninitialised local holds on entry. -/
def fig01 (stack : Subch) (figlen : Nat) (fig : Nat → UInt8) (e : EnsInfo) : Option EnsInfo :=
  fig01Loop figlen figlen fig stack e

def fig02Components (scmp : Nat) (sid : UInt32) (fig : Nat → UInt8) (e : EnsInfo) : EnsInfo :=
  loop scmp (fun k e =>
    let ac := Mscstau.ofBits (spack (shift fig (2 * k))).toNat
    if ac.tmId = 0 then addService e ac sid else e) e

def fig02Loop : Nat → Nat → Nat → (Nat → UInt8) → EnsInfo → EnsInfo
  | 0, _, _, _, e => e
  | fuel + 1, pd, j, fig, e =>
    if j > 0 then
      let sid := if pd ≠ 0 then ipack fig else (spack fig).toUInt32
      let n := if pd ≠ 0 then 4 else 2
      let scmp := bitField (fig n).toNat 0 4
      fig02Loop fuel pd (j - n - 1 - 2 * scmp) (shift fig (n + 1 + 2 * scmp))
        (fig02Components scmp sid (shift fig (n + 1)) e)
    else e

def fig02 (figlen pd : Nat) (fig : Nat → UInt8) (e : EnsInfo) : EnsInfo :=
  fig02Loop figlen pd figlen fig e

def fig00 (fig : Nat → UInt8) (e : EnsInfo) : EnsInfo := { e with eid := spack fig }

def fig10 (fig : Nat → UInt8) (e : EnsInfo) : EnsInfo :=
  { e with label := (List.range 16).map (shift fig 2) ++ [0], eid := spack fig }

/-- The string that `strncpy` takes from the 16 bytes of a label. -/
def labelString (bytes : Nat → UInt8) : List UInt8 :=
  ((List.range 16).map bytes).takeWhile (· ≠ 0)

def fig11 (fig : Nat → UInt8) (e : EnsInfo) : EnsInfo :=
  match findService e (spack fig).toUInt32 with
  | some i => { e with
      srv := e.srv.modify i fun s => { s with label := labelString (shift fig 2) } }
  | none => e

/-- Data service label: the NUL goes to `label[16]` of a struct laid over the FIG. -/
def fig15 (fig : Nat) (mem : Nat → UInt8) : Nat → UInt8 := store mem (fig + 20) 0

structure FigState where
  einf : EnsInfo
  mem : Nat → UInt8

def fig0 (stack : Subch) (figlen fig : Nat) (s : FigState) : Option FigState :=
  let f := (s.mem fig).toNat
  let body := shift s.mem (fig + 1)
  match bitField f 0 5 with
  | 0 => some { s with einf := fig00 body s.einf }
  | 1 => (fig01 stack (figlen - 1) body s.einf).map fun e => { s with einf := e }
  | 2 => some { s with einf := fig02 (figlen - 1) (bitField f 5 1) body s.einf }
  | _ => some s

def fig1 (fig : Nat) (s : FigState) : FigState :=
  let body := shift s.mem (fig + 1)
  match bitField (s.mem fig).toNat 0 3 with
  | 0 => { s with einf := fig10 body s.einf }
  | 1 => { s with einf := fig11 body s.einf }
  | 5 => { s with mem := fig15 (fig + 1) s.mem }
  | _ => s

/-- Dispatch on the FIG type. -/
def unpickfig (stack : Subch) (fig figlen : Nat) (s : FigState) : Option FigState :=
  match bitField (s.mem fig).toNat 5 3 with
  | 0 => fig0 stack figlen (fig + 1) s
  | 1 => some (fig1 (fig + 1) s)
  | _ => some s

/-- The walk over one FIB from offset `j`; `stack` gives the uninitialised local at each FIG. -/
def fibLoop (stack : Nat → Subch) (fib : Nat) : Nat → Nat → FigState → Option FigState
  | 0, _, s => some s
  | fuel + 1, j, s =>
    if j < 30 ∧ s.mem (fib + j) ≠ 0xff then
      let figlen := bitField (s.mem (fib + j)).toNat 0 5
      (unpickfig (stack (fib + j)) (fib + j) figlen s).bind
        (fibLoop stack fib fuel (j + figlen + 1))
    else some s

def processFibs (stack : Nat → Subch) (fibs : Nat) (s : FigState) : Option FigState :=
  (List.range fibs).foldlM (fun s i => fibLoop stack (30 * i) 30 0 s) s

end OpenDab
