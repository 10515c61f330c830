import OpenDab.FigCalls

/-! The wire format of FIGs 0/1, 0/2 and 1/1 and what they mean for a directory of the
ensemble: the first description of each sub-channel and the roster of services. -/
namespace OpenDab

open Buffers Roster

def bigEndian (n v : Nat) : List UInt8 :=
  (List.range n).map fun i => UInt8.ofNat (v / 256 ^ (n - 1 - i))

inductive Descriptor where
  | long (subChId : Fin 64) (startAddr : Fin 1024) (opt : Fin 2) (protLvl : Fin 4)
      (subChSz : Fin 1024)
  | short (subChId : Fin 64) (startAddr : Fin 1024) (tableSw : Fin 2) (tabIndx : Fin 64)

def Descriptor.encode : Descriptor → List UInt8
  | .long subChId startAddr opt protLvl subChSz =>
    bigEndian 4 (subChId * 2 ^ 26 + startAddr * 2 ^ 16 + 2 ^ 15 + opt * 2 ^ 12 + protLvl * 2 ^ 10 +
      subChSz)
  | .short subChId startAddr tableSw tabIndx =>
    bigEndian 3 (subChId * 2 ^ 18 + startAddr * 2 ^ 8 + tableSw * 2 ^ 6 + tabIndx)

def Descriptor.id : Descriptor → Nat
  | .long subChId .. => subChId
  | .short subChId .. => subChId

def Descriptor.subch : Descriptor → Subch
  | .long subChId startAddr opt protLvl subChSz =>
    let p := eeptable[opt.val * 4 + protLvl]?.getD ⟨1, 0, [], []⟩
    ⟨subChId, startAddr, subChSz, subChSz / p.sizemul * p.ratemul, 1, opt * 4 + protLvl, 0, 0⟩
  | .short subChId startAddr _ tabIndx =>
    let p := ueptable[tabIndx.val]?.getD ⟨0, 0, 0, [], [], 0⟩
    ⟨subChId, startAddr, p.subchsz, p.bitrate, 0, p.protlvl, tabIndx, 0⟩

/-- One service of FIG 0/2, with a 16-bit identifier unless `pd` is set. -/
structure ServiceEntry (pd : Fin 2) where
  sid : UInt32
  localFlag : Fin 2
  caId : Fin 8
  components : List Mscstau
  short : pd = 0 → sid.toNat < 2 ^ 16
  few : components.length ≤ 15

def Mscstau.bits (c : Mscstau) : Nat :=
  c.tmId * 2 ^ 14 + c.ascTy * 2 ^ 8 + c.subChId * 2 ^ 2 + c.primary * 2 + c.caFlag

def ServiceEntry.encode (s : ServiceEntry pd) : List UInt8 :=
  bigEndian (if pd = 0 then 2 else 4) s.sid.toNat ++
    UInt8.ofNat (s.localFlag * 2 ^ 7 + s.caId * 2 ^ 4 + s.components.length) ::
    s.components.flatMap fun c => bigEndian 2 c.bits

inductive Fig where
  | organization (cn oe pd : Fin 2) (entries : List Descriptor)
  | services (cn oe pd : Fin 2) (entries : List (ServiceEntry pd))
  | label (charset : Fin 16) (oe : Fin 2) (sid : UInt16) (text : Vector UInt8 16)
      (nonempty : text[0] ≠ 0) (chflag : UInt16)

def Fig.type : Fig → Nat
  | .organization .. => 0
  | .services .. => 0
  | .label .. => 1

def Fig.body : Fig → List UInt8
  | .organization cn oe pd entries =>
    UInt8.ofNat (cn * 2 ^ 7 + oe * 2 ^ 6 + pd * 2 ^ 5 + 1) :: entries.flatMap Descriptor.encode
  | .services cn oe pd entries =>
    UInt8.ofNat (cn * 2 ^ 7 + oe * 2 ^ 6 + pd * 2 ^ 5 + 2) :: entries.flatMap ServiceEntry.encode
  | .label charset oe sid text _ chflag =>
    UInt8.ofNat (charset * 2 ^ 4 + oe * 2 ^ 3 + 1) ::
      (bigEndian 2 sid.toNat ++ text.toList ++ bigEndian 2 chflag.toNat)

def Fig.encode (f : Fig) : List UInt8 := UInt8.ofNat (f.type * 2 ^ 5 + f.body.length) :: f.body

/-- The sub-channels described so far and the services in order of first appearance. -/
structure Directory where
  channel : Nat → Option Subch
  services : List Service

def Directory.describe (D : Directory) (d : Descriptor) : Directory :=
  if D.channel d.id = none then { D with channel := store D.channel d.id (some d.subch) } else D

/-- The first primary and the first secondary component of a service count. -/
def Service.join (s : Service) (c : Mscstau) : Service :=
  if c.primary = 1 then { s with pa := s.pa.or (some c.subChId) }
  else { s with sa := s.sa.or (some c.subChId) }

/-- A streamed audio component makes its service known. -/
def Directory.announce (sid : UInt32) (D : Directory) (c : Mscstau) : Directory :=
  if c.tmId = 0 then
    { D with services := amend Service.sid sid (Service.fresh sid) (fun s => s.join c) D.services }
  else D

def Directory.name (D : Directory) (sid : UInt16) (text : Vector UInt8 16) : Directory :=
  let relabel := fun s : Service => { s with label := text.toList.takeWhile (· ≠ 0) }
  { D with services := revise Service.sid sid.toUInt32 relabel D.services }

def Directory.apply (D : Directory) : Fig → Directory
  | .organization _ _ _ entries => entries.foldl Directory.describe D
  | .services _ _ _ entries => entries.foldl (fun D s => s.components.foldl (announce s.sid) D) D
  | .label _ _ sid text _ _ => D.name sid text

def Subch.described (s : Subch) : Subch :=
  { s with dabplus := 0, uepIndx := if s.eepprot ≠ 0 then 0 else s.uepIndx }

def directory (e : EnsInfo) : Directory where
  channel id := if (e.schan id).subchid > 64 then none else some (e.schan id).described
  services := e.srv

end OpenDab
