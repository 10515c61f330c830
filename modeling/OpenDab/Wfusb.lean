import OpenDab.DspBoot

/-! The vendor requests that the receiver gets. -/
namespace OpenDab

/-- A vendor request. -/
structure ControlMsg where
  request : UInt8
  value : UInt16
  index : UInt16
  bytes : List UInt8
  deriving DecidableEq, Repr

def slmem : UInt8 := 3

def wftune : UInt8 := 4

def wftiming : UInt8 := 5

def wfMemWrite (addr val : UInt16) : ControlMsg :=
  ⟨slmem, addr, val, [lowByte addr, highByte addr, lowByte val, highByte val]⟩

/-- The word for one of the frequency synthesisers, with the count of its bits. -/
def wfTuneMsg (reg : BitVec 32) (bits pll : UInt8) (lband : Bool) : ControlMsg :=
  ⟨wftune, 0, 0, [UInt8.ofBitVec (reg.setWidth 8), UInt8.ofBitVec ((reg >>> 8).setWidth 8),
    UInt8.ofBitVec ((reg >>> 16).setWidth 8), UInt8.ofBitVec ((reg >>> 24).setWidth 8), bits, 0, pll, 0,
    if lband then 1 else 0, 0, 0, 0x10]⟩

def wfTimingMsg (bytes : List UInt8) : ControlMsg := ⟨wftiming, 0, 0, bytes⟩

end OpenDab
