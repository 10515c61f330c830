import OpenDab.Library.Buffers

/-! Multiplex geometry and the sub-channel records shared by the FIC and MSC decoders. -/
namespace OpenDab

/-- Number of CUs in a symbol. -/
def cuspersym : Nat := 48

def mscstart : Nat := 5

def symspercif : Nat := 18

def bitspercu : Nat := 8 * 8

def bitspersym : Nat := cuspersym * 8 * 8

/-- Sub-channel data. `uepIndx` and `dabplus` are signed because `fig_0_1` can copy
uninitialised stack words into them; the other fields are always assigned first. -/
structure Subch where
  subchid : Nat
  startaddr : Nat
  subchsz : Nat
  bitrate : Nat
  eepprot : Nat
  protlvl : Nat
  uepIndx : Int
  dabplus : Int
  deriving DecidableEq, Repr

structure Symrange where
  start : Nat → Nat
  end_ : Nat → Nat
  startcu : Nat
  endcu : Nat
  numsyms : Nat

end OpenDab
