import OpenDab.CrcCheck
import Mathlib.Data.List.Induction
import Mathlib.Logic.Function.Iterate

/-! The format of a DAB+ audio superframe: a parameter byte and the starts of the access units,
each unit with its CRC behind it, the Fire code of the header in front, and Reed-Solomon parity
for each column. -/
namespace OpenDab

open Division

/-- Multiplication by x in GF(2^8), modulo 0x11d. -/
def gfDouble (a : UInt8) : UInt8 := (a <<< 1) ^^^ if a &&& 0x80 ≠ 0 then 0x1d else 0

def gfMul (a b : UInt8) : UInt8 :=
  (List.range 8).foldl (fun sum k => if b.toNat.testBit k then sum ^^^ gfDouble^[k] a else sum) 0

/-- The generator polynomial with the first ten powers of x as its roots, constant term first. -/
def rsGenerator : List UInt8 :=
  (List.range 10).foldl (fun g i => List.zipWith (· ^^^ ·) (0 :: g)
    (g.map (gfMul (gfDouble^[i] 1)) ++ [0])) [1]

def rsShift (remainder : List UInt8) (byte : UInt8) : List UInt8 :=
  List.zipWith (· ^^^ ·) (remainder.drop 1 ++ [0])
    ((rsGenerator.take 10).reverse.map (gfMul (remainder.headD 0 ^^^ byte)))

def rsParity (message : List UInt8) : List UInt8 := message.foldl rsShift (List.replicate 10 0)

/-- Starts of 12 bits each, filled up with four zero bits to a whole byte. -/
def pack12 : List Nat → List UInt8
  | [] => []
  | [a] => [UInt8.ofNat (a / 16), UInt8.ofNat (a % 16 * 16)]
  | a :: b :: rest =>
    UInt8.ofNat (a / 16) :: UInt8.ofNat (a % 16 * 16 + b / 256) :: UInt8.ofNat (b % 256) :: pack12 rest

def unitCount : Fin 2 → Fin 2 → Nat
  | 0, 0 => 4
  | 0, 1 => 2
  | 1, 0 => 6
  | 1, 1 => 3

def headerLength (units : Nat) : Nat := 3 + (12 * (units - 1) + 7) / 8

def unit (payload : List UInt8) : List UInt8 :=
  payload ++ crcBytes (~~~divide ccittPoly (BitVec.allOnes 16) (byteBits payload))

def unitStarts (start : Nat) : List (List UInt8) → List Nat
  | [] => []
  | payload :: payloads => start :: unitStarts (start + (payload.length + 2)) payloads

/-- The content of a superframe for a sub-channel of `8 * s` kbit/s. -/
structure Superframe (s : Nat) where
  rfa : Fin 2
  dacRate : Fin 2
  sbrFlag : Fin 2
  aacChannelMode : Fin 2
  psFlag : Fin 2
  payloads : List (List UInt8)
  count : payloads.length = unitCount dacRate sbrFlag
  filled : headerLength payloads.length + (payloads.map fun p => p.length + 2).sum = 110 * s
  addressable : ∀ start ∈ unitStarts (headerLength payloads.length) payloads, start < 4096

variable {s : Nat}

def Superframe.parameters (sf : Superframe s) : UInt8 :=
  UInt8.ofNat (sf.rfa * 128 + sf.dacRate * 64 + sf.sbrFlag * 32 + sf.aacChannelMode * 16 + sf.psFlag * 8)

def Superframe.body (sf : Superframe s) : List UInt8 :=
  sf.parameters :: pack12 (unitStarts (headerLength sf.payloads.length) sf.payloads).tail ++
    sf.payloads.flatMap unit

def Superframe.data (sf : Superframe s) : List UInt8 :=
  crcBytes (divide firePoly 0#16 (byteBits (sf.body.take 9))) ++ sf.body

def Superframe.column (sf : Superframe s) (i : Nat) : List UInt8 :=
  (List.range 110).map fun j => sf.data.getD (s * j + i) 0

/-- The data and, row by row, the parity of the columns. -/
def Superframe.encode (sf : Superframe s) : List UInt8 :=
  sf.data ++ (List.range (10 * s)).map fun a => (rsParity (sf.column (a % s))).getD (a / s) 0

def Superframe.logicalFrame (sf : Superframe s) (k : Nat) : List UInt8 :=
  (sf.encode.drop (24 * s * k)).take (24 * s)

@[simp] theorem length_crcBytes (crc : BitVec 16) : (crcBytes crc).length = 2 := rfl

@[simp] theorem length_unit (payload : List UInt8) : (unit payload).length = payload.length + 2 := by
  simp [unit]

theorem length_pack12 (starts : List Nat) : (pack12 starts).length = (12 * starts.length + 7) / 8 := by
  induction starts using pack12.induct with
  | case1 => rfl
  | case2 a => simp [pack12]
  | case3 a b rest ih =>
    simp only [pack12, List.length_cons, ih]
    omega

theorem length_unitStarts (start : Nat) (payloads : List (List UInt8)) :
    (unitStarts start payloads).length = payloads.length := by
  induction payloads generalizing start with
  | nil => rfl
  | cons payload payloads ih => simp [unitStarts, ih]

theorem Superframe.length_data (sf : Superframe s) : sf.data.length = 110 * s := by
  have units : (sf.payloads.flatMap unit).length = (sf.payloads.map fun p => p.length + 2).sum := by
    simp [List.length_flatMap]
  have filled := sf.filled
  rw [headerLength] at filled
  simp only [data, body, List.length_append, length_crcBytes, List.length_cons, length_pack12,
    List.length_tail, length_unitStarts, units]
  omega

theorem length_rsShift {remainder : List UInt8} (ten : remainder.length = 10) (byte : UInt8) :
    (rsShift remainder byte).length = 10 := by
  have generator : rsGenerator.length = 11 := by decide +kernel
  simp [rsShift, ten, generator]

theorem length_rsParity (message : List UInt8) : (rsParity message).length = 10 := by
  unfold rsParity
  induction message using List.reverseRecOn with
  | nil => rfl
  | append_singleton message byte ih =>
    rw [List.foldl_append]
    exact length_rsShift ih byte

theorem Superframe.length_encode (sf : Superframe s) : sf.encode.length = 120 * s := by
  simp only [encode, List.length_append, length_data, List.length_map, List.length_range]
  omega

end OpenDab
