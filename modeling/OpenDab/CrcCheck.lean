import OpenDab.Library.Buffers
import OpenDab.Library.Division

/-! The table-driven checks of an access unit, of audio side information and of a superframe
header. Their tables hold the remainders of the bytes, so the loops divide by the generator
polynomials. -/
namespace OpenDab

open Buffers Division

/-- `crctab`, for x^16 + x^12 + x^5 + 1. -/
def crctab : List UInt16 := [
  0x0000, 0x1021, 0x2042, 0x3063, 0x4084, 0x50a5, 0x60c6, 0x70e7,
  0x8108, 0x9129, 0xa14a, 0xb16b, 0xc18c, 0xd1ad, 0xe1ce, 0xf1ef,
  0x1231, 0x0210, 0x3273, 0x2252, 0x52b5, 0x4294, 0x72f7, 0x62d6,
  0x9339, 0x8318, 0xb37b, 0xa35a, 0xd3bd, 0xc39c, 0xf3ff, 0xe3de,
  0x2462, 0x3443, 0x0420, 0x1401, 0x64e6, 0x74c7, 0x44a4, 0x5485,
  0xa56a, 0xb54b, 0x8528, 0x9509, 0xe5ee, 0xf5cf, 0xc5ac, 0xd58d,
  0x3653, 0x2672, 0x1611, 0x0630, 0x76d7, 0x66f6, 0x5695, 0x46b4,
  0xb75b, 0xa77a, 0x9719, 0x8738, 0xf7df, 0xe7fe, 0xd79d, 0xc7bc,
  0x48c4, 0x58e5, 0x6886, 0x78a7, 0x0840, 0x1861, 0x2802, 0x3823,
  0xc9cc, 0xd9ed, 0xe98e, 0xf9af, 0x8948, 0x9969, 0xa90a, 0xb92b,
  0x5af5, 0x4ad4, 0x7ab7, 0x6a96, 0x1a71, 0x0a50, 0x3a33, 0x2a12,
  0xdbfd, 0xcbdc, 0xfbbf, 0xeb9e, 0x9b79, 0x8b58, 0xbb3b, 0xab1a,
  0x6ca6, 0x7c87, 0x4ce4, 0x5cc5, 0x2c22, 0x3c03, 0x0c60, 0x1c41,
  0xedae, 0xfd8f, 0xcdec, 0xddcd, 0xad2a, 0xbd0b, 0x8d68, 0x9d49,
  0x7e97, 0x6eb6, 0x5ed5, 0x4ef4, 0x3e13, 0x2e32, 0x1e51, 0x0e70,
  0xff9f, 0xefbe, 0xdfdd, 0xcffc, 0xbf1b, 0xaf3a, 0x9f59, 0x8f78,
  0x9188, 0x81a9, 0xb1ca, 0xa1eb, 0xd10c, 0xc12d, 0xf14e, 0xe16f,
  0x1080, 0x00a1, 0x30c2, 0x20e3, 0x5004, 0x4025, 0x7046, 0x6067,
  0x83b9, 0x9398, 0xa3fb, 0xb3da, 0xc33d, 0xd31c, 0xe37f, 0xf35e,
  0x02b1, 0x1290, 0x22f3, 0x32d2, 0x4235, 0x5214, 0x6277, 0x7256,
  0xb5ea, 0xa5cb, 0x95a8, 0x8589, 0xf56e, 0xe54f, 0xd52c, 0xc50d,
  0x34e2, 0x24c3, 0x14a0, 0x0481, 0x7466, 0x6447, 0x5424, 0x4405,
  0xa7db, 0xb7fa, 0x8799, 0x97b8, 0xe75f, 0xf77e, 0xc71d, 0xd73c,
  0x26d3, 0x36f2, 0x0691, 0x16b0, 0x6657, 0x7676, 0x4615, 0x5634,
  0xd94c, 0xc96d, 0xf90e, 0xe92f, 0x99c8, 0x89e9, 0xb98a, 0xa9ab,
  0x5844, 0x4865, 0x7806, 0x6827, 0x18c0, 0x08e1, 0x3882, 0x28a3,
  0xcb7d, 0xdb5c, 0xeb3f, 0xfb1e, 0x8bf9, 0x9bd8, 0xabbb, 0xbb9a,
  0x4a75, 0x5a54, 0x6a37, 0x7a16, 0x0af1, 0x1ad0, 0x2ab3, 0x3a92,
  0xfd2e, 0xed0f, 0xdd6c, 0xcd4d, 0xbdaa, 0xad8b, 0x9de8, 0x8dc9,
  0x7c26, 0x6c07, 0x5c64, 0x4c45, 0x3ca2, 0x2c83, 0x1ce0, 0x0cc1,
  0xef1f, 0xff3e, 0xcf5d, 0xdf7c, 0xaf9b, 0xbfba, 0x8fd9, 0x9ff8,
  0x6e17, 0x7e36, 0x4e55, 0x5e74, 0x2e93, 0x3eb2, 0x0ed1, 0x1ef0]

/-- `crc16tab`, for x^16 + x^15 + x^2 + 1. -/
def crc16tab : List UInt16 := [
  0x0000, 0x8005, 0x800f, 0x000a, 0x801b, 0x001e, 0x0014, 0x8011,
  0x8033, 0x0036, 0x003c, 0x8039, 0x0028, 0x802d, 0x8027, 0x0022,
  0x8063, 0x0066, 0x006c, 0x8069, 0x0078, 0x807d, 0x8077, 0x0072,
  0x0050, 0x8055, 0x805f, 0x005a, 0x804b, 0x004e, 0x0044, 0x8041,
  0x80c3, 0x00c6, 0x00cc, 0x80c9, 0x00d8, 0x80dd, 0x80d7, 0x00d2,
  0x00f0, 0x80f5, 0x80ff, 0x00fa, 0x80eb, 0x00ee, 0x00e4, 0x80e1,
  0x00a0, 0x80a5, 0x80af, 0x00aa, 0x80bb, 0x00be, 0x00b4, 0x80b1,
  0x8093, 0x0096, 0x009c, 0x8099, 0x0088, 0x808d, 0x8087, 0x0082,
  0x8183, 0x0186, 0x018c, 0x8189, 0x0198, 0x819d, 0x8197, 0x0192,
  0x01b0, 0x81b5, 0x81bf, 0x01ba, 0x81ab, 0x01ae, 0x01a4, 0x81a1,
  0x01e0, 0x81e5, 0x81ef, 0x01ea, 0x81fb, 0x01fe, 0x01f4, 0x81f1,
  0x81d3, 0x01d6, 0x01dc, 0x81d9, 0x01c8, 0x81cd, 0x81c7, 0x01c2,
  0x0140, 0x8145, 0x814f, 0x014a, 0x815b, 0x015e, 0x0154, 0x8151,
  0x8173, 0x0176, 0x017c, 0x8179, 0x0168, 0x816d, 0x8167, 0x0162,
  0x8123, 0x0126, 0x012c, 0x8129, 0x0138, 0x813d, 0x8137, 0x0132,
  0x0110, 0x8115, 0x811f, 0x011a, 0x810b, 0x010e, 0x0104, 0x8101,
  0x8303, 0x0306, 0x030c, 0x8309, 0x0318, 0x831d, 0x8317, 0x0312,
  0x0330, 0x8335, 0x833f, 0x033a, 0x832b, 0x032e, 0x0324, 0x8321,
  0x0360, 0x8365, 0x836f, 0x036a, 0x837b, 0x037e, 0x0374, 0x8371,
  0x8353, 0x0356, 0x035c, 0x8359, 0x0348, 0x834d, 0x8347, 0x0342,
  0x03c0, 0x83c5, 0x83cf, 0x03ca, 0x83db, 0x03de, 0x03d4, 0x83d1,
  0x83f3, 0x03f6, 0x03fc, 0x83f9, 0x03e8, 0x83ed, 0x83e7, 0x03e2,
  0x83a3, 0x03a6, 0x03ac, 0x83a9, 0x03b8, 0x83bd, 0x83b7, 0x03b2,
  0x0390, 0x8395, 0x839f, 0x039a, 0x838b, 0x038e, 0x0384, 0x8381,
  0x0280, 0x8285, 0x828f, 0x028a, 0x829b, 0x029e, 0x0294, 0x8291,
  0x82b3, 0x02b6, 0x02bc, 0x82b9, 0x02a8, 0x82ad, 0x82a7, 0x02a2,
  0x82e3, 0x02e6, 0x02ec, 0x82e9, 0x02f8, 0x82fd, 0x82f7, 0x02f2,
  0x02d0, 0x82d5, 0x82df, 0x02da, 0x82cb, 0x02ce, 0x02c4, 0x82c1,
  0x8243, 0x0246, 0x024c, 0x8249, 0x0258, 0x825d, 0x8257, 0x0252,
  0x0270, 0x8275, 0x827f, 0x027a, 0x826b, 0x026e, 0x0264, 0x8261,
  0x0220, 0x8225, 0x822f, 0x022a, 0x823b, 0x023e, 0x0234, 0x8231,
  0x8213, 0x0216, 0x021c, 0x8219, 0x0208, 0x820d, 0x8207, 0x0202]

/-- `ftab`, for (x^11 + 1)(x^5 + x^3 + x^2 + x + 1). -/
def ftab : List UInt16 := [
  0x0000, 0x782f, 0xf05e, 0x8871, 0x9893, 0xe0bc, 0x68cd, 0x10e2,
  0x4909, 0x3126, 0xb957, 0xc178, 0xd19a, 0xa9b5, 0x21c4, 0x59eb,
  0x9212, 0xea3d, 0x624c, 0x1a63, 0x0a81, 0x72ae, 0xfadf, 0x82f0,
  0xdb1b, 0xa334, 0x2b45, 0x536a, 0x4388, 0x3ba7, 0xb3d6, 0xcbf9,
  0x5c0b, 0x2424, 0xac55, 0xd47a, 0xc498, 0xbcb7, 0x34c6, 0x4ce9,
  0x1502, 0x6d2d, 0xe55c, 0x9d73, 0x8d91, 0xf5be, 0x7dcf, 0x05e0,
  0xce19, 0xb636, 0x3e47, 0x4668, 0x568a, 0x2ea5, 0xa6d4, 0xdefb,
  0x8710, 0xff3f, 0x774e, 0x0f61, 0x1f83, 0x67ac, 0xefdd, 0x97f2,
  0xb816, 0xc039, 0x4848, 0x3067, 0x2085, 0x58aa, 0xd0db, 0xa8f4,
  0xf11f, 0x8930, 0x0141, 0x796e, 0x698c, 0x11a3, 0x99d2, 0xe1fd,
  0x2a04, 0x522b, 0xda5a, 0xa275, 0xb297, 0xcab8, 0x42c9, 0x3ae6,
  0x630d, 0x1b22, 0x9353, 0xeb7c, 0xfb9e, 0x83b1, 0x0bc0, 0x73ef,
  0xe41d, 0x9c32, 0x1443, 0x6c6c, 0x7c8e, 0x04a1, 0x8cd0, 0xf4ff,
  0xad14, 0xd53b, 0x5d4a, 0x2565, 0x3587, 0x4da8, 0xc5d9, 0xbdf6,
  0x760f, 0x0e20, 0x8651, 0xfe7e, 0xee9c, 0x96b3, 0x1ec2, 0x66ed,
  0x3f06, 0x4729, 0xcf58, 0xb777, 0xa795, 0xdfba, 0x57cb, 0x2fe4,
  0x0803, 0x702c, 0xf85d, 0x8072, 0x9090, 0xe8bf, 0x60ce, 0x18e1,
  0x410a, 0x3925, 0xb154, 0xc97b, 0xd999, 0xa1b6, 0x29c7, 0x51e8,
  0x9a11, 0xe23e, 0x6a4f, 0x1260, 0x0282, 0x7aad, 0xf2dc, 0x8af3,
  0xd318, 0xab37, 0x2346, 0x5b69, 0x4b8b, 0x33a4, 0xbbd5, 0xc3fa,
  0x5408, 0x2c27, 0xa456, 0xdc79, 0xcc9b, 0xb4b4, 0x3cc5, 0x44ea,
  0x1d01, 0x652e, 0xed5f, 0x9570, 0x8592, 0xfdbd, 0x75cc, 0x0de3,
  0xc61a, 0xbe35, 0x3644, 0x4e6b, 0x5e89, 0x26a6, 0xaed7, 0xd6f8,
  0x8f13, 0xf73c, 0x7f4d, 0x0762, 0x1780, 0x6faf, 0xe7de, 0x9ff1,
  0xb015, 0xc83a, 0x404b, 0x3864, 0x2886, 0x50a9, 0xd8d8, 0xa0f7,
  0xf91c, 0x8133, 0x0942, 0x716d, 0x618f, 0x19a0, 0x91d1, 0xe9fe,
  0x2207, 0x5a28, 0xd259, 0xaa76, 0xba94, 0xc2bb, 0x4aca, 0x32e5,
  0x6b0e, 0x1321, 0x9b50, 0xe37f, 0xf39d, 0x8bb2, 0x03c3, 0x7bec,
  0xec1e, 0x9431, 0x1c40, 0x646f, 0x748d, 0x0ca2, 0x84d3, 0xfcfc,
  0xa517, 0xdd38, 0x5549, 0x2d66, 0x3d84, 0x45ab, 0xcdda, 0xb5f5,
  0x7e0c, 0x0623, 0x8e52, 0xf67d, 0xe69f, 0x9eb0, 0x16c1, 0x6eee,
  0x3705, 0x4f2a, 0xc75b, 0xbf74, 0xaf96, 0xd7b9, 0x5fc8, 0x27e7]

/-- `crc = (crc << 8) ^ tab[((crc >> 8) ^ byte) & 0xff]`. -/
def crcStep (tab : List UInt16) (crc : UInt16) (byte : UInt8) : UInt16 :=
  (crc <<< 8) ^^^ tab.getD (((crc >>> 8) ^^^ byte.toUInt16) &&& 0xff).toNat 0

def crcLoop (tab : List UInt16) (crc : UInt16) (buf : Nat → UInt8) (len : Nat) : UInt16 :=
  loop len (fun i crc => crcStep tab crc (buf i)) crc

def crccheck (buf : Nat → UInt8) (len : Nat) : Bool := crcLoop crctab 0xffff buf len == 0

def crc16check (buf : Nat → UInt8) (len : Nat) : Bool := crcLoop crc16tab 0xffff buf len == 0

def firecrccheck (buf : Nat → UInt8) : Bool :=
  let crc := crcLoop ftab 0 (shift buf 2) 9
  (crc >>> 8) &&& 0xff == (buf 0).toUInt16 && crc &&& 0xff == (buf 1).toUInt16

def ccittPoly : BitVec 16 := 0x1021

def crc16Poly : BitVec 16 := 0x8005

def firePoly : BitVec 16 := 0x782f

def Remainders (poly : BitVec 16) (tab : List UInt16) : Prop :=
  ∀ i < 256, (tab.getD i 0).toBitVec = divide poly 0#16 (msbFirst (BitVec.ofNat 8 i))

def byteRemainder (poly i : Nat) : Nat :=
  ((List.range 8).map fun k => i.testBit (7 - k)).foldl (shiftInNat 16 poly) 0

theorem remainders_of_map {poly : BitVec 16} {tab : List UInt16}
    (table : tab.map UInt16.toNat = (List.range 256).map (byteRemainder poly.toNat)) :
    Remainders poly tab := by
  intro i small
  have bits : msbFirst (BitVec.ofNat 8 i) = (List.range 8).map fun k => i.testBit (7 - k) := by
    refine List.map_congr_left fun k member => ?_
    have inside := List.mem_range.mp member
    simp [BitVec.getMsbD_eq_getLsbD, BitVec.getLsbD_ofNat, -BitVec.getLsbD_eq_getElem, inside,
      show 7 - k < 8 by omega]
  have entry := congrArg (·[i]?) table
  simp only [List.getElem?_map, List.getElem?_range small, Option.map_some] at entry
  obtain ⟨v, found, same⟩ := Option.map_eq_some_iff.mp entry
  rw [← BitVec.toNat_inj, divide_toNat, bits, List.getD_eq_getElem?_getD, found]
  exact same

theorem crctab_remainders : Remainders ccittPoly crctab :=
  remainders_of_map (by decide +kernel)

theorem crc16tab_remainders : Remainders crc16Poly crc16tab :=
  remainders_of_map (by decide +kernel)

theorem ftab_remainders : Remainders firePoly ftab :=
  remainders_of_map (by decide +kernel)

def byteBits (message : List UInt8) : List Bool := message.flatMap fun b => msbFirst b.toBitVec

theorem getMsbD_high (crc : BitVec 16) {i : Nat} (inside : i < 8) :
    (crc.extractLsb' 8 8).getMsbD i = crc.getMsbD i := by
  have place : 8 + (8 - 1 - i) = 16 - 1 - i := by omega
  simp [BitVec.getMsbD_eq_getLsbD, place, inside, show i < 16 by omega, show 8 - 1 - i < 8 by omega]

theorem getMsbD_low (crc : BitVec 16) {i : Nat} (inside : i < 8) :
    (crc.extractLsb' 0 8).getMsbD i = crc.getMsbD (8 + i) := by
  have place : 16 - 1 - (8 + i) = 8 - 1 - i := by omega
  simp [BitVec.getMsbD_eq_getLsbD, place, inside, show 8 + i < 16 by omega,
    show 8 - 1 - i < 8 by omega]

theorem mask_bit {i : Nat} (inside : i < 8) : (255#8)[i] = true := by
  change (BitVec.allOnes 8)[i] = true
  rw [BitVec.getElem_allOnes]

/-- Looking up the remainder of one byte is dividing by its eight bits. -/
theorem crcStep_divide {poly : BitVec 16} {tab : List UInt16} (remainders : Remainders poly tab)
    (crc : UInt16) (byte : UInt8) :
    (crcStep tab crc byte).toBitVec = divide poly crc.toBitVec (msbFirst byte.toBitVec) := by
  have index : BitVec.ofNat 8 (((crc >>> 8) ^^^ byte.toUInt16) &&& 0xff).toNat =
      crc.toBitVec.extractLsb' 8 8 ^^^ byte.toBitVec := by
    rw [← UInt16.toNat_toBitVec, BitVec.ofNat_toNat]
    apply BitVec.eq_of_getLsbD_eq
    intro i inside
    simp [inside, mask_bit inside]
  have small : (((crc >>> 8) ^^^ byte.toUInt16) &&& 0xff).toNat < 256 := by
    rw [UInt16.toNat_and]
    exact Nat.lt_of_le_of_lt Nat.and_le_right (by decide)
  rw [divide_block poly crc.toBitVec byte.toBitVec fun i inside => getMsbD_high _ inside, ← index,
    ← remainders _ small]
  rfl

theorem crcLoop_cells (tab : List UInt16) (crc : UInt16) (buf : Nat → UInt8) (len : Nat) :
    crcLoop tab crc buf len = (cells buf 0 len).foldl (crcStep tab) crc := by
  unfold crcLoop
  induction len with
  | zero => rfl
  | succ len ih =>
    rw [loop_succ, ih, cells_add, List.foldl_append, Nat.zero_add]
    rfl

/-- The loop over a message is division by the generator polynomial. -/
theorem crcLoop_divide {poly : BitVec 16} {tab : List UInt16} (remainders : Remainders poly tab)
    (crc : UInt16) (buf : Nat → UInt8) (len : Nat) :
    (crcLoop tab crc buf len).toBitVec = divide poly crc.toBitVec (byteBits (cells buf 0 len)) := by
  rw [crcLoop_cells]
  generalize cells buf 0 len = message
  induction message generalizing crc with
  | nil => rfl
  | cons byte message ih =>
    rw [List.foldl_cons, ih, crcStep_divide remainders, ← divide_append]
    rfl

theorem length_byteBits (message : List UInt8) : (byteBits message).length = 8 * message.length := by
  induction message with
  | nil => rfl
  | cons byte message ih =>
    rw [byteBits, List.flatMap_cons, List.length_append, length_msbFirst, List.length_cons]
    have rest : (message.flatMap fun b => msbFirst b.toBitVec).length = _ := ih
    omega

theorem byteBits_injective {l l' : List UInt8} (same : byteBits l = byteBits l') : l = l' := by
  induction l generalizing l' with
  | nil =>
    cases l' with
    | nil => rfl
    | cons b l' => simpa [length_byteBits] using congrArg List.length same
  | cons b l ih =>
    cases l' with
    | nil => simpa [length_byteBits] using congrArg List.length same
    | cons b' l' =>
      obtain ⟨first, rest⟩ := List.append_inj same (by rw [length_msbFirst, length_msbFirst])
      rw [UInt8.toBitVec_inj.mp (msbFirst_injective first), ih rest]

theorem byteBits_append (front back : List UInt8) :
    byteBits (front ++ back) = byteBits front ++ byteBits back := List.flatMap_append

def crcBytes (crc : BitVec 16) : List UInt8 :=
  [UInt8.ofBitVec (crc.extractLsb' 8 8), UInt8.ofBitVec (crc.extractLsb' 0 8)]

theorem byteBits_crcBytes (crc : BitVec 16) : byteBits (crcBytes crc) = msbFirst crc := by
  have high : msbFirst (crc.extractLsb' 8 8) = (List.range 8).map crc.getMsbD :=
    List.map_congr_left fun i member => getMsbD_high crc (List.mem_range.mp member)
  have low : msbFirst (crc.extractLsb' 0 8) = (List.range 8).map fun i => crc.getMsbD (8 + i) :=
    List.map_congr_left fun i member => getMsbD_low crc (List.mem_range.mp member)
  have split : List.range 16 = List.range 8 ++ (List.range 8).map (8 + ·) := rfl
  rw [byteBits, crcBytes, List.flatMap_cons, List.flatMap_singleton, high, low, msbFirst, split,
    List.map_append, List.map_map]
  rfl

/-- A message with its remainder behind it leaves 0. -/
theorem crcLoop_appended {poly : BitVec 16} {tab : List UInt16} (remainders : Remainders poly tab)
    {buf : Nat → UInt8} {message : List UInt8} {len : Nat} (carries : cells buf 0 len =
      message ++ crcBytes (divide poly (BitVec.allOnes 16) (byteBits message))) :
    (crcLoop tab 0xffff buf len == 0) = true := by
  have remainder := crcLoop_divide remainders 0xffff buf len
  have ones : (0xffff : UInt16).toBitVec = BitVec.allOnes 16 := rfl
  rw [carries, byteBits_append, divide_append, ones, byteBits_crcBytes, divide_self] at remainder
  rw [beq_iff_eq, ← UInt16.toBitVec_inj, remainder]
  rfl

theorem crccheck_appended {buf : Nat → UInt8} {message : List UInt8} {len : Nat}
    (carries : cells buf 0 len =
      message ++ crcBytes (divide ccittPoly (BitVec.allOnes 16) (byteBits message))) :
    crccheck buf len = true := crcLoop_appended crctab_remainders carries

/-- A header is accepted exactly when bytes 0 and 1 are the remainder of bytes 2 to 10. -/
theorem firecrccheck_iff (buf : Nat → UInt8) : firecrccheck buf = true ↔
    [buf 0, buf 1] = crcBytes (divide firePoly 0#16 (byteBits (cells buf 2 9))) := by
  have crc := crcLoop_divide ftab_remainders 0 (shift buf 2) 9
  have bytes : cells (shift buf 2) 0 9 = cells buf 2 9 := by rw [cells_shift]
  rw [bytes] at crc
  have zero : (0 : UInt16).toBitVec = 0#16 := rfl
  rw [zero] at crc
  rw [← crc, firecrccheck, crcBytes, Bool.and_eq_true, beq_iff_eq, beq_iff_eq]
  generalize crcLoop ftab 0 (shift buf 2) 9 = value
  have low (n : Nat) : n &&& 255 = n % 256 := Nat.and_two_pow_sub_one_eq_mod n 8
  simp only [List.cons.injEq, and_true, ← UInt16.toNat_inj, ← UInt8.toNat_inj]
  simp [low, eq_comm]

end OpenDab
