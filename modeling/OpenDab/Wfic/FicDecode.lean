import OpenDab.Wfic.Erasure
import OpenDab.Wfic.Fib
import OpenDab.Wfic.Puncture
import OpenDab.Wfic.Symbol

/-! The decoder of the FIC and the transmitter that it undoes. Three symbols carry four
punctured blocks, and every block carries three FIBs. -/
namespace OpenDab

open Buffers Puncturing

/-- What the static buffers hold at the call; all of them are filled before they are read. -/
structure FicBuffers where
  datab : Nat → Nat → UInt8
  datac : Nat → Nat → UInt8
  datad : Nat → Nat → UInt8
  datae : Nat → Nat → UInt8
  data9216 : Nat → UInt8
  ficA : Nat → Nat → UInt8
  ficB : Nat → Nat → UInt8
  ficC : Nat → Nat → UInt8
  ficD : Nat → Nat → UInt8
  fibA : Nat → Nat → UInt8
  fibB : Nat → Nat → UInt8

/-- Symbol `n`, counted from symbol 2, down to demapped bits. -/
def demapSymbol (old : FicBuffers) (n : Nat) (sym : Nat → UInt8) : Nat → UInt8 :=
  let b := byteToBit 0 sym 384 (old.datab n)
  let c := bitswap16 b.1 (old.datac n) b.2
  let d := frequencyDeinterleaver c (old.datad n)
  qpskSymbolDemapper d (old.datae n)

def mergeSymbols (data2e data3e data4e data9216 : Nat → UInt8) : Nat → UInt8 :=
  loop 3072 (fun i m =>
    store (store (store m i (data2e i)) (3072 + i) (data3e i)) (6144 + i) (data4e i)) data9216

def splitBlock (data9216 : Nat → UInt8) (q : Nat) (ficA : Nat → UInt8) : Nat → UInt8 :=
  loop 2304 (fun i m => store m i (data9216 (2304 * q + i))) ficA

def decodeBlock (T : Target) (mettab : Nat → Nat → Int) (old : FicBuffers) (q : Nat)
    (ficA : Nat → UInt8) : Option (Nat → UInt8) :=
  let b := depuncture ficA (old.ficB q)
  (viterbi T mettab b.1 b.2 (old.ficC q)).map fun c => scramble c.1 (old.ficD q) c.2

def splitFib (ficD : Nat → Nat → UInt8) (n : Nat) (fibA : Nat → UInt8) : Nat → UInt8 :=
  loop 256 (fun i m => store m i (ficD (n / 3) (256 * (n % 3) + i))) fibA

structure OkFibs where
  obuf : Nat → UInt8
  optr : Nat
  okfibs : Nat

/-- Store the first 30 bytes of a FIB unless its CRC is wrong. -/
def OkFibs.take (fibA fibB : Nat → UInt8) (s : OkFibs) : OkFibs :=
  let err := crc16 fibA 256 1
  let b := bitToByte 1 fibA 256 fibB
  if err = 0 then ⟨copy s.obuf s.optr b.1 30, s.optr + 30, s.okfibs + 1⟩ else s

/-- The number of good FIBs, and the output buffer. -/
def ficDecode (T : Target) (mettab : Nat → Nat → Int) (old : FicBuffers)
    (sym2 sym3 sym4 obuf : Nat → UInt8) : Option (Nat × (Nat → UInt8)) :=
  let data9216 := mergeSymbols (demapSymbol old 0 sym2) (demapSymbol old 1 sym3)
    (demapSymbol old 2 sym4) old.data9216
  let blocks := (List.range 4).mapM fun q =>
    decodeBlock T mettab old q (splitBlock data9216 q (old.ficA q))
  blocks.map fun ficD =>
    let s := loop 12 (fun n =>
      OkFibs.take (splitFib (fun q => ficD.getD q (old.ficD q)) n (old.fibA n)) (old.fibB n))
      ⟨obuf, 0, 0⟩
    (s.okfibs, s.obuf)

/-- The 768 bits of block `q`: three FIBs with their check bits. -/
def blockBits (fibs : Nat → UInt8) (q i : Nat) : UInt8 :=
  fibBits (shift fibs (30 * (3 * q + i / 256))) (i % 256)

def blockBytes (fibs : Nat → UInt8) (q : Nat) : Nat → UInt8 :=
  (bitToByte 1 (scramble (blockBits fibs q) (fun _ => 0) 768) 768 fun _ => 0).1

def transmitBlock (fibs : Nat → UInt8) (q : Nat) : Nat → UInt8 :=
  (puncture (encode (fun _ => 0) (blockBytes fibs q) 96 0 0) fun _ => 0).1

def transmitFic (fibs : Nat → UInt8) (n : Nat) : Nat → UInt8 :=
  transmitSymbol fun i => transmitBlock fibs ((3072 * n + i) / 2304) ((3072 * n + i) % 2304)

theorem transmitBlock_rank (fibs : Nat → UInt8) (q : Nat) {p : Nat} (inside : p < 3096)
    (chosen : ficKeeps p = true) :
    transmitBlock fibs q (rank ficKeeps p) = codeword (messageBits (blockBytes fibs q) 96) p := by
  rw [transmitBlock, puncture_sent _ _ inside chosen, encode_codeword _ _ _ inside]

theorem transmitBlock_bit (fibs : Nat → UInt8) (q : Nat) {i : Nat} (inside : i < 2304) :
    transmitBlock fibs q i = 0 ∨ transmitBlock fibs q i = 1 := by
  obtain ⟨p, before, chosen, rfl⟩ := exists_rank (show i < rank ficKeeps 3096 by rwa [rank_block])
  rw [transmitBlock_rank fibs q before chosen]
  exact codeword_bit _ _

theorem mergeSymbols_apply (data2e data3e data4e data9216 : Nat → UInt8) {a : Nat}
    (inside : a < 9216) : mergeSymbols data2e data3e data4e data9216 a =
      if a < 3072 then data2e a else if a < 6144 then data3e (a - 3072) else data4e (a - 6144) := by
  unfold mergeSymbols
  refine loop_last_write (show a % 3072 < 3072 by omega) (fun m => ?_) (fun j lt hj m => ?_)
  · by_cases first : a < 3072
    · rw [if_pos first, store_other _ _ (by omega), store_other _ _ (by omega), store_apply,
        if_pos (by omega), Nat.mod_eq_of_lt first]
    · by_cases second : a < 6144
      · rw [if_neg first, if_pos second, store_other _ _ (by omega), store_apply,
          if_pos (by omega), show a % 3072 = a - 3072 by omega]
      · rw [if_neg first, if_neg second, store_apply, if_pos (by omega),
          show a % 3072 = a - 6144 by omega]
  · rw [store_other _ _ (by omega), store_other _ _ (by omega), store_other _ _ (by omega)]

/-- The merged vector is the four blocks one after the other. -/
theorem merged_bit (fibs : Nat → UInt8) (old : FicBuffers) {a : Nat} (inside : a < 9216) :
    mergeSymbols (demapSymbol old 0 (transmitFic fibs 0)) (demapSymbol old 1 (transmitFic fibs 1))
      (demapSymbol old 2 (transmitFic fibs 2)) old.data9216 a =
      transmitBlock fibs (a / 2304) (a % 2304) := by
  have cell (n i : Nat) (bound : i < 3072) : demapSymbol old n (transmitFic fibs n) i =
      transmitBlock fibs ((3072 * n + i) / 2304) ((3072 * n + i) % 2304) :=
    demapped_transmitSymbol (fun i => transmitBlock fibs ((3072 * n + i) / 2304)
      ((3072 * n + i) % 2304)) _ _ _ _ bound (transmitBlock_bit fibs _ (Nat.mod_lt _ (by decide)))
  rw [mergeSymbols_apply _ _ _ _ inside]
  split
  · next first => rw [cell 0 a first, show 3072 * 0 + a = a by omega]
  · split
    · rw [cell 1 (a - 3072) (by omega), show 3072 * 1 + (a - 3072) = a by omega]
    · rw [cell 2 (a - 6144) (by omega), show 3072 * 2 + (a - 6144) = a by omega]

theorem splitBlock_apply (data9216 ficA : Nat → UInt8) (q : Nat) {i : Nat} (inside : i < 2304) :
    splitBlock data9216 q ficA i = data9216 (2304 * q + i) :=
  loop_last_write inside (fun _ => store_same ..) fun _ lt _ _ => store_other _ _ (by omega)

theorem splitFib_apply (ficD : Nat → Nat → UInt8) (n : Nat) (fibA : Nat → UInt8) {i : Nat}
    (inside : i < 256) : splitFib ficD n fibA i = ficD (n / 3) (256 * (n % 3) + i) :=
  loop_last_write inside (fun _ => store_same ..) fun _ lt _ _ => store_other _ _ (by omega)

/-- The scrambled bits that are packed and encoded. -/
theorem blockBytes_bit (fibs : Nat → UInt8) (q : Nat) {i : Nat} (inside : i < 768) :
    bitAt (blockBytes fibs q (i / 8)) (7 - i % 8) = blockBits fibs q i ^^^ prbs i := by
  have bits (p : Nat) : scramble (blockBits fibs q) (fun _ => 0) 768 p = 0 ∨
      scramble (blockBits fibs q) (fun _ => 0) 768 p = 1 := by
    rw [scramble_apply]
    split
    · rcases fibBits_bit (shift fibs (30 * (3 * q + p / 256))) (p % 256) with bit | bit <;>
        rcases prbs_bit p with mask | mask <;> simp [blockBits, bit, mask]
    · exact .inl rfl
  rw [blockBytes, bitAt_bitToByte bits _ _ inside, scramble_apply, if_pos inside]

theorem softSymbol_soft (b : UInt8) (bit : b = 0 ∨ b = 1) : softSymbol b = soft b := by
  rcases bit with rfl | rfl <;> rfl

theorem decodeBlock_transmit {T : Target} (native : T.Native) {mettab : Nat → Nat → Int}
    (met : GenMet mettab) (old : FicBuffers) (fibs : Nat → UInt8) (q : Nat) {ficA : Nat → UInt8}
    (sent : ∀ i < 2304, ficA i = transmitBlock fibs q i) :
    ∃ ficD, decodeBlock T mettab old q ficA = some ficD ∧
      ∀ i < 768, ficD i = blockBits fibs q i := by
  let x := messageBits (blockBytes fibs q) 96
  have ends : ∀ t, 768 ≤ t → x t = false := fun t late => messageBits_late _ late
  have received : Received ficKeeps (codeword x)
      (fun p => softSymbol ((depuncture ficA (old.ficB q)).1 p)) (4 * (768 + 6)) := by
    intro p inside
    dsimp only
    rw [depuncture_apply _ _ inside]
    by_cases chosen : ficKeeps p = true
    · rw [if_pos chosen, if_pos chosen, sent _ (rank_inside inside chosen),
        transmitBlock_rank fibs q inside chosen]
      exact softSymbol_soft _ (codeword_bit x p)
    · rw [if_neg chosen, if_neg chosen]
      rfl
  obtain ⟨r, decoded, read⟩ := kViterbi_erasures met native ends
    (fun t _ => ficKeeps_first t) received (old.ficC q)
  refine ⟨scramble r.data (old.ficD q) 768, ?_, fun i inside => ?_⟩
  · rw [decodeBlock, depuncture_length, viterbi, show 3096 / 4 - (7 - 1) = 768 from rfl, decoded]
    rfl
  · rw [scramble_apply, if_pos inside, read, if_pos inside, messageBits_cell _ inside,
      blockBytes_bit fibs q inside, UInt8.xor_assoc, UInt8.xor_self, UInt8.xor_zero]

theorem OkFibs.take_good {fib fibA : Nat → UInt8} (good : ∀ i < 256, fibA i = fibBits fib i)
    (fibB : Nat → UInt8) (s : OkFibs) :
    s.take fibA fibB = ⟨copy s.obuf s.optr fib 30, s.optr + 30, s.okfibs + 1⟩ := by
  have bytes : ∀ j < 30, (bitToByte 1 fibA 256 fibB).1 j = fib j := by
    intro j inside
    have cell (r : Nat) (small : r < 8) : fibA (8 * j + r) = bitAt (fib j) (7 - r) := by
      rw [good _ (by omega), fibBits_apply fib (by omega), show (8 * j + r) / 8 = j by omega,
        show (8 * j + r) % 8 = r by omega]
    have first : fibA (8 * j) = bitAt (fib j) 7 := cell 0 (by decide)
    rw [bitToByte_apply, if_pos (by omega), first, cell 1 (by decide), cell 2 (by decide),
      cell 3 (by decide), cell 4 (by decide), cell 5 (by decide), cell 6 (by decide),
      cell 7 (by decide)]
    exact byte_of_bits (fib j)
  rw [OkFibs.take, if_pos (crc16_fibBits fibA fib good), copy_congr _ _ bytes]

/-- The FIBs of four good blocks are stored one behind the other. -/
theorem take_fibs {ficD : Nat → Nat → UInt8} {fibs : Nat → UInt8}
    (good : ∀ q < 4, ∀ i < 768, ficD q i = blockBits fibs q i) (fibA fibB : Nat → Nat → UInt8)
    (obuf : Nat → UInt8) :
    loop 12 (fun n => OkFibs.take (splitFib ficD n (fibA n)) (fibB n)) ⟨obuf, 0, 0⟩ =
      ⟨copy obuf 0 fibs 360, 360, 12⟩ := by
  refine loop_invariant (n := 12) (fun n (s : OkFibs) =>
    s = ⟨copy obuf 0 fibs (30 * n), 30 * n, n⟩) ?_ fun n low s before => ?_
  · rw [← loop_store]
    rfl
  · have bits : ∀ i < 256, splitFib ficD n (fibA n) i = fibBits (shift fibs (30 * n)) i := by
      intro i inside
      rw [splitFib_apply _ _ _ inside, good _ (by omega) _ (by omega), blockBits,
        show 3 * (n / 3) + (256 * (n % 3) + i) / 256 = n by omega,
        show (256 * (n % 3) + i) % 256 = i by omega]
    have joined := copy_shift obuf fibs 0 (30 * n) 30
    rw [Nat.zero_add] at joined
    rw [OkFibs.take_good bits, before, joined]
    rfl

/-- Decoding the three symbols of twelve FIBs stores exactly their 360 bytes. -/
theorem fic_decoding (T : Target) (native : T.Native) (mettab : Nat → Nat → Int)
    (met : GenMet mettab) (fibs : Nat → UInt8) (old : FicBuffers) (obuf : Nat → UInt8) :
    ficDecode T mettab old (transmitFic fibs 0) (transmitFic fibs 1) (transmitFic fibs 2) obuf =
      some (12, copy obuf 0 fibs 360) := by
  let data9216 := mergeSymbols (demapSymbol old 0 (transmitFic fibs 0))
    (demapSymbol old 1 (transmitFic fibs 1)) (demapSymbol old 2 (transmitFic fibs 2)) old.data9216
  have block (q : Nat) (low : q < 4) : ∃ ficD,
      decodeBlock T mettab old q (splitBlock data9216 q (old.ficA q)) = some ficD ∧
        ∀ i < 768, ficD i = blockBits fibs q i := by
    refine decodeBlock_transmit native met old fibs q fun i inside => ?_
    have merged := merged_bit fibs old (show 2304 * q + i < 9216 by omega)
    rw [splitBlock_apply _ _ _ inside]
    rwa [show (2304 * q + i) / 2304 = q by omega, show (2304 * q + i) % 2304 = i by omega] at merged
  obtain ⟨d0, run0, fill0⟩ := block 0 (by decide)
  obtain ⟨d1, run1, fill1⟩ := block 1 (by decide)
  obtain ⟨d2, run2, fill2⟩ := block 2 (by decide)
  obtain ⟨d3, run3, fill3⟩ := block 3 (by decide)
  have good : ∀ q < 4, ∀ i < 768, [d0, d1, d2, d3].getD q (old.ficD q) i = blockBits fibs q i := by
    intro q low
    match q with
    | 0 => exact fill0
    | 1 => exact fill1
    | 2 => exact fill2
    | 3 => exact fill3
  have blocks : (List.range 4).mapM (fun q =>
      decodeBlock T mettab old q (splitBlock data9216 q (old.ficA q))) = some [d0, d1, d2, d3] := by
    simp [List.range_succ, run0, run1, run2, run3]
  have taken := take_fibs good old.fibA old.fibB obuf
  exact (congrArg (Option.map _) blocks).trans (by simp only [Option.map_some, taken])

def FicBuffers.initial : FicBuffers where
  datab _ _ := 0
  datac _ _ := 0
  datad _ _ := 0
  datae _ _ := 0
  data9216 _ := 0
  ficA _ _ := 0
  ficB _ _ := 0
  ficC _ _ := 0
  ficD _ _ := 0
  fibA _ _ := 0
  fibB _ _ := 0

theorem fic_decoding_counting : ficDecode .x86_64 unitMettab FicBuffers.initial
    (transmitFic UInt8.ofNat 0) (transmitFic UInt8.ofNat 1) (transmitFic UInt8.ofNat 2)
    (fun _ => 0) = some (12, copy (fun _ => 0) 0 UInt8.ofNat 360) :=
  fic_decoding .x86_64 rfl unitMettab genMet_unit UInt8.ofNat FicBuffers.initial fun _ => 0

end OpenDab
