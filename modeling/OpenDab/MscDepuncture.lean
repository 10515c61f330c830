import OpenDab.Figs
import OpenDab.Tables
import OpenDab.Library.Puncturing
import OpenDab.Wfic.Erasure

/-! UEP and EEP depuncturing of the MSC, and its composition with the Viterbi decoder. A
row of the puncturing vectors outside the table is undefined behaviour and gives `none`. -/
namespace OpenDab

open Buffers Puncturing

/-- The output buffer with its write position `k`, and the read position `j` of the input. -/
structure Depunctured where
  obuf : Nat → UInt8
  j : Nat
  k : Nat

def viterbiSymbol (b : UInt8) : UInt8 := (128 : UInt8) - 1 + (b <<< (1 : UInt8))

/-- One position of a block: the next received bit, or an erasure. -/
def depunctureBit (inbuf : Nat → UInt8) (vector : List Nat) (i : Nat) (d : Depunctured) :
    Depunctured :=
  if vector.getD (i % 32) 0 ≠ 0 then
    { obuf := store d.obuf d.k (viterbiSymbol (inbuf d.j)), j := d.j + 1, k := d.k + 1 }
  else { obuf := store d.obuf d.k 128, j := d.j, k := d.k + 1 }

def pvecRow (pi : Int) : Option (List Nat) := if 0 ≤ pi then pvec[pi.toNat]? else none

/-- `size` positions with one puncturing vector, which is not looked up if there are none. -/
def depunctureBlock (inbuf : Nat → UInt8) (d : Depunctured) (size : Nat) (pi : Int) :
    Option Depunctured :=
  if size = 0 then some d
  else (pvecRow pi).map fun vector => loop size (depunctureBit inbuf vector) d

def blksize : Nat := 128

/-- Blocks of 128 positions, and the remaining 24 bits at rate 8/16. -/
def depunctureBlocks (obuf inbuf : Nat → UInt8) (blocks : List (Nat × Int)) :
    Option ((Nat → UInt8) × Nat) :=
  (blocks.foldlM (fun d block => depunctureBlock inbuf d (blksize * block.1) block.2)
    ⟨obuf, 0, 0⟩).bind fun d =>
  (depunctureBlock inbuf d 24 7).map fun d => (d.obuf, d.k)

def depunctureRun (obuf inbuf : Nat → UInt8) (blocks : List (Nat × Int)) : Option Depunctured :=
  (blocks.foldlM (fun d block => depunctureBlock inbuf d (blksize * block.1) block.2)
    ⟨obuf, 0, 0⟩).bind fun d => depunctureBlock inbuf d 24 7

theorem depunctureBlocks_run (obuf inbuf : Nat → UInt8) (blocks : List (Nat × Int)) :
    depunctureBlocks obuf inbuf blocks =
      (depunctureRun obuf inbuf blocks).map fun d => (d.obuf, d.k) := by
  rw [depunctureBlocks, depunctureRun, Option.map_bind]
  rfl

def UepProf.blocks (p : UepProf) : List (Nat × Int) := p.l.zip p.pi

def uepDepuncture (obuf inbuf : Nat → UInt8) (s : Subch) : Option ((Nat → UInt8) × Nat) :=
  (if 0 ≤ s.uepIndx then ueptable[s.uepIndx.toNat]? else none).bind fun p =>
    depunctureBlocks obuf inbuf p.blocks

def EepProf.blocks (p : EepProf) (n : Nat) : List (Nat × Int) :=
  (p.l.map fun (l : Int × Int) => (l.1 * (n : Int) + l.2).toNat).zip p.pi

def eepDepuncture (obuf inbuf : Nat → UInt8) (s : Subch) : Option ((Nat → UInt8) × Nat) :=
  (eeptable[s.protlvl]?).bind fun p =>
    let p := if s.bitrate = 8 ∧ s.protlvl = 1 then eep2a8kbps else p
    depunctureBlocks obuf inbuf (p.blocks (s.subchsz / p.sizemul))

def mscDepuncture (obuf inbuf : Nat → UInt8) (s : Subch) : Option ((Nat → UInt8) × Nat) :=
  if s.eepprot ≠ 0 then eepDepuncture obuf inbuf s else uepDepuncture obuf inbuf s

def Subch.blocks (s : Subch) : List (Nat × Int) :=
  if s.eepprot ≠ 0 then
    let p := eeptable.getD s.protlvl eep2a8kbps
    let p := if s.bitrate = 8 ∧ s.protlvl = 1 then eep2a8kbps else p
    p.blocks (s.subchsz / p.sizemul)
  else (ueptable.getD s.uepIndx.toNat ⟨0, 0, 0, [], [], 0⟩).blocks

def blockPattern (size : Nat) (pi : Int) : List Bool :=
  (List.range size).map fun i => decide (((pvecRow pi).getD []).getD (i % 32) 0 ≠ 0)

def pattern (blocks : List (Nat × Int)) : List Bool :=
  blocks.flatMap (fun block => blockPattern (blksize * block.1) block.2) ++ blockPattern 24 7

def keeps (blocks : List (Nat × Int)) (p : Nat) : Bool := (pattern blocks).getD p false

section Blocks

variable {keep : Nat → Bool} {inbuf : Nat → UInt8}

/-- The output so far: kept positions hold the received bits in order, the others erasures. -/
structure Depunctured.Filled (keep : Nat → Bool) (inbuf : Nat → UInt8) (n : Nat)
    (d : Depunctured) : Prop where
  written : d.k = n
  read : d.j = rank keep n
  obuf : ∀ p < n, d.obuf p =
    if keep p then viterbiSymbol (inbuf (rank keep p)) else 128

theorem Depunctured.Filled.bit {n : Nat} {d : Depunctured} (filled : d.Filled keep inbuf n)
    {vector : List Nat} {i : Nat} (same : decide (vector.getD (i % 32) 0 ≠ 0) = keep n) :
    (depunctureBit inbuf vector i d).Filled keep inbuf (n + 1) := by
  obtain ⟨written, read, obuf⟩ := filled
  have older (value : UInt8) : ∀ p < n, store d.obuf n value p =
      if keep p then viterbiSymbol (inbuf (rank keep p)) else 128 := by
    intro p inside
    rw [store_other _ _ (by omega), obuf p inside]
  unfold depunctureBit
  cases kept : keep n with
  | true =>
    rw [kept, decide_eq_true_eq] at same
    rw [if_pos same]
    refine ⟨by simp [written], by simp [read, rank, kept], fun p inside => ?_⟩
    simp only [written]
    by_cases newest : p = n
    · rw [newest, store_same, kept, if_pos rfl, read]
    · exact older _ p (by omega)
  | false =>
    rw [kept, decide_eq_false_iff_not] at same
    rw [if_neg same]
    refine ⟨by simp [written], by simp [read, rank, kept], fun p inside => ?_⟩
    simp only [written]
    by_cases newest : p = n
    · rw [newest, store_same, kept]
      rfl
    · exact older _ p (by omega)

@[simp] theorem length_blockPattern (size : Nat) (pi : Int) :
    (blockPattern size pi).length = size := by
  simp [blockPattern]

theorem Depunctured.Filled.block {n : Nat} {d : Depunctured} (filled : d.Filled keep inbuf n)
    {size : Nat} {pi : Int} (known : size ≠ 0 → ∃ vector, pvecRow pi = some vector)
    (begins : Begins (shift keep n) (blockPattern size pi)) :
    ∃ d', depunctureBlock inbuf d size pi = some d' ∧ d'.Filled keep inbuf (n + size) := by
  unfold depunctureBlock
  by_cases empty : size = 0
  · subst empty
    exact ⟨d, if_pos rfl, filled⟩
  · obtain ⟨vector, row⟩ := known empty
    refine ⟨loop size (depunctureBit inbuf vector) d, by rw [if_neg empty, row]; rfl, ?_⟩
    refine loop_invariant (fun i (d : Depunctured) => d.Filled keep inbuf (n + i)) filled
      fun i inside d before => ?_
    refine before.bit ?_
    have cell := begins i (by simpa using inside)
    rw [shift_apply] at cell
    simp [cell, blockPattern, row]

theorem Depunctured.Filled.blocks {n : Nat} {d : Depunctured} (filled : d.Filled keep inbuf n)
    (blocks : List (Nat × Int))
    (known : ∀ block ∈ blocks, block.1 ≠ 0 → ∃ vector, pvecRow block.2 = some vector)
    (begins : Begins (shift keep n)
      (blocks.flatMap fun block => blockPattern (blksize * block.1) block.2)) :
    ∃ d', blocks.foldlM (fun d block => depunctureBlock inbuf d (blksize * block.1) block.2) d =
        some d' ∧ d'.Filled keep inbuf (n +
          (blocks.flatMap fun block => blockPattern (blksize * block.1) block.2).length) := by
  induction blocks generalizing n d with
  | nil => exact ⟨d, rfl, filled⟩
  | cons block rest ih =>
    rw [List.flatMap_cons, begins_append, shift_shift] at begins
    obtain ⟨d₁, first, filled₁⟩ := filled.block (fun some => known block List.mem_cons_self fun none =>
      some (by rw [none, Nat.mul_zero])) begins.1
    rw [length_blockPattern] at begins
    obtain ⟨d₂, others, filled₂⟩ := ih filled₁ (fun other member =>
      known other (List.mem_cons_of_mem _ member)) begins.2
    refine ⟨d₂, by rw [List.foldlM_cons, first]; exact others, ?_⟩
    rwa [List.flatMap_cons, List.length_append, length_blockPattern, ← Nat.add_assoc]

theorem begins_keeps (blocks : List (Nat × Int)) : Begins (keeps blocks) (pattern blocks) :=
  fun _ bound => List.getD_eq_getElem _ _ bound

/-- Depuncturing with blocks whose vectors are in the table, to the end of the tail. -/
theorem depunctureRun_filled (obuf inbuf : Nat → UInt8) (blocks : List (Nat × Int))
    (known : ∀ block ∈ blocks, block.1 ≠ 0 → ∃ vector, pvecRow block.2 = some vector) :
    ∃ d, depunctureRun obuf inbuf blocks = some d ∧
      d.Filled (keeps blocks) inbuf (pattern blocks).length := by
  have start : Depunctured.Filled (keeps blocks) inbuf 0 ⟨obuf, 0, 0⟩ :=
    ⟨rfl, rfl, fun p inside => absurd inside (by omega)⟩
  have begins := begins_keeps blocks
  rw [pattern, begins_append] at begins
  obtain ⟨front, tail⟩ := begins
  obtain ⟨d, run, filled⟩ := start.blocks blocks known (by rwa [shift_zero])
  rw [Nat.zero_add] at filled
  obtain ⟨d', last, filled'⟩ := filled.block (fun _ => ⟨_, rfl⟩) tail
  have length : (pattern blocks).length =
      (blocks.flatMap fun block => blockPattern (blksize * block.1) block.2).length + 24 := by
    rw [pattern, List.length_append, length_blockPattern]
  rw [← length] at filled'
  refine ⟨d', ?_, filled'⟩
  rw [depunctureRun, run, Option.bind_some, last]

theorem depunctureBlocks_filled (obuf inbuf : Nat → UInt8) (blocks : List (Nat × Int))
    (known : ∀ block ∈ blocks, block.1 ≠ 0 → ∃ vector, pvecRow block.2 = some vector) :
    ∃ d : Depunctured, depunctureBlocks obuf inbuf blocks = some (d.obuf, (pattern blocks).length) ∧
      d.Filled (keeps blocks) inbuf (pattern blocks).length := by
  obtain ⟨d, run, filled⟩ := depunctureRun_filled obuf inbuf blocks known
  exact ⟨d, by rw [depunctureBlocks_run, run, Option.map_some, filled.written], filled⟩

end Blocks

/-- The first bit of every group of four is kept. -/
structure Aligned (l : List Bool) : Prop where
  groups : l.length % 4 = 0
  first : ∀ t, 4 * t < l.length → l.getD (4 * t) false = true

theorem Aligned.append {l l' : List Bool} (front : Aligned l) (back : Aligned l') :
    Aligned (l ++ l') := by
  obtain ⟨groups, first⟩ := front
  obtain ⟨groups', first'⟩ := back
  refine ⟨by rw [List.length_append]; omega, fun t inside => ?_⟩
  by_cases here : 4 * t < l.length
  · rw [List.getD_append _ _ _ _ here]
    exact first t here
  · rw [List.length_append] at inside
    obtain ⟨a, length⟩ : ∃ a, l.length = 4 * a := ⟨l.length / 4, by omega⟩
    rw [List.getD_append_right _ _ _ _ (by omega), length, ← Nat.mul_sub]
    exact first' (t - a) (by omega)

theorem pvecRow_first {pi : Int} {vector : List Nat} (row : pvecRow pi = some vector) {k : Nat}
    (small : k < 8) : vector.getD (4 * k) 0 ≠ 0 := by
  have all : ∀ vector ∈ pvec, ∀ k < 8, vector.getD (4 * k) 0 ≠ 0 := by decide
  unfold pvecRow at row
  split at row
  · exact all vector (List.mem_of_getElem? row) k small
  · cases row

theorem blockPattern_aligned {size : Nat} (groups : size % 4 = 0) {pi : Int}
    (known : size ≠ 0 → ∃ vector, pvecRow pi = some vector) : Aligned (blockPattern size pi) := by
  refine ⟨by rw [length_blockPattern, groups], fun t inside => ?_⟩
  rw [length_blockPattern] at inside
  obtain ⟨vector, row⟩ := known (by omega)
  have kept := pvecRow_first row (show t % 8 < 8 by omega)
  rw [show 4 * (t % 8) = 4 * t % 32 by omega] at kept
  rw [List.getD_eq_getElem _ _ (by rwa [length_blockPattern])]
  simp only [blockPattern, List.getElem_map, List.getElem_range, row, Option.getD_some,
    decide_eq_true_eq]
  exact kept

theorem pattern_aligned (blocks : List (Nat × Int))
    (known : ∀ block ∈ blocks, block.1 ≠ 0 → ∃ vector, pvecRow block.2 = some vector) :
    Aligned (pattern blocks) := by
  have tail : Aligned (blockPattern 24 7) := blockPattern_aligned (by decide) fun _ => ⟨_, rfl⟩
  unfold pattern
  induction blocks with
  | nil => exact tail
  | cons block rest ih =>
    rw [List.flatMap_cons, List.append_assoc]
    have head : Aligned (blockPattern (blksize * block.1) block.2) := by
      refine blockPattern_aligned (by rw [blksize]; omega) fun some => ?_
      exact known block List.mem_cons_self fun none => some (by rw [none, Nat.mul_zero])
    exact head.append (ih fun other member => known other (List.mem_cons_of_mem _ member))

theorem length_pattern (blocks : List (Nat × Int)) :
    ∃ n, (pattern blocks).length = 4 * (8 * n + 6) := by
  unfold pattern
  induction blocks with
  | nil => exact ⟨0, by simp⟩
  | cons block rest ih =>
    obtain ⟨n, length⟩ := ih
    rw [List.length_append, length_blockPattern] at length
    have size : blksize * block.1 = 128 * block.1 := rfl
    refine ⟨4 * block.1 + n, ?_⟩
    rw [List.flatMap_cons, List.length_append, List.length_append, length_blockPattern,
      length_blockPattern, size]
    omega

def Subch.Listed (s : Subch) : Prop :=
  if s.eepprot ≠ 0 then s.protlvl < 8 else 0 ≤ s.uepIndx ∧ s.uepIndx < 64

theorem mscDepuncture_blocks {s : Subch} (listed : s.Listed) (obuf inbuf : Nat → UInt8) :
    mscDepuncture obuf inbuf s = depunctureBlocks obuf inbuf s.blocks := by
  unfold Subch.Listed at listed
  unfold mscDepuncture Subch.blocks
  split at listed
  · next eep =>
    rw [if_pos eep, if_pos eep, eepDepuncture, List.getElem?_eq_getElem (by simpa [eeptable] using listed),
      List.getD_eq_getElem _ _ (by simpa [eeptable] using listed)]
    rfl
  · next uep =>
    have inside : s.uepIndx.toNat < ueptable.length := by
      simp only [ueptable, List.length_cons, List.length_nil]
      omega
    rw [if_neg uep, if_neg uep, uepDepuncture, if_pos listed.1, List.getElem?_eq_getElem inside,
      List.getD_eq_getElem _ _ inside]
    rfl

/-- A profile never needs a vector that is not in the table. -/
theorem known_blocks {s : Subch} (listed : s.Listed) :
    ∀ block ∈ s.blocks, block.1 ≠ 0 → ∃ vector, pvecRow block.2 = some vector := by
  unfold Subch.Listed at listed
  unfold Subch.blocks
  split at listed
  · next eep =>
    rw [if_pos eep]
    have rows : ∀ p ∈ eep2a8kbps :: eeptable, ∀ pi ∈ p.pi, (pvecRow pi).isSome := by decide
    have inside : s.protlvl < eeptable.length := by simpa [eeptable] using listed
    have member : ∀ p ∈ eep2a8kbps :: eeptable, ∀ n, ∀ block ∈ p.blocks n,
        ∃ vector, pvecRow block.2 = some vector := fun p row n block found =>
      Option.isSome_iff_exists.mp (rows p row _ (List.of_mem_zip found).2)
    intro block found _
    dsimp only at found
    split at found
    · exact member _ List.mem_cons_self _ block found
    · rw [List.getD_eq_getElem _ _ inside] at found
      exact member _ (List.mem_cons_of_mem _ (List.getElem_mem inside)) _ block found
  · next uep =>
    rw [if_neg uep]
    have rows : ∀ p ∈ ueptable, ∀ block ∈ p.blocks, block.1 ≠ 0 → (pvecRow block.2).isSome := by
      decide
    have inside : s.uepIndx.toNat < ueptable.length := by
      simp only [ueptable, List.length_cons, List.length_nil]
      omega
    intro block found used
    rw [List.getD_eq_getElem _ _ inside] at found
    exact Option.isSome_iff_exists.mp (rows _ (List.getElem_mem inside) block found used)

theorem viterbiSymbol_soft (b : UInt8) (bit : b = 0 ∨ b = 1) : viterbiSymbol b = soft b := by
  rcases bit with rfl | rfl <;> rfl

/-- Depuncturing the kept code bits of a message and decoding gives the message back, for every
profile of the tables. -/
theorem msc_decoding (T : Target) (native : T.Native) (mettab : Nat → Nat → Int)
    (met : GenMet mettab) (s : Subch) (listed : s.Listed) (message symbols : Nat → UInt8)
    (inbuf : Nat → UInt8) (bits : Nat) (frame : bits = (pattern s.blocks).length / 4 - 6)
    (sent : Begins inbuf (kept (keeps s.blocks) (encode symbols message (bits / 8) 0 0)
      (pattern s.blocks).length)) (obuf data : Nat → UInt8) :
    ∃ dpbuf len, mscDepuncture obuf inbuf s = some (dpbuf, len) ∧ bits = len / 4 - (7 - 1) ∧
      ∃ r, kViterbi T data dpbuf bits mettab 0 0 = some r ∧
        ∀ i < bits, r.data i = bitAt (message (i / 8)) (7 - i % 8) := by
  have known := known_blocks listed
  obtain ⟨n, length⟩ := length_pattern s.blocks
  obtain ⟨d, run, filled⟩ := depunctureBlocks_filled obuf inbuf s.blocks known
  have whole : bits = 8 * n := by omega
  have bytes : bits / 8 = n := by omega
  rw [bytes] at sent
  have received : Received (keeps s.blocks) (codeword (messageBits message n)) d.obuf
      (4 * (bits + 6)) := by
    intro p inside
    rw [filled.obuf p (by omega)]
    by_cases kept : keeps s.blocks p = true
    · have bit := begins_kept sent (show p < _ by omega) kept
      rw [encode_codeword _ _ _ (by omega)] at bit
      rw [if_pos kept, if_pos kept, bit, viterbiSymbol_soft _ (codeword_bit _ p)]
    · rw [if_neg kept, if_neg kept]
  have first : ∀ t < bits + 6, keeps s.blocks (4 * t) = true := fun t inside =>
    (pattern_aligned s.blocks known).first t (by omega)
  have ends : ∀ t, bits ≤ t → messageBits message n t = false :=
    fun t late => messageBits_late message (by omega)
  obtain ⟨r, decoded, read⟩ := kViterbi_erasures met native ends first received data
  refine ⟨d.obuf, _, (mscDepuncture_blocks listed obuf inbuf).trans run, frame, r, decoded,
    fun i inside => ?_⟩
  rw [read, if_pos inside]
  exact messageBits_cell message (by omega)

def weakest : Subch := ⟨5, 0, 15, 32, 1, 7, 0, 0⟩

theorem msc_decoding_weakest : ∃ dpbuf len,
    mscDepuncture (fun _ => 0) (ofList (kept (keeps weakest.blocks)
        (encode (fun _ => 0) (fun _ => 0xa5) (((pattern weakest.blocks).length / 4 - 6) / 8) 0 0)
        (pattern weakest.blocks).length) fun _ => 0) weakest = some (dpbuf, len) ∧
      (pattern weakest.blocks).length / 4 - 6 = len / 4 - (7 - 1) ∧
      ∃ r, kViterbi .x86_64 (fun _ => 0) dpbuf ((pattern weakest.blocks).length / 4 - 6)
          unitMettab 0 0 = some r ∧
        ∀ i < (pattern weakest.blocks).length / 4 - 6, r.data i = bitAt 0xa5 (7 - i % 8) :=
  msc_decoding .x86_64 rfl unitMettab genMet_unit weakest (show 7 < 8 by decide) (fun _ => 0xa5)
    (fun _ => 0) _ _ rfl (begins_ofList _ _) _ _

end OpenDab
