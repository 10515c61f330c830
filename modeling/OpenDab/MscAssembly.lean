import OpenDab.MscBuffer

/-! What one packet can do to the assembler, and the abstract assembler that it
refines: a frame number and the history of symbols inserted since the last reset. -/
namespace OpenDab

open Buffers

/-- The ranges of a sub-channel that takes symbols `lo .. lo + numsyms - 1` of each CIF. -/
structure Placed (sr : Symrange) (lo : Nat) : Prop where
  start : ∀ j < 4, sr.start j = lo + 5 + 18 * j
  end_ : ∀ j < 4, sr.end_ j = lo + 4 + sr.numsyms + 18 * j
  positive : 0 < sr.numsyms
  inside : lo + sr.numsyms ≤ 18

theorem startsym_placed (r : Symrange) (s : Subch) (inside : s.startaddr + s.subchsz < 864) :
    Placed (startsym r s) (s.startaddr / 48) := by
  have slices := startsym_inside r s inside
  refine ⟨fun j hj => ?_, fun j hj => ?_, slices.2, slices.1⟩
  · rw [startsym_start r s j hj, Nat.add_assoc]
  · rw [startsym_end r s j hj, startsym_numsyms]
    omega

/-- Symbol `5 + w` of a frame belongs to the sub-channel. -/
def Wanted (sr : Symrange) (lo w : Nat) : Prop := lo ≤ w % 18 ∧ w % 18 < lo + sr.numsyms

instance (sr : Symrange) (lo w : Nat) : Decidable (Wanted sr lo w) :=
  inferInstanceAs (Decidable (_ ∧ _))

section Packet

variable {sr : Symrange} {lo : Nat} (placed : Placed sr lo) {symbuf : Nat → UInt8} {w : Nat}
  (sym : (symbuf 2).toNat = 5 + w)
include placed sym

theorem at_start (j : Nat) (cif : j < 4) : (symbuf 2).toNat = sr.start j ↔ w = lo + 18 * j := by
  rw [sym, placed.start j cif]
  omega

theorem after_start (j : Nat) (cif : j < 4) :
    ((symbuf 2).toNat > sr.start j ∧ (symbuf 2).toNat ≤ sr.end_ j) ↔
      (lo + 18 * j < w ∧ w < lo + sr.numsyms + 18 * j) := by
  rw [sym, placed.start j cif, placed.end_ j cif]
  have := placed.positive
  omega

/-- A symbol outside the four ranges changes nothing. -/
theorem mscAssemble_unwanted (s : MscState) (range : w < 72) (unwanted : ¬Wanted sr lo w) :
    mscAssemble symbuf sr s = (s, []) := by
  have inside := placed.inside
  have positive := placed.positive
  unfold Wanted at unwanted
  have notFirst : (symbuf 2).toNat ≠ sr.start 0 := by
    rw [Ne, at_start placed sym 0 (by decide)]
    omega
  simp only [mscAssemble, if_neg notFirst]
  rw [loop_idle, loop_idle]
  · rfl
  · intro i hi a
    refine if_neg ?_
    rw [at_start placed sym (i + 1) (by omega)]
    omega
  · intro j hj a
    refine if_neg ?_
    rw [after_start placed sym j hj]
    omega

/-- The first symbol of a frame is always inserted, and its frame number becomes current. -/
theorem mscAssemble_first (s : MscState) (first : w = lo) :
    let fbuf := freqDeinterleave (fun _ => 0) (shift symbuf 12)
    let r := wcbuf fbuf bitspersym sr false s.cbuf
    mscAssemble symbuf sr s =
      (⟨r.1, (symbuf 3).toNat, s.cifcnt⟩,
        .insert r.1.lframe ((r.1.cb r.1.lframe).syms - 1) (symbolBits fbuf) ::
          if r.2 then [.decode] else []) := by
  intro fbuf r
  have atFirst : (symbuf 2).toNat = sr.start 0 :=
    (at_start placed sym 0 (by decide)).mpr (by omega)
  simp only [mscAssemble, if_pos atFirst, Assembly.insert]
  cases full : r.2 <;> simp [r, fbuf]

/-- Any other wanted symbol is matched by exactly one of the two loops, once. -/
theorem mscAssemble_later (s : MscState) (range : w < 72) (wanted : Wanted sr lo w)
    (later : w ≠ lo) : ∃ cifcnt, mscAssemble symbuf sr s =
      let a : Assembly := if (symbuf 3).toNat ≠ s.curFrame then Assembly.reset sr ⟨s, false, []⟩
        else { Assembly.insert symbuf sr ⟨s, false, []⟩ with cifcnt := cifcnt }
      (a.toMscState, if a.bufferFull then a.events ++ [.decode] else a.events) := by
  have inside := placed.inside
  unfold Wanted at wanted
  have notFirst : (symbuf 2).toNat ≠ sr.start 0 := by
    rw [Ne, at_start placed sym 0 (by decide)]
    omega
  simp only [mscAssemble, if_neg notFirst]
  by_cases opening : w % 18 = lo
  · -- the start symbol of a later CIF: only the first loop acts
    have hit : (symbuf 2).toNat = sr.start (w / 18 - 1 + 1) :=
      (at_start placed sym (w / 18 - 1 + 1) (by omega)).mpr (by omega)
    refine ⟨s.cifcnt, ?_⟩
    rw [loop_idle (n := 4), loop_only (show w / 18 - 1 < 3 by omega)]
    · simp only [if_pos hit]
      split <;> rfl
    · intro i hi other a
      refine if_neg ?_
      rw [at_start placed sym (i + 1) (by omega)]
      omega
    · intro j hj a
      refine if_neg ?_
      rw [after_start placed sym j hj]
      omega
  · -- a following symbol: only the second loop acts
    have hit : (symbuf 2).toNat > sr.start (w / 18) ∧ (symbuf 2).toNat ≤ sr.end_ (w / 18) :=
      (after_start placed sym (w / 18) (by omega)).mpr (by omega)
    refine ⟨if (symbuf 2).toNat = sr.end_ (w / 18) then (s.cifcnt + 1) % 2 ^ 32 else s.cifcnt, ?_⟩
    rw [loop_idle (n := 3), loop_only (show w / 18 < 4 by omega)]
    · simp only [if_pos hit]
      split
      · rfl
      · split <;> rfl
    · intro j hj other a
      refine if_neg ?_
      rw [after_start placed sym j hj]
      omega
    · intro i hi a
      refine if_neg ?_
      rw [at_start placed sym (i + 1) (by omega)]
      omega

end Packet

/-- The abstract assembler: the current frame number and the items inserted since the last reset. -/
structure Assembler (ι : Type) where
  frame : Nat
  history : List ι

def Assembler.Accepts (sr : Symrange) (lo w frame : Nat) (a : Assembler ι) : Prop :=
  Wanted sr lo w ∧ (w = lo ∨ frame = a.frame)

instance (sr : Symrange) (lo w frame : Nat) (a : Assembler ι) :
    Decidable (a.Accepts sr lo w frame) :=
  inferInstanceAs (Decidable (_ ∧ _))

def Assembler.step (sr : Symrange) (lo w frame : Nat) (item : ι) (a : Assembler ι) : Assembler ι :=
  if a.Accepts sr lo w frame then ⟨frame, a.history ++ [item]⟩
  else if Wanted sr lo w then { a with history := [] }
  else a

/-- The insertion that comes after `k` others completes its group, and 16 groups are present. -/
def Completes (n k : Nat) : Prop := 15 ≤ k / n ∧ k % n + 1 = n

instance (n k : Nat) : Decidable (Completes n k) := inferInstanceAs (Decidable (_ ∧ _))

def Assembler.events (sr : Symrange) (lo w frame : Nat) (symbol : SymbolBits) (a : Assembler ι) :
    List MscEvent :=
  let n := sr.numsyms
  let k := a.history.length
  if a.Accepts sr lo w frame then
    .insert (k / n % 16) (k % n) symbol :: if Completes n k then [.decode] else []
  else if Wanted sr lo w then [.reset]
  else []

/-- The assembler's state stands for an abstract one whose items are symbols under `f`. -/
structure Refines (sr : Symrange) (f : ι → SymbolBits) (a : Assembler ι) (s : MscState) : Prop where
  frame : s.curFrame = a.frame
  holds : Holds sr.numsyms (a.history.map f) s.cbuf

/-- One packet: the code's step is the abstract one, and its calls are the abstract events. -/
theorem mscAssemble_refines {sr : Symrange} {lo : Nat} (placed : Placed sr lo)
    {symbuf : Nat → UInt8} {w : Nat} (sym : (symbuf 2).toNat = 5 + w) (range : w < 72)
    (f : ι → SymbolBits) (item : ι)
    (symbol : f item = symbolBits (freqDeinterleave (fun _ => 0) (shift symbuf 12)))
    {a : Assembler ι} {s : MscState} (refines : Refines sr f a s) :
    Refines sr f (a.step sr lo w (symbuf 3).toNat item) (mscAssemble symbuf sr s).1 ∧
    (mscAssemble symbuf sr s).2 = a.events sr lo w (symbuf 3).toNat (f item) := by
  obtain ⟨frame, holds⟩ := refines
  obtain ⟨filled, flag⟩ := wcbuf_insert sr _ s.cbuf
    (freqDeinterleave (fun _ => 0) (shift symbuf 12)) placed.positive holds
  have length : (a.history.map f ++
      [symbolBits (freqDeinterleave (fun _ => 0) (shift symbuf 12))]).length - 1 =
      a.history.length := by simp
  have lframe := filled.lframe
  have syms := filled.syms
  rw [length] at lframe syms
  rw [lframe] at syms
  rw [← symbol] at filled
  simp only [List.length_map] at flag
  have inserted := holds_push filled
  have decode : (if (wcbuf (freqDeinterleave (fun _ => 0) (shift symbuf 12)) bitspersym sr false
      s.cbuf).2 then [MscEvent.decode] else []) =
      if Completes sr.numsyms a.history.length then [.decode] else [] := by
    rw [flag]
    simp only [decide_eq_true_eq]
    rfl
  by_cases wanted : Wanted sr lo w
  · by_cases first : w = lo
    · have accepts : a.Accepts sr lo w (symbuf 3).toNat := ⟨wanted, .inl first⟩
      rw [mscAssemble_first placed sym s first]
      simp only [Assembler.step, Assembler.events, if_pos accepts, lframe, syms, decode, symbol,
        Nat.add_sub_cancel]
      exact ⟨⟨rfl, by simpa using inserted⟩, trivial⟩
    · obtain ⟨cifcnt, result⟩ := mscAssemble_later placed sym s range wanted first
      rw [result]
      by_cases same : (symbuf 3).toNat = s.curFrame
      · have accepts : a.Accepts sr lo w (symbuf 3).toNat := ⟨wanted, .inr (same.trans frame)⟩
        simp only [Assembler.step, Assembler.events, if_pos accepts]
        simp only [same, ne_eq, not_true, if_false, Assembly.insert, lframe, syms, List.nil_append,
          Nat.add_sub_cancel, symbol]
        refine ⟨⟨rfl, by simpa using inserted⟩, ?_⟩
        rw [← decode]
        split <;> rfl
      · have rejects : ¬a.Accepts sr lo w (symbuf 3).toNat := by
          rintro ⟨-, atFirst | equal⟩
          · exact first atFirst
          · exact same (equal.trans frame.symm)
        obtain ⟨blank, -⟩ := wcbuf_reset sr.numsyms _ (fun _ => 0) 0 sr s.cbuf holds
        simp only [Assembler.step, Assembler.events, if_neg rejects, if_pos wanted, ne_eq, same,
          not_false_eq_true, if_true, Assembly.reset]
        exact ⟨⟨frame, .inl ⟨rfl, blank⟩⟩, rfl⟩
  · have rejects : ¬a.Accepts sr lo w (symbuf 3).toNat := fun accepts => wanted accepts.1
    rw [mscAssemble_unwanted placed sym s range wanted]
    simp only [Assembler.step, Assembler.events, if_neg rejects, if_neg wanted]
    exact ⟨⟨frame, holds⟩, trivial⟩

end OpenDab
