import OpenDab.Msc

/-! The circular buffer after any history of insertions since the last reset. The
history is the abstract state; every field of the buffer is a function of its length,
and each slot holds the most recent group of symbols that belongs to it. -/
namespace OpenDab

open Buffers

structure Linked (s : Cbuf) : Prop where
  index : ∀ i < 16, (s.cb i).index = i
  next : ∀ i < 16, (s.cb i).next = (i + 1) % 16

/-- Writing a slot keeps the ring if the slot keeps its number and its successor. -/
theorem Linked.write {s t : Cbuf} (linked : Linked s) {slot : Nat} {b : Blist}
    (written : t.cb = store s.cb slot b) (index : b.index = (s.cb slot).index)
    (next : b.next = (s.cb slot).next) : Linked t := by
  have fields : ∀ i, (t.cb i).index = (s.cb i).index ∧ (t.cb i).next = (s.cb i).next := by
    intro i
    rw [written, store_apply]
    split
    · next same => rw [same]; exact ⟨index, next⟩
    · exact ⟨rfl, rfl⟩
  refine ⟨fun i hi => ?_, fun i hi => ?_⟩
  · rw [(fields i).1, linked.index i hi]
  · rw [(fields i).2, linked.next i hi]

def cell (s : Cbuf) (slot place : Nat) : SymbolBits :=
  fun b => (s.cb slot).data (place * bitspersym + b)

structure Blank (s : Cbuf) : Prop where
  full : s.full = false
  started : s.first = false → Linked s ∧ s.lframe = 0 ∧ s.head = 0
  syms : ∀ i < 16, (s.cb i).syms = 0

/-- The buffer after `count` insertions, the last of them still the current symbol. -/
structure Filled (n : Nat) (history : List SymbolBits) (s : Cbuf) : Prop where
  first : s.first = false
  linked : Linked s
  lframe : s.lframe = (history.length - 1) / n % 16
  head : s.head = (history.length - 1) / n % 16
  syms : (s.cb s.lframe).syms = (history.length - 1) % n + 1
  full : s.full = decide (15 ≤ (history.length - 1) / n)
  held : Ring.Held n 16 history (cell s)

/-- The abstraction relation between the buffer and its insertion history. -/
def Holds (n : Nat) (history : List SymbolBits) (s : Cbuf) : Prop :=
  (history = [] ∧ Blank s) ∨ (history ≠ [] ∧ Filled n history s)

/-- Ready to write item number `history.length`: its slot is current and its place is next. -/
structure Ready (n : Nat) (history : List SymbolBits) (s : Cbuf) : Prop where
  first : s.first = false
  linked : Linked s
  lframe : s.lframe = history.length / n % 16
  head : s.head = history.length / n % 16
  syms : (s.cb s.lframe).syms = history.length % n
  full : s.full = decide (history ≠ [] ∧ 15 ≤ (history.length - 1) / n)
  held : Ring.Held n 16 history (cell s)

theorem initCbuf_linked (s : Cbuf) : Linked (initCbuf s) ∧ ∀ i < 16, ((initCbuf s).cb i).syms = 0 := by
  have fields : ∀ i < 16, ((initCbuf s).cb i).index = i ∧ ((initCbuf s).cb i).next = (i + 1) % 16 ∧
      ((initCbuf s).cb i).syms = 0 := by
    unfold initCbuf
    apply loop_invariant (fun k (cb : Nat → Blist) => ∀ i < k, (cb i).index = i ∧
      (cb i).next = (i + 1) % 16 ∧ (cb i).syms = 0)
    · intro i hi
      omega
    · intro k _ cb before i hi
      by_cases same : i = k
      · subst same
        simp
      · rw [store_other _ _ same]
        exact before i (by omega)
  exact ⟨⟨fun i hi => (fields i hi).1, fun i hi => (fields i hi).2.1⟩, fun i hi => (fields i hi).2.2⟩

theorem wcbuf_reset (n : Nat) (history : List SymbolBits) (symdata : Nat → UInt8) (len : Nat)
    (sr : Symrange) (s : Cbuf) (holds : Holds n history s) :
    Blank (wcbuf symdata len sr true s).1 ∧ (wcbuf symdata len sr true s).2 = false := by
  have fields : ∀ i, ((wcbuf symdata len sr true s).1.cb i).index = (s.cb i).index ∧
      ((wcbuf symdata len sr true s).1.cb i).next = (s.cb i).next ∧
      (i < 16 → ((wcbuf symdata len sr true s).1.cb i).syms = 0) := by
    simp only [wcbuf, if_true]
    apply loop_invariant (fun k (cb : Nat → Blist) => ∀ i, (cb i).index = (s.cb i).index ∧
      (cb i).next = (s.cb i).next ∧ (i < k → (cb i).syms = 0))
    · exact fun i => ⟨rfl, rfl, fun hi => absurd hi (Nat.not_lt_zero i)⟩
    · intro k _ cb before i
      by_cases same : i = k
      · subst same
        simp [before i]
      · rw [store_other _ _ same]
        exact ⟨(before i).1, (before i).2.1, fun hi => (before i).2.2 (by omega)⟩
  have linked : s.first = false → Linked s := by
    rcases holds with ⟨-, blank⟩ | ⟨-, filled⟩
    · exact fun started => (blank.started started).1
    · exact fun _ => filled.linked
  refine ⟨⟨rfl, fun started => ⟨⟨fun i hi => ?_, fun i hi => ?_⟩, rfl, rfl⟩,
    fun i hi => (fields i).2.2 hi⟩, rfl⟩
  · rw [(fields i).1, (linked started).index i hi]
  · rw [(fields i).2.1, (linked started).next i hi]

/-- Before the first insertion the setup makes the buffer ready for slot 0. -/
theorem setup_blank (n : Nat) (s : Cbuf) (blank : Blank s) : Ready n [] s.setup := by
  by_cases fresh : s.first = true
  · obtain ⟨linked, syms⟩ := initCbuf_linked s
    simp only [Cbuf.setup, fresh, if_true]
    refine ⟨rfl, ⟨linked.index, linked.next⟩, by simp, by simp, ?_, ?_, Ring.Held.nil _ _ _⟩
    · simpa using syms 0 (by decide)
    · simpa [initCbuf] using blank.full
  · have started := Bool.eq_false_iff.mpr fresh
    obtain ⟨linked, lframe, head⟩ := blank.started started
    have same : s.setup = s := by simp [Cbuf.setup, started]
    rw [same]
    refine ⟨started, linked, by simpa using lframe, by simpa using head, ?_, by simpa using blank.full,
      Ring.Held.nil _ _ _⟩
    rw [lframe]
    simpa using blank.syms 0 (by decide)

theorem setup_filled (n : Nat) (history : List SymbolBits) (s : Cbuf)
    (filled : Filled n history s) : s.setup = s := by
  simp [Cbuf.setup, filled.first]

/-- After `k + 1` items the lazy advance moves on exactly when their group is complete. -/
theorem advance_filled (sr : Symrange) (history : List SymbolBits) (s : Cbuf)
    (positive : 0 < sr.numsyms) (nonempty : history ≠ [])
    (filled : Filled sr.numsyms history s) : Ready sr.numsyms history (s.advance sr) := by
  obtain ⟨k, length⟩ : ∃ k, history.length = k + 1 :=
    Nat.exists_eq_succ_of_ne_zero (by simpa using nonempty)
  obtain ⟨first, linked, lframe, head, syms, full, held⟩ := filled
  rw [length, Nat.add_sub_cancel] at lframe head syms full
  have slot : s.lframe < 16 := by omega
  rcases Ring.next_place k sr.numsyms positive with ⟨last, group, place⟩ | ⟨inner, group, place⟩
  · have complete : (s.cb s.lframe).syms = sr.numsyms := by rw [syms, last]
    have target : (s.cb ((s.cb s.lframe).next)).index = (k + 1) / sr.numsyms % 16 := by
      rw [linked.next _ slot, linked.index _ (Nat.mod_lt _ (by decide)), lframe, group]
      omega
    simp only [Cbuf.advance, complete, if_true, target]
    refine ⟨first, linked.write rfl rfl rfl, by rw [length], ?_, ?_, ?_, ?_⟩
    · show (s.head + 1) % 16 = history.length / sr.numsyms % 16
      rw [length, head, group]
      omega
    · rw [length, place]
      simp
    · rw [full, length, Nat.add_sub_cancel]
      simp [nonempty]
    · have data : cell { s with
          head := (s.head + 1) % 16, lfp := (s.cb s.lframe).next
          lframe := (k + 1) / sr.numsyms % 16
          cb := store s.cb ((k + 1) / sr.numsyms % 16)
            { s.cb ((k + 1) / sr.numsyms % 16) with syms := 0 } } = cell s := by
        funext slot place b
        simp only [cell, store_apply]
        split
        · next same => rw [same]
        · rfl
      rw [data]
      exact held
  · have partly : (s.cb s.lframe).syms ≠ sr.numsyms := by rw [syms]; omega
    have same : s.advance sr = s := by simp [Cbuf.advance, partly]
    rw [same]
    refine ⟨first, linked, by rw [length, lframe, group], by rw [length, head, group],
      by rw [length, syms, place], ?_, held⟩
    rw [full, length, Nat.add_sub_cancel]
    simp [nonempty]

theorem advance_blank (sr : Symrange) (s : Cbuf) (positive : 0 < sr.numsyms)
    (ready : Ready sr.numsyms [] s) : s.advance sr = s := by
  have empty : (s.cb s.lframe).syms ≠ sr.numsyms := by
    have := ready.syms
    simp only [List.length_nil, Nat.zero_mod] at this
    omega
  simp [Cbuf.advance, empty]

theorem ready_of_holds (sr : Symrange) (history : List SymbolBits) (s : Cbuf)
    (positive : 0 < sr.numsyms) (holds : Holds sr.numsyms history s) :
    Ready sr.numsyms history (s.setup.advance sr) := by
  rcases holds with ⟨rfl, blank⟩ | ⟨nonempty, filled⟩
  · have ready := setup_blank sr.numsyms s blank
    rw [advance_blank sr _ positive ready]
    exact ready
  · rw [setup_filled _ _ _ filled]
    exact advance_filled sr history s positive nonempty filled

theorem symbolBit_lt (b : Fin 3072) : b.val < bitspersym := by
  simp [bitspersym, cuspersym]

/-- The buffer's `full` flag after the slot test of `wcbuf`. -/
theorem full_after (k n : Nat) (positive : 0 < n) (full : Bool) (fresh : Bool)
    (before : full = decide (fresh = false ∧ 15 ≤ (k - 1) / n)) (start : fresh = true → k = 0) :
    (if k / n % 16 = 15 then true else full) = decide (15 ≤ k / n) := by
  cases k with
  | zero => simp [before]
  | succ k =>
    have old : fresh = false := by
      cases fresh
      · rfl
      · exact absurd (start rfl) (by omega)
    rw [before, old, Nat.add_sub_cancel]
    rcases Ring.next_place k n positive with ⟨-, group, -⟩ | ⟨-, group, -⟩
    · rw [group]
      generalize k / n = g
      split
      · next slot => exact (decide_eq_true (show 15 ≤ g + 1 by omega)).symm
      · next slot =>
        simp only [true_and, decide_eq_decide]
        omega
    · rw [group]
      generalize k / n = g
      split
      · next slot => exact (decide_eq_true (show 15 ≤ g by omega)).symm
      · simp only [true_and]

theorem append_ready (sr : Symrange) (history : List SymbolBits) (s : Cbuf) (symdata : Nat → UInt8)
    (positive : 0 < sr.numsyms) (ready : Ready sr.numsyms history s) :
    Filled sr.numsyms (history ++ [symbolBits symdata])
      (Cbuf.append symdata bitspersym sr s).1 ∧
    (Cbuf.append symdata bitspersym sr s).2 =
      decide (15 ≤ history.length / sr.numsyms ∧
        history.length % sr.numsyms + 1 = sr.numsyms) := by
  obtain ⟨first, linked, lframe, head, syms, full, held⟩ := ready
  have room : (s.cb s.lframe).syms < sr.numsyms := by rw [syms]; exact Nat.mod_lt _ positive
  have nowFull := full_after history.length sr.numsyms positive s.full history.isEmpty
    (by cases history <;> simpa using full) (by cases history <;> simp)
  have last : (history ++ [symbolBits symdata]).length - 1 = history.length := by simp
  have result : ∀ t, t = (Cbuf.append symdata bitspersym sr s).1 →
      t.first = s.first ∧ t.lframe = s.lframe ∧ t.head = s.head ∧
      t.full = (if s.lframe = 15 then true else s.full) ∧
      t.cb = store s.cb s.lframe { s.cb s.lframe with
        data := copy (s.cb s.lframe).data ((s.cb s.lframe).syms * bitspersym) symdata bitspersym
        syms := (s.cb s.lframe).syms + 1 } := by
    rintro t rfl
    simp only [Cbuf.append, room, if_true]
    split <;> simp
  generalize written : (Cbuf.append symdata bitspersym sr s).1 = t at result ⊢
  obtain ⟨tfirst, tlframe, thead, tfull, tcb⟩ := result t rfl
  refine ⟨⟨by rw [tfirst, first], linked.write tcb rfl rfl, by rw [tlframe, last, lframe],
    by rw [thead, last, head], ?_, ?_, ?_⟩, ?_⟩
  · rw [tcb, tlframe, store_same, last, ← syms]
  · rw [tfull, last, lframe, nowFull]
  · refine held.push positive ?_ ?_
    · funext b
      rw [← lframe, ← syms]
      simp only [cell, tcb, store_same]
      exact copy_inside _ _ _ (symbolBit_lt b)
    · intro slot place _ inside apart
      funext b
      simp only [cell, tcb]
      by_cases same : slot = s.lframe
      · subst same
        have other : place ≠ history.length % sr.numsyms := fun eq => apart ⟨lframe, eq⟩
        have bound := b.isLt
        rw [store_same]
        refine copy_outside _ _ ?_
        rw [syms]
        simp only [bitspersym, cuspersym]
        rcases Nat.lt_or_gt_of_ne other with lt | gt <;> omega
      · rw [store_other _ _ same]
  · have complete : (Cbuf.append symdata bitspersym sr s).2 =
        ((if s.lframe = 15 then true else s.full) && ((s.cb s.lframe).syms + 1 == sr.numsyms)) := by
      simp only [Cbuf.append, room, if_true]
      split <;> simp
    rw [complete, syms, lframe, nowFull, Bool.decide_and]
    rfl

/-- Insertion appends to the history; the return value signals the end of a group from the
sixteenth group on. -/
theorem wcbuf_insert (sr : Symrange) (history : List SymbolBits) (s : Cbuf)
    (symdata : Nat → UInt8) (positive : 0 < sr.numsyms) (holds : Holds sr.numsyms history s) :
    Filled sr.numsyms (history ++ [symbolBits symdata])
      (wcbuf symdata bitspersym sr false s).1 ∧
    (wcbuf symdata bitspersym sr false s).2 =
      decide (15 ≤ history.length / sr.numsyms ∧
        history.length % sr.numsyms + 1 = sr.numsyms) := by
  simp only [wcbuf, Bool.false_eq_true, if_false]
  exact append_ready sr history _ symdata positive (ready_of_holds sr history s positive holds)

theorem Holds.filled {n : Nat} {history : List SymbolBits} {s : Cbuf} (holds : Holds n history s)
    (nonempty : history ≠ []) : Filled n history s :=
  holds.elim (fun blank => absurd blank.1 nonempty) And.right

theorem holds_push {n : Nat} {history : List SymbolBits} {item : SymbolBits} {s : Cbuf}
    (filled : Filled n (history ++ [item]) s) : Holds n (history ++ [item]) s :=
  .inr ⟨by simp, filled⟩

end OpenDab
