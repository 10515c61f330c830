import OpenDab.MscStream
import OpenDab.Library.Steps

/-! Lost packets. The assembler notices a loss only through a change of frame number, so
a row of symbols stays unbroken as long as no symbol is inserted behind a missing one. -/
namespace OpenDab

open Buffers

def previous (n lo t : Nat) : Nat := if t % 18 = lo then t - 18 + (n - 1) else t - 1

def Cbuf.Empty (s : Cbuf) : Prop := ∀ i < 16, (s.cb i).syms = 0

/-- A packet that the code is going to insert starts a CIF if the buffer is empty, and otherwise
the wanted symbol before it was received. -/
def Broadcast.Fits (b : Broadcast) (sr : Symrange) (memory : Nat → Nat → UInt8) (ts : List Nat)
    (t : Nat) : Prop :=
  let s := b.feed sr memory ts
  let lo := sr.start 0 - mscstart
  Wanted sr lo (t % 72) → (t % 72 = lo ∨ (b.number (t / 72)).toNat = s.curFrame) →
    (s.cbuf.Empty → t % 18 = lo) ∧ (¬s.cbuf.Empty → previous sr.numsyms lo t ∈ ts)

/-- From the slot after the current one round to the current one, the buffer holds the wanted
symbols of sixteen consecutive CIFs. -/
def HoldsConsecutive (b : Broadcast) (sr : Symrange) (buffer : Cbuf) : Prop :=
  ∃ first, ∀ i < 16, ∀ place < sr.numsyms,
    cell buffer ((buffer.lframe + 1 + i) % 16) place =
      b.symbol (symspercif * (first + i) + (sr.start 0 - mscstart) + place)

theorem Holds.empty_iff {history : List SymbolBits} {s : Cbuf} (holds : Holds n history s) :
    s.Empty ↔ history = [] := by
  rcases holds with ⟨rfl, blank⟩ | ⟨nonempty, filled⟩
  · exact ⟨fun _ => rfl, fun _ => blank.syms⟩
  · refine ⟨fun empty => ?_, fun nil => absurd nil nonempty⟩
    have slot : s.lframe < 16 := by
      rw [filled.lframe]
      exact Nat.mod_lt _ (by decide)
    have started := filled.syms
    rw [empty _ slot] at started
    omega

/-- The wanted symbol before one that is not the first of all is itself wanted. -/
theorem previous_wanted {n lo t : Nat} (inside : lo + n ≤ 18) (low : lo ≤ t % 18)
    (high : t % 18 < lo + n) (second : lo < t) :
    lo ≤ previous n lo t % 18 ∧ previous n lo t % 18 < lo + n := by
  unfold previous
  split <;> omega

/-- A wanted position whose predecessor is item `k` of a row is item `k + 1`. -/
theorem position_next {n lo g k t : Nat} (inside : lo + n ≤ 18) (low : lo ≤ t % 18)
    (high : t % 18 < lo + n) (earlier : position n lo g k < t)
    (reached : previous n lo t ≤ position n lo g k) : position n lo g (k + 1) = t := by
  have positive : 0 < n := by omega
  have place := Nat.mod_lt k positive
  unfold position previous at *
  rcases Ring.next_place k n positive with ⟨last, group, rest⟩ | ⟨inner, group, rest⟩
  · rw [group, rest]
    generalize k / n = c at *
    split at reached <;> omega
  · rw [group, rest]
    generalize k / n = c at *
    split at reached <;> omega

/-- What the packets received so far have left in the abstract assembler: an unbroken row that
ends with the latest wanted symbol received. -/
structure Row (n lo : Nat) (ts history : List Nat) : Prop where
  unbroken : ∃ g, Unbroken n lo g history
  latest : ∀ last, history.getLast? = some last →
    last ∈ ts ∧ ∀ t ∈ ts, lo ≤ t % 18 → t % 18 < lo + n → t ≤ last

theorem Row.nil (n lo : Nat) (ts : List Nat) : Row n lo ts [] :=
  ⟨⟨0, Unbroken.nil n lo 0⟩, fun last same => by simp at same⟩

/-- A symbol outside the sub-channel leaves the row as it is. -/
theorem Row.skip {ts history : List Nat} (row : Row n lo ts history)
    (unwanted : ¬(lo ≤ t % 18 ∧ t % 18 < lo + n)) : Row n lo (ts ++ [t]) history := by
  refine ⟨row.unbroken, fun last same => ?_⟩
  obtain ⟨received, latest⟩ := row.latest last same
  refine ⟨List.mem_append_left _ received, fun x member low high => ?_⟩
  rcases List.mem_append.mp member with old | new
  · exact latest x old low high
  · rw [List.mem_singleton.mp new] at low high
    exact absurd ⟨low, high⟩ unwanted

theorem Row.push {ts history : List Nat} (row : Row n lo ts history) (inside : lo + n ≤ 18)
    (later : ∀ x ∈ ts, x < t) (low : lo ≤ t % 18) (high : t % 18 < lo + n)
    (opens : history = [] → t % 18 = lo) (follows : history ≠ [] → previous n lo t ∈ ts) :
    Row n lo (ts ++ [t]) (history ++ [t]) := by
  constructor
  · cases history with
    | nil =>
      refine ⟨t / 18, ?_⟩
      have item : position n lo (t / 18) 0 = t := by
        have := opens rfl
        simp only [position, Nat.zero_div, Nat.zero_mod]
        omega
      have pushed := (Unbroken.nil n lo (t / 18)).push
      rwa [List.length_nil, item] at pushed
    | cons head tail =>
      obtain ⟨g, unbroken⟩ := row.unbroken
      have last : (head :: tail).getLast? = some (position n lo g tail.length) := by
        rw [List.getLast?_eq_getElem?, List.getElem?_eq_getElem (by simp), unbroken.get]
        simp
      obtain ⟨received, latest⟩ := row.latest _ last
      have earlier := later _ received
      have second : lo < t := by
        unfold position at earlier
        omega
      obtain ⟨prevLow, prevHigh⟩ := previous_wanted inside low high second
      have next := position_next inside low high earlier
        (latest _ (follows (by simp)) prevLow prevHigh)
      refine ⟨g, ?_⟩
      have pushed := unbroken.push
      rwa [List.length_cons, next] at pushed
  · intro last same
    rw [List.getLast?_concat, Option.some.injEq] at same
    subst same
    refine ⟨by simp, fun x member _ _ => ?_⟩
    rcases List.mem_append.mp member with old | new
    · exact (later x old).le
    · exact (List.mem_singleton.mp new).le

section Runs

variable (b : Broadcast) {sr : Symrange} {lo : Nat} (placed : Placed sr lo)
  (memory : Nat → Nat → UInt8)
include placed

theorem first_symbol : sr.start 0 - mscstart = lo := by
  rw [placed.start 0 (by decide)]
  simp [mscstart]

theorem fits_iff (ts : List Nat) (t : Nat) :
    b.Fits sr memory ts t ↔
      ((b.assembler sr lo ts).Accepts sr lo (t % 72) (b.number (t / 72)).toNat →
        ((b.assembler sr lo ts).history = [] → t % 18 = lo) ∧
          ((b.assembler sr lo ts).history ≠ [] → previous sr.numsyms lo t ∈ ts)) := by
  obtain ⟨frame, holds⟩ := b.feed_refines placed memory ts
  simp only [Broadcast.Fits, first_symbol placed, holds.empty_iff, List.map_eq_nil_iff, frame,
    Assembler.Accepts, and_imp, Ne]

/-- One packet that fits extends the row, empties it or leaves it alone. -/
theorem Row.step {ts : List Nat} {t : Nat}
    (row : Row sr.numsyms lo ts (b.assembler sr lo ts).history) (later : ∀ x ∈ ts, x < t)
    (fits : b.Fits sr memory ts t) :
    Row sr.numsyms lo (ts ++ [t]) (b.assembler sr lo (ts ++ [t])).history := by
  rw [fits_iff b placed] at fits
  rw [Broadcast.assembler_append]
  generalize b.assembler sr lo ts = a at row fits
  have range := wanted_iff sr lo t
  by_cases accepts : a.Accepts sr lo (t % 72) (b.number (t / 72)).toNat
  · rw [Assembler.step, if_pos accepts]
    obtain ⟨opens, follows⟩ := fits accepts
    obtain ⟨low, high⟩ := range.mp accepts.1
    exact row.push placed.inside later low high opens follows
  · rw [Assembler.step, if_neg accepts]
    by_cases wanted : Wanted sr lo (t % 72)
    · rw [if_pos wanted]
      exact Row.nil _ _ _
    · rw [if_neg wanted]
      exact row.skip fun inRange => wanted (range.mpr inRange)

theorem row_of_fits (ts : List Nat) (ordered : ts.Pairwise (· < ·))
    (fits : ∀ before t, before ++ [t] <+: ts → b.Fits sr memory before t) :
    Row sr.numsyms lo ts (b.assembler sr lo ts).history := by
  induction ts using List.reverseRecOn with
  | nil => exact Row.nil _ _ _
  | append_singleton ts t ih =>
    have earlier := List.pairwise_append.mp ordered
    obtain ⟨before, last⟩ := Steps.forall_push.mp fits
    have row := ih earlier.1 before
    exact row.step b placed memory (fun x member => earlier.2.2 x member t (by simp)) last

/-- When the last packet of a row completes a CIF behind 15 others, the buffer holds them all. -/
theorem consecutive_of_row {ts : List Nat} {t : Nat}
    (row : Row sr.numsyms lo (ts ++ [t]) (b.assembler sr lo (ts ++ [t])).history)
    (decodes : MscEvent.decode ∈ b.calls sr memory ts t) :
    HoldsConsecutive b sr (b.feed sr memory (ts ++ [t])).cbuf := by
  rw [b.calls_eq placed memory, Assembler.decode_iff] at decodes
  obtain ⟨accepts, late, complete⟩ := decodes
  obtain ⟨-, holds⟩ := b.feed_refines placed memory (ts ++ [t])
  rw [Broadcast.assembler_append, Assembler.step, if_pos accepts] at row holds
  obtain ⟨g, unbroken⟩ := row.unbroken
  have filled := holds.filled (by simp)
  have lframe := filled.lframe
  simp only [List.length_map, List.length_append, List.length_singleton, Nat.add_sub_cancel] at lframe
  generalize (b.assembler sr lo ts).history = history at *
  refine ⟨g + (history.length / sr.numsyms - 15), fun i bound place inside => ?_⟩
  have slot : ((b.feed sr memory (ts ++ [t])).cbuf.lframe + 1 + i) % 16 =
      (history.length / sr.numsyms - 15 + i) % 16 := by
    rw [lframe]
    generalize history.length / sr.numsyms = c at *
    omega
  have early : history.length / sr.numsyms - 15 + i ≤ history.length / sr.numsyms := by
    generalize history.length / sr.numsyms = c at *
    omega
  have cells := unbroken.cells filled (history.length / sr.numsyms - 15 + i) place inside ?_ ?_
  · rw [slot, cells, first_symbol placed, ← Nat.add_assoc]
    rfl
  · simp only [List.length_append, List.length_singleton]
    exact Nat.lt_succ_of_le (Ring.group_complete complete early inside)
  · simp only [List.length_append, List.length_singleton, Nat.add_sub_cancel]
    generalize history.length / sr.numsyms = c at *
    omega

end Runs

/-- In every run whose packets all fit behind those received, each `msc_decode` finds sixteen
consecutive CIFs in the buffer. -/
theorem decode_consecutive (b : Broadcast) (r : Symrange) (s : Subch)
    (memory : Nat → Nat → UInt8) (inside : s.startaddr + s.subchsz < 864) (ts : List Nat)
    (ordered : ts.Pairwise (· < ·))
    (fits : ∀ before t, before ++ [t] <+: ts → b.Fits (startsym r s) memory before t) :
    ∀ before t, before ++ [t] <+: ts →
      MscEvent.decode ∈ b.calls (startsym r s) memory before t →
      HoldsConsecutive b (startsym r s) (b.feed (startsym r s) memory (before ++ [t])).cbuf := by
  intro before t reached decodes
  have placed := startsym_placed r s inside
  refine consecutive_of_row b placed memory (row_of_fits b placed memory _ ?_ ?_) decodes
  · exact ordered.sublist reached.sublist
  · exact fun earlier x prefixed => fits earlier x (prefixed.trans reached)

/-- CIF 1 of a one-symbol sub-channel is lost inside frame 0. Nothing is reset, and at the first
`msc_decode` the buffer holds CIF 0 followed by CIFs 2 to 16. -/
theorem lost_cif_is_skipped :
    let sr := startsym ⟨fun _ => 0, fun _ => 0, 0, 0, 0⟩ ⟨0, 0, 1, 8, 1, 0, 0, 0⟩
    let b := Broadcast.flat fun t => if t = 0 ∨ t = 36 then 255 else 0
    let ts := 0 :: (List.range 14).map (18 * · + 36)
    (ts ++ [288]).Pairwise (· < ·) ∧ MscEvent.decode ∈ b.calls sr (fun _ _ => 0) ts 288 ∧
      ¬HoldsConsecutive b sr (b.feed sr (fun _ _ => 0) (ts ++ [288])).cbuf := by
  intro sr b ts
  have placed : Placed sr 0 := startsym_placed _ _ (by decide)
  have inserted : (b.assembler sr 0 ts).history = ts := by decide +kernel
  have accepts : (b.assembler sr 0 ts).Accepts sr 0 (288 % 72) (b.number (288 / 72)).toNat := by
    decide +kernel
  refine ⟨by decide, ?_, ?_⟩
  · rw [b.calls_eq placed, Assembler.decode_iff, inserted]
    exact ⟨accepts, by decide +kernel⟩
  · rintro ⟨first, consecutive⟩
    obtain ⟨-, holds⟩ := b.feed_refines placed (fun _ _ => 0) (ts ++ [288])
    rw [Broadcast.assembler_append, Assembler.step, if_pos accepts, inserted] at holds
    have filled := holds.filled (by simp)
    have one : sr.numsyms = 1 := by decide +kernel
    rw [one] at filled
    have slot (k : Nat) (bound : k < (ts ++ [288]).length) :
        b.symbol (18 * (first + k)) = b.symbol (ts ++ [288])[k] := by
      have stored := filled.held.lookup k 0 (by decide) (by simpa using bound) (by simp [ts])
      have wanted := consecutive k bound 0 (by omega)
      have start : sr.start 0 - mscstart = 0 := first_symbol placed
      have newest : ((ts ++ [288]).length - 1) / 1 % 16 + 1 + k = 16 + k := by
        simp [ts]
      rw [filled.lframe] at wanted
      simp only [List.length_map, Nat.mul_one, List.getElem_map, newest, start, Nat.add_mod_left,
        Nat.add_zero] at wanted stored
      exact wanted.symm.trans stored
    obtain ⟨w, small, value⟩ := flat_symbol ⟨0, by decide⟩
    have oldest := congrFun (slot 0 (by decide)) ⟨0, by decide⟩
    have next := congrFun (slot 1 (by decide)) ⟨0, by decide⟩
    simp only [b, value] at oldest next
    have lit (t : Nat) (same : bitAt (if t = 0 ∨ t = 36 then 255 else 0) w = bitAt 255 w) :
        t = 0 ∨ t = 36 := by
      have dark : ∀ w < 8, bitAt 0 w ≠ bitAt 255 w := by decide
      by_contra neither
      rw [if_neg neither] at same
      exact dark w small same
    have head := lit _ oldest
    have second := lit _ next
    omega

/-- Symbol 72 of a one-symbol sub-channel is lost. The others of frame 1 reset the buffer, and those
from frame 2 on fill it. -/
def behindLoss : List Nat := [0, 18, 36, 54, 90, 108, 126] ++ (List.range 15).map (18 * · + 144)

theorem decode_consecutive_behind_loss :
    let sr := startsym ⟨fun _ => 0, fun _ => 0, 0, 0, 0⟩ ⟨0, 0, 1, 8, 1, 0, 0, 0⟩
    let b := Broadcast.flat fun t => UInt8.ofNat t
    MscEvent.decode ∈ b.calls sr (fun _ _ => 0) behindLoss 414 ∧
      HoldsConsecutive b sr (b.feed sr (fun _ _ => 0) (behindLoss ++ [414])).cbuf := by
  intro sr b
  have placed : Placed sr 0 := startsym_placed _ _ (by decide)
  have decodes : MscEvent.decode ∈ b.calls sr (fun _ _ => 0) behindLoss 414 := by
    rw [b.calls_eq placed, Assembler.decode_iff]
    decide +kernel
  have fits : ∀ before t, before ++ [t] <+: behindLoss ++ [414] → b.Fits sr (fun _ _ => 0) before t := by
    intro before t reached
    rw [fits_iff b placed]
    revert before t
    apply Steps.forall_of_take
    decide +kernel
  exact ⟨decodes, decode_consecutive b ⟨fun _ => 0, fun _ => 0, 0, 0, 0⟩ ⟨0, 0, 1, 8, 1, 0, 0, 0⟩
    (fun _ _ => 0) (by decide) (behindLoss ++ [414]) (by decide) fits behindLoss 414 List.prefix_rfl
    decodes⟩

end OpenDab
