import OpenDab.Library.Buffers
import Mathlib.Data.List.Induction
import Mathlib.Tactic.Common

/-! Assembly of the three FIC symbols of a frame. The set of symbols received since
symbol 2 is kept by or-ing the symbol numbers 3 and 4 to the 8 that symbol 2 leaves. -/
namespace OpenDab

open Buffers

structure FicState where
  symFlags : UInt8
  curFrame : UInt8
  ficsyms : Nat → UInt8

def FicState.initial : FicState := ⟨0, 0, fun _ => 0⟩

/-- The new state, and whether `process_fic` was called on `ficsyms`. -/
def ficAssemble (rdbuf : Nat → UInt8) (s : FicState) : FicState × Bool :=
  let sym := rdbuf 2
  let frame := rdbuf 3
  if sym = 2 then
    ({ s with
        curFrame := frame, symFlags := 8
        ficsyms := copy s.ficsyms 0 (shift rdbuf 12) 384 }, false)
  else
    let s := if frame = s.curFrame then
        { s with
          symFlags := s.symFlags ||| sym
          ficsyms := copy s.ficsyms (384 * (sym.toNat - 2)) (shift rdbuf 12) 384 }
      else { s with symFlags := 0 }
    if s.symFlags = 15 then ({ s with symFlags := 0 }, true) else (s, false)

def ficRun (packets : List (Nat → UInt8)) : FicState :=
  packets.foldl (fun s rdbuf => (ficAssemble rdbuf s).1) FicState.initial

def Processes (before : List (Nat → UInt8)) (packet : Nat → UInt8) : Prop :=
  (ficAssemble packet (ficRun before)).2 = true

def FicSymbol (packet : Nat → UInt8) : Prop := packet 2 = 2 ∨ packet 2 = 3 ∨ packet 2 = 4

def latest (sym : UInt8) (packets : List (Nat → UInt8)) : Option (Nat → UInt8) :=
  packets.reverse.find? (· 2 = sym)

def Slot (ficsyms : Nat → UInt8) (k : Nat) (packet : Nat → UInt8) : Prop :=
  ∀ a < 384, ficsyms (384 * k + a) = packet (12 + a)

theorem slot_same (ficsyms : Nat → UInt8) (k : Nat) (packet : Nat → UInt8) :
    Slot (copy ficsyms (384 * k) (shift packet 12) 384) k packet :=
  fun _ inside => copy_inside _ _ _ inside

theorem slot_other {ficsyms : Nat → UInt8} {j k : Nat} {packet : Nat → UInt8} (apart : k ≠ j)
    (held : Slot ficsyms k packet) (src : Nat → UInt8) :
    Slot (copy ficsyms (384 * j) src 384) k packet := by
  intro a inside
  rw [copy_outside _ _ (by omega)]
  exact held a inside

@[simp] theorem latest_append (sym : UInt8) (packets : List (Nat → UInt8)) (p : Nat → UInt8) :
    latest sym (packets ++ [p]) = if p 2 = sym then some p else latest sym packets := by
  by_cases hit : p 2 = sym <;> simp [latest, hit]

@[simp] theorem ficRun_append (packets : List (Nat → UInt8)) (p : Nat → UInt8) :
    ficRun (packets ++ [p]) = (ficAssemble p (ficRun packets)).1 := by
  simp [ficRun]

structure Gathered (packets : List (Nat → UInt8)) (s : FicState) (second : Nat → UInt8)
    (rest : List (Nat → UInt8)) : Prop where
  since : ∃ before, packets = before ++ second :: rest
  first : second 2 = 2
  later : ∀ p ∈ rest, p 2 ≠ 2 ∧ p 3 = second 3
  frame : s.curFrame = second 3
  slot0 : Slot s.ficsyms 0 second
  slot1 : ∀ p, latest 3 rest = some p → Slot s.ficsyms 1 p
  slot2 : ∀ p, latest 4 rest = some p → Slot s.ficsyms 2 p

/-- A later symbol of the same frame joins what has been gathered. -/
theorem Gathered.push {packets rest : List (Nat → UInt8)} {s : FicState} {second p : Nat → UInt8}
    (gathered : Gathered packets s second rest) (symbol : p 2 = 3 ∨ p 2 = 4)
    (same : p 3 = s.curFrame) (flags : UInt8) :
    Gathered (packets ++ [p]) ⟨flags, s.curFrame,
      copy s.ficsyms (384 * ((p 2).toNat - 2)) (shift p 12) 384⟩ second (rest ++ [p]) := by
  obtain ⟨⟨before, since⟩, first, later, frame, slot0, slot1, slot2⟩ := gathered
  refine ⟨⟨before, by simp [since]⟩, first, ?_, frame, ?_, ?_, ?_⟩
  · intro q member
    rcases List.mem_append.mp member with old | new
    · exact later q old
    · rw [List.mem_singleton.mp new, same, frame]
      refine ⟨fun two => ?_, rfl⟩
      rw [two] at symbol
      exact absurd symbol (by decide)
  all_goals rcases symbol with three | four
  · rw [three]
    exact slot_other (by decide) slot0 _
  · rw [four]
    exact slot_other (by decide) slot0 _
  · intro q newest
    rw [latest_append, if_pos three, Option.some.injEq] at newest
    rw [three, ← newest]
    exact slot_same _ 1 p
  · intro q newest
    rw [latest_append, if_neg (by rw [four]; decide)] at newest
    rw [four]
    exact slot_other (by decide) (slot1 q newest) _
  · intro q newest
    rw [latest_append, if_neg (by rw [three]; decide)] at newest
    rw [three]
    exact slot_other (by decide) (slot2 q newest) _
  · intro q newest
    rw [latest_append, if_pos four, Option.some.injEq] at newest
    rw [four, ← newest]
    exact slot_same _ 2 p

def flagBits (three four : Bool) : UInt8 :=
  8 ||| (if three then 3 else 0) ||| (if four then 4 else 0)

def flagsOf (rest : List (Nat → UInt8)) : UInt8 :=
  flagBits (latest 3 rest).isSome (latest 4 rest).isSome

/-- Either symbol 2 is missing from the flags, or they describe what has been gathered and a
symbol is still missing. -/
def Tracks (packets : List (Nat → UInt8)) (s : FicState) : Prop :=
  s.symFlags ∈ [0, 3, 4, 7] ∨
    ∃ second rest, Gathered packets s second rest ∧ s.symFlags = flagsOf rest ∧ s.symFlags ≠ 15

theorem flagsOf_push {p : Nat → UInt8} (symbol : p 2 = 3 ∨ p 2 = 4) (rest : List (Nat → UInt8)) :
    flagsOf (rest ++ [p]) = flagsOf rest ||| p 2 := by
  have first : ∀ three four, flagBits true four = flagBits three four ||| 3 := by decide
  have second : ∀ three four, flagBits three true = flagBits three four ||| 4 := by decide
  unfold flagsOf
  rcases symbol with three | four
  · rw [latest_append, latest_append, three, if_pos rfl, if_neg (by decide)]
    exact first _ _
  · rw [latest_append, latest_append, four, if_pos rfl, if_neg (by decide)]
    exact second _ _

theorem flagsOf_full {rest : List (Nat → UInt8)} (full : flagsOf rest = 15) :
    (latest 3 rest).isSome ∧ (latest 4 rest).isSome := by
  have both : ∀ three four, flagBits three four = 15 → three = true ∧ four = true := by decide
  exact both _ _ full

theorem ficAssemble_called {s : FicState} {p : Nat → UInt8} (called : (ficAssemble p s).2 = true) :
    (ficAssemble p s).1.symFlags = 0 := by
  unfold ficAssemble at *
  grind

/-- A symbol 3 or 4 of the current frame is or-ed into the flags. -/
theorem ficAssemble_same {s : FicState} {p : Nat → UInt8} (two : p 2 ≠ 2)
    (same : p 3 = s.curFrame) : (ficAssemble p s).2 = decide (s.symFlags ||| p 2 = 15) ∧
      (s.symFlags ||| p 2 ≠ 15 → (ficAssemble p s).1.symFlags = s.symFlags ||| p 2) ∧
      (ficAssemble p s).1.curFrame = s.curFrame := by
  by_cases full : s.symFlags ||| p 2 = 15 <;> simp [ficAssemble, two, same, full]

/-- Without symbol 2 the flags cannot become complete. -/
theorem incomplete_step {s : FicState} (small : s.symFlags ∈ [0, 3, 4, 7]) {p : Nat → UInt8}
    (symbol : p 2 = 3 ∨ p 2 = 4) :
    (ficAssemble p s).1.symFlags ∈ [0, 3, 4, 7] ∧ (ficAssemble p s).2 = false := by
  have next : ∀ f ∈ [0, 3, 4, 7], ∀ sym ∈ [3, 4],
      (f ||| sym : UInt8) ∈ [0, 3, 4, 7] ∧ (f ||| sym : UInt8) ≠ 15 := by
    simp only [List.mem_cons, List.not_mem_nil, or_false]
    rintro f (rfl | rfl | rfl | rfl) sym (rfl | rfl) <;> decide
  have two : p 2 ≠ 2 := fun two => absurd (two ▸ symbol) (by decide)
  simp only [ficAssemble, if_neg two]
  by_cases same : p 3 = s.curFrame
  · obtain ⟨stays, partly⟩ := next _ small (p 2) (by simpa using symbol)
    simp only [if_pos same, if_neg partly]
    exact ⟨stays, trivial⟩
  · simp only [if_neg same, show (0 : UInt8) ≠ 15 by decide, if_false]
    exact ⟨by simp, trivial⟩

/-- One packet: the flags go on describing what has been gathered, and `process_fic` is called
when they become complete. -/
theorem Tracks.step {packets : List (Nat → UInt8)} (tracks : Tracks packets (ficRun packets))
    (p : Nat → UInt8) (symbol : FicSymbol p) :
    Tracks (packets ++ [p]) (ficRun (packets ++ [p])) ∧
    (Processes packets p → ∃ second rest, Gathered (packets ++ [p]) (ficRun (packets ++ [p])) second rest ∧
      (latest 3 rest).isSome ∧ (latest 4 rest).isSome) := by
  rw [ficRun_append, Processes]
  generalize ficRun packets = s at tracks
  by_cases two : p 2 = 2
  · have started : Gathered (packets ++ [p]) (ficAssemble p s).1 p [] := by
      simp only [ficAssemble, if_pos two]
      exact ⟨⟨packets, rfl⟩, two, by simp, rfl, slot_same _ 0 p, by simp [latest], by simp [latest]⟩
    refine ⟨.inr ⟨p, [], started, ?_⟩, fun called => ?_⟩
    · simp only [ficAssemble, if_pos two]
      decide
    · simp [ficAssemble, if_pos two] at called
  · have other : p 2 = 3 ∨ p 2 = 4 := symbol.resolve_left two
    rcases tracks with small | ⟨second, rest, gathered, flags, -⟩
    · obtain ⟨stays, uncalled⟩ := incomplete_step small other
      exact ⟨.inl stays, fun called => by simp [uncalled] at called⟩
    · simp only [ficAssemble, if_neg two]
      by_cases same : p 3 = s.curFrame
      · have pushed := fun f => gathered.push other same f
        have union := flagsOf_push other rest
        rw [← flags] at union
        simp only [if_pos same]
        by_cases full : s.symFlags ||| p 2 = 15
        · rw [if_pos full]
          exact ⟨.inl (by simp), fun _ => ⟨second, rest ++ [p], pushed 0,
            flagsOf_full (union.trans full)⟩⟩
        · rw [if_neg full]
          exact ⟨.inr ⟨second, rest ++ [p], pushed _, union.symm, full⟩,
            fun called => absurd called (by simp)⟩
      · simp only [if_neg same, show (0 : UInt8) ≠ 15 by decide, if_false]
        exact ⟨.inl (by simp), fun called => absurd called (by simp)⟩

theorem tracks_run (packets : List (Nat → UInt8)) (symbols : ∀ p ∈ packets, FicSymbol p) :
    Tracks packets (ficRun packets) := by
  induction packets using List.reverseRecOn with
  | nil => exact .inl (by decide)
  | append_singleton packets p ih =>
    have earlier := ih fun q member => symbols q (List.mem_append_left _ member)
    exact (earlier.step p (symbols p (by simp))).1

theorem latest_since (sym : UInt8) (before rest : List (Nat → UInt8)) :
    latest sym (before ++ rest) = (latest sym rest).or (latest sym before) := by
  simp [latest, List.find?_append]

/-- The slots hold the latest packets with symbols 2, 3 and 4, the last two received since the
first and all three carrying its frame number. -/
def HoldsFrame (packets : List (Nat → UInt8)) (ficsyms : Nat → UInt8) : Prop :=
  ∃ before second rest third fourth, packets = before ++ second :: rest ∧
    latest 2 packets = some second ∧ latest 3 packets = some third ∧
    latest 4 packets = some fourth ∧ third ∈ rest ∧ fourth ∈ rest ∧
    third 3 = second 3 ∧ fourth 3 = second 3 ∧
    Slot ficsyms 0 second ∧ Slot ficsyms 1 third ∧ Slot ficsyms 2 fourth

theorem latest_mem {sym : UInt8} {packets : List (Nat → UInt8)} {p : Nat → UInt8}
    (found : latest sym packets = some p) : p ∈ packets := by
  simpa using List.mem_of_find?_eq_some found

theorem Gathered.frame_held {packets rest : List (Nat → UInt8)} {s : FicState}
    {second : Nat → UInt8} (gathered : Gathered packets s second rest)
    (three : (latest 3 rest).isSome) (four : (latest 4 rest).isSome) :
    HoldsFrame packets s.ficsyms := by
  obtain ⟨third, newest3⟩ := Option.isSome_iff_exists.mp three
  obtain ⟨fourth, newest4⟩ := Option.isSome_iff_exists.mp four
  obtain ⟨⟨before, since⟩, first, later, -, slot0, slot1, slot2⟩ := gathered
  have none2 : latest 2 rest = none := by
    simp only [latest, List.find?_eq_none, List.mem_reverse, decide_eq_true_eq]
    exact fun p member => (later p member).1
  have split : before ++ second :: rest = (before ++ [second]) ++ rest := by simp
  refine ⟨before, second, rest, third, fourth, since, ?_, ?_, ?_, latest_mem newest3,
    latest_mem newest4, (later _ (latest_mem newest3)).2, (later _ (latest_mem newest4)).2,
    slot0, slot1 _ newest3, slot2 _ newest4⟩
  · rw [since, split, latest_since, none2, latest_append, if_pos first]
    rfl
  · rw [since, split, latest_since, newest3]
    rfl
  · rw [since, split, latest_since, newest4]
    rfl

/-- Between a call of `process_fic` and the next symbol 2 the flags stay incomplete. -/
theorem incomplete_run (before : List (Nat → UInt8)) (p : Nat → UInt8) (called : Processes before p)
    (rest : List (Nat → UInt8)) (symbols : ∀ q ∈ rest, FicSymbol q ∧ q 2 ≠ 2) :
    (ficRun (before ++ [p] ++ rest)).symFlags ∈ [0, 3, 4, 7] := by
  induction rest using List.reverseRecOn with
  | nil =>
    rw [List.append_nil, ficRun_append]
    rw [ficAssemble_called called]
    decide
  | append_singleton rest q ih =>
    have symbol := symbols q (by simp)
    rw [← List.append_assoc, ficRun_append]
    exact (incomplete_step (ih fun r member => symbols r (List.mem_append_left _ member))
      (symbol.1.resolve_left symbol.2)).1

theorem fic_assembly (packets : List (Nat → UInt8)) (symbols : ∀ p ∈ packets, FicSymbol p) :
    (∀ before p, before ++ [p] <+: packets → Processes before p →
      HoldsFrame (before ++ [p]) (ficRun (before ++ [p])).ficsyms) ∧
    (∀ before p rest q, before ++ [p] ++ rest ++ [q] <+: packets → Processes before p →
      (∀ r ∈ rest ++ [q], r 2 ≠ 2) → ¬Processes (before ++ [p] ++ rest) q) ∧
    (∀ before second third fourth, before ++ [second, third, fourth] <+: packets →
      second 2 = 2 → third 2 = 3 → fourth 2 = 4 → third 3 = second 3 → fourth 3 = second 3 →
      ¬Processes before second ∧ ¬Processes (before ++ [second]) third ∧
        Processes (before ++ [second, third]) fourth) := by
  refine ⟨fun before p reached called => ?_, fun before p rest q reached called fresh => ?_,
    fun before second third fourth reached two three four same3 same4 => ?_⟩
  · have symbol := symbols p (reached.subset (by simp))
    have tracks := tracks_run before fun q member => symbols q (reached.subset (by simp [member]))
    obtain ⟨second, rest, gathered, three, four⟩ := (tracks.step p symbol).2 called
    exact gathered.frame_held three four
  · have symbol (r : Nat → UInt8) (member : r ∈ rest ++ [q]) : FicSymbol r ∧ r 2 ≠ 2 :=
      ⟨symbols r (reached.subset (by simp only [List.append_assoc, List.mem_append] at member ⊢; tauto)),
        fresh r member⟩
    have small := incomplete_run before p called rest fun r member =>
      symbol r (List.mem_append_left _ member)
    have last := symbol q (by simp)
    have quiet := (incomplete_step small (last.1.resolve_left last.2)).2
    rw [Processes, quiet]
    decide
  · have split : before ++ [second, third] = before ++ [second] ++ [third] := by simp
    simp only [Processes, split, ficRun_append]
    generalize ficRun before = s
    have start : (ficAssemble second s).2 = false ∧ (ficAssemble second s).1.symFlags = 8 ∧
        (ficAssemble second s).1.curFrame = second 3 := by
      simp [ficAssemble, two]
    generalize ficAssemble second s = r at start
    obtain ⟨quiet, flags, frame⟩ := start
    obtain ⟨called3, flags3, frame3⟩ := ficAssemble_same (s := r.1) (by rw [three]; decide)
      (same3.trans frame.symm)
    have flags11 := flags3 (by rw [flags, three]; decide)
    obtain ⟨called4, -, -⟩ := ficAssemble_same (s := (ficAssemble third r.1).1)
      (by rw [four]; decide) (same4.trans (frame.symm.trans frame3.symm))
    rw [flags, three] at called3 flags11
    rw [flags11, four] at called4
    rw [quiet, called3, called4]
    decide

def ficPacket (sym frame value : UInt8) : Nat → UInt8 := ofList [0, 0, sym, frame] fun _ => value

theorem fic_assembly_three : Processes [ficPacket 2 7 1, ficPacket 3 7 2] (ficPacket 4 7 3) ∧
    HoldsFrame [ficPacket 2 7 1, ficPacket 3 7 2, ficPacket 4 7 3]
      (ficRun [ficPacket 2 7 1, ficPacket 3 7 2, ficPacket 4 7 3]).ficsyms := by
  have symbols : ∀ p ∈ [ficPacket 2 7 1, ficPacket 3 7 2, ficPacket 4 7 3], FicSymbol p := by
    simp [FicSymbol, ficPacket, ofList]
  obtain ⟨held, -, consecutive⟩ := fic_assembly _ symbols
  have called := (consecutive [] _ _ _ List.prefix_rfl rfl rfl rfl rfl rfl).2.2
  exact ⟨called, held [ficPacket 2 7 1, ficPacket 3 7 2] _ List.prefix_rfl called⟩

end OpenDab
