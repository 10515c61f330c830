import OpenDab.Described
import OpenDab.FigWalk
import OpenDab.MscDepuncture

/-! The protection level of an EEP sub-channel. It is put together from three bits of option and
two of level, and is an index into tables of eight rows wherever it goes. -/
namespace OpenDab

open Buffers

def LongForm (f : Nat) : Prop := bitField f 15 1 ≠ 0

instance (f : Nat) : Decidable (LongForm f) := inferInstanceAs (Decidable (_ ≠ _))

def entryOpt (f : Nat) : Nat := bitField f 12 3

def entryProtlvl (f : Nat) : Nat := entryOpt f * 4 + bitField f 10 2

/-- The packed entries of a FIG 0/1; how far it is to the next one depends on the form only. -/
def fig01Entries : Nat → Nat → (Nat → UInt8) → List Nat
  | 0, _, _ => []
  | fuel + 1, j, fig =>
    if j > 0 then
      let f := (ipack fig).toNat
      let len := if LongForm f then 4 else 3
      f :: fig01Entries fuel (j - len) (shift fig len)
    else []

def InTable (p : Nat) : Prop := ∃ row, eeptable[p]? = some row ∧ row.sizemul ≠ 0

theorem inTable_iff (p : Nat) : InTable p ↔ p < 8 := by
  have divisors : ∀ row ∈ eeptable, row.sizemul ≠ 0 := by decide
  constructor
  · rintro ⟨row, found, -⟩
    exact (List.getElem?_eq_some_iff.mp found).1
  · intro inside
    exact ⟨_, List.getElem?_eq_getElem inside, divisors _ (List.getElem_mem inside)⟩

/-- Only the first two options have rows. -/
theorem protlvl_inTable_iff (f : Nat) : InTable (entryProtlvl f) ↔ entryOpt f < 2 := by
  have low : bitField f 10 2 < 4 := Nat.mod_lt _ (by decide)
  rw [inTable_iff, entryProtlvl]
  omega

/-- The entry has one of the two options that have rows, or is a short one. -/
def Assigned (f : Nat) : Prop := LongForm f → entryOpt f < 2

def Subch.Levelled (s : Subch) : Prop := s.eepprot ≠ 0 → s.protlvl < 8

/-- Reading an entry succeeds when its option has rows, and leaves a level that is one. -/
theorem fig01Entry_assigned (s : Subch) {fig : Nat → UInt8} (assigned : Assigned (ipack fig).toNat) :
    ∃ d, fig01Entry s fig = some (d, if LongForm (ipack fig).toNat then 4 else 3) ∧ d.Levelled := by
  by_cases long : LongForm (ipack fig).toNat
  · obtain ⟨row, found, nonzero⟩ := (protlvl_inTable_iff _).mpr (assigned long)
    have inside := (inTable_iff _).mp ⟨row, found, nonzero⟩
    have entry : bitField (ipack fig).toNat 15 1 ≠ 0 := long
    simp only [entryProtlvl, entryOpt] at found
    simp only [fig01Entry, if_pos entry, found, Option.map_some, if_pos long]
    exact ⟨_, rfl, fun _ => inside⟩
  · have small : bitField (ipack fig).toNat 8 6 < ueptable.length := Nat.mod_lt _ (by decide)
    have entry : ¬bitField (ipack fig).toNat 15 1 ≠ 0 := long
    simp only [fig01Entry, if_neg entry, List.getElem?_eq_getElem small, Option.map_some, if_neg long]
    exact ⟨_, rfl, fun eep => absurd eep entry⟩

theorem fig01Entry_unassigned (s : Subch) {fig : Nat → UInt8}
    (unassigned : ¬Assigned (ipack fig).toNat) : fig01Entry s fig = none := by
  obtain ⟨long, beyond⟩ := Classical.not_imp.mp unassigned
  have entry : bitField (ipack fig).toNat 15 1 ≠ 0 := long
  have outside : eeptable.length ≤ entryProtlvl (ipack fig).toNat := by
    rw [← protlvl_inTable_iff, inTable_iff] at beyond
    exact Nat.le_of_not_lt beyond
  simp only [entryProtlvl, entryOpt] at outside
  simp only [fig01Entry, if_pos entry, List.getElem?_eq_none outside, Option.map_none]

/-- The loop runs through when all entries can be looked up. -/
theorem fig01Calls_isSome_iff (fuel j : Nat) (fig : Nat → UInt8) (s : Subch) :
    (fig01Calls fuel j fig s).isSome ↔ ∀ f ∈ fig01Entries fuel j fig, Assigned f := by
  induction fuel generalizing j fig s with
  | zero => simp [fig01Calls, fig01Entries]
  | succ fuel ih =>
    rw [fig01Calls, fig01Entries]
    split
    · dsimp only
      rw [List.forall_mem_cons]
      by_cases assigned : Assigned (ipack fig).toNat
      · obtain ⟨d, entry, -⟩ := fig01Entry_assigned s assigned
        rw [entry, Option.bind_some, Option.isSome_map, ih]
        exact (and_iff_right assigned).symm
      · rw [fig01Entry_unassigned s assigned]
        simp [assigned]
    · simp

theorem fig01_isSome_iff (stack : Subch) (figlen : Nat) (fig : Nat → UInt8) (e : EnsInfo) :
    (fig01 stack figlen fig e).isSome ↔ ∀ f ∈ fig01Entries figlen figlen fig, Assigned f := by
  rw [fig01, fig01Loop_calls, Option.isSome_map, fig01Calls_isSome_iff]

structure LevelsKnown (figlen : Nat) (fig : Nat → UInt8) : Prop where
  rows : ∀ f ∈ fig01Entries figlen figlen fig, LongForm f → InTable (entryProtlvl f)
  runs : ∀ stack e, (fig01 stack figlen fig e).isSome

theorem levelsKnown_iff (figlen : Nat) (fig : Nat → UInt8) :
    LevelsKnown figlen fig ↔ ∀ f ∈ fig01Entries figlen figlen fig, Assigned f := by
  constructor
  · intro known f member long
    exact (protlvl_inTable_iff f).mp (known.rows f member long)
  · intro assigned
    refine ⟨fun f member long => (protlvl_inTable_iff f).mpr (assigned f member long), fun stack e => ?_⟩
    exact (fig01_isSome_iff stack figlen fig e).mpr assigned

def FigCall.entries (c : FigCall) : List Nat :=
  if bitField (c.state.mem c.fig).toNat 5 3 = 0 ∧ bitField (c.state.mem (c.fig + 1)).toNat 0 5 = 1 then
    let figlen := flen c.state.mem c.fig - 1
    fig01Entries figlen figlen (shift c.state.mem (c.fig + 2))
  else []

theorem FigCall.handle_isSome_iff (stack : Nat → Subch) (c : FigCall) :
    (c.handle stack).isSome ↔ ∀ f ∈ c.entries, Assigned f := by
  unfold FigCall.handle FigCall.entries unpickfig
  split
  · next type =>
    unfold fig0
    dsimp only
    split
    · next extension => simp [extension]
    · next extension =>
      rw [Option.isSome_map, fig01_isSome_iff, if_pos ⟨type, extension⟩, Nat.add_assoc]
    · next extension => simp [extension]
    · next other _ =>
      rw [if_neg fun both => other both.2]
      simp
  · next type => simp [type]
  · next other _ =>
    rw [if_neg fun both => other both.1]
    simp

theorem fibLoop_isSome_iff (stack : Nat → Subch) (fib fuel j : Nat) (s : FigState) :
    (fibLoop stack fib fuel j s).isSome ↔
      ∀ c ∈ fibCalls stack fib fuel j s, ∀ f ∈ c.entries, Assigned f := by
  induction fuel generalizing j s with
  | zero => simp [fibLoop, fibCalls]
  | succ fuel ih =>
    rw [fibLoop_succ, fibCalls]
    split
    · rw [List.forall_mem_cons, ← FigCall.handle_isSome_iff stack]
      cases FigCall.handle stack ⟨fib + j, s⟩ with
      | none => simp
      | some t => simpa using ih _ t
    · simp

theorem ficCalls_isSome_iff (stack : Nat → Subch) (numbers : List Nat) (s : FigState) :
    (numbers.foldlM (fun s i => fibLoop stack (30 * i) 30 0 s) s).isSome ↔
      ∀ c ∈ ficCalls stack numbers s, ∀ f ∈ c.entries, Assigned f := by
  induction numbers generalizing s with
  | nil => simp [ficCalls]
  | cons i numbers ih =>
    rw [List.foldlM_cons, ficCalls, List.forall_mem_append, ← fibLoop_isSome_iff]
    cases fibLoop stack (30 * i) 30 0 s with
    | none => simp
    | some t => simpa using ih t

/-- The decoded FIBs of a frame, and what the uninitialised local of `fig_0_1` holds at each FIG. -/
structure FicFrame where
  fibs : Nat
  mem : Nat → UInt8
  stack : Nat → Subch

def FicFrame.process (frame : FicFrame) (e : EnsInfo) : Option EnsInfo :=
  (processFibs frame.stack frame.fibs ⟨e, frame.mem⟩).map FigState.einf

def ensembleRun (e : EnsInfo) (frames : List FicFrame) : Option EnsInfo :=
  frames.foldlM (fun e frame => frame.process e) e

def ensembleFigs : EnsInfo → List FicFrame → List FigCall
  | _, [] => []
  | e, frame :: frames => ficCalls frame.stack (List.range frame.fibs) ⟨e, frame.mem⟩ ++
      (frame.process e).elim [] (ensembleFigs · frames)

theorem ensembleRun_isSome_iff (e : EnsInfo) (frames : List FicFrame) :
    (ensembleRun e frames).isSome ↔ ∀ c ∈ ensembleFigs e frames, ∀ f ∈ c.entries, Assigned f := by
  induction frames generalizing e with
  | nil => simp [ensembleRun, ensembleFigs]
  | cons frame frames ih =>
    have first : (frame.process e).isSome ↔
        ∀ c ∈ ficCalls frame.stack (List.range frame.fibs) ⟨e, frame.mem⟩,
          ∀ f ∈ c.entries, Assigned f := by
      rw [FicFrame.process, Option.isSome_map, processFibs, ficCalls_isSome_iff]
    rw [ensembleRun, List.foldlM_cons, ensembleFigs, List.forall_mem_append, ← first]
    cases frame.process e with
    | none => simp
    | some next => simpa [ensembleRun] using ih next

theorem fig01Entry_levelled {s : Subch} {fig : Nat → UInt8} {r : Subch × Nat}
    (entry : fig01Entry s fig = some r) : r.1.Levelled := by
  by_cases assigned : Assigned (ipack fig).toNat
  · obtain ⟨d, read, levelled⟩ := fig01Entry_assigned s assigned
    obtain rfl : (d, _) = r := Option.some.inj (read.symm.trans entry)
    exact levelled
  · rw [fig01Entry_unassigned s assigned] at entry
    cases entry

theorem ReadFrom.levelled {s : Subch} (read : ReadFrom s) : s.Levelled := by
  obtain ⟨held, fig, d, len, entry, same⟩ := read
  rw [same]
  exact fig01Entry_levelled entry

def AllLevelled (e : EnsInfo) : Prop := ∀ id, (e.schan id).Levelled

theorem allLevelled_kept : Kept AllLevelled where
  call {e call} before genuine id := by
    have kept := before id
    rw [run_schan]
    cases call with
    | service ac sid =>
      dsimp only
      split <;> exact kept
    | subchannel s =>
      dsimp only
      split
      · exact ReadFrom.levelled genuine
      · exact kept
  ensemble _ before := before
  label _ before := before
  service fig before := by
    unfold fig11
    split <;> exact before

/-- The table is empty at first: the loader has cleared it, and `ficinit` marks its records. -/
theorem allLevelled_ficinit : AllLevelled (ficinit einf) := by
  refine loop_invariant (fun _ (schan : Nat → Subch) => ∀ id, (schan id).Levelled) ?_ ?_
  · exact fun id eep => absurd rfl eep
  · intro j _ schan before id
    rw [store_apply]
    split <;> exact before _

theorem ensembleRun_kept {holds : EnsInfo → Prop} (kept : Kept holds) {e e' : EnsInfo} (before : holds e)
    {frames : List FicFrame} (run : ensembleRun e frames = some e') : holds e' := by
  induction frames generalizing e with
  | nil =>
    cases run
    exact before
  | cons frame frames ih =>
    rw [ensembleRun, List.foldlM_cons] at run
    obtain ⟨next, first, later⟩ := Option.bind_eq_some_iff.mp run
    obtain ⟨s, processed, rfl⟩ := Option.map_eq_some_iff.mp first
    exact ih (kept.processFibs before processed) later

def eeptype : List String :=
  ["eep-1a", "eep-2a", "eep-3a", "eep-4a", "eep-1b", "eep-2b", "eep-3b", "eep-4b"]

def Subch.levelText (s : Subch) : Option String :=
  if s.eepprot ≠ 0 then eeptype[s.protlvl]? else some ("uep " ++ toString s.protlvl)

/-- The levels of the EEP sub-channels are good for everything that uses them as an index. -/
structure LevelsUsable (e : EnsInfo) : Prop where
  levelled : AllLevelled e
  printed : ∀ line ∈ dispEnsemble e, ∀ id, line.component = some id →
    (e.schan id).levelText.isSome
  depunctured : ∀ id, (e.schan id).eepprot ≠ 0 → ∀ obuf inbuf,
    (eepDepuncture obuf inbuf (e.schan id)).isSome

theorem Subch.Levelled.printed {s : Subch} (levelled : s.Levelled) : s.levelText.isSome := by
  unfold Subch.levelText
  split
  · next eep =>
    rw [List.getElem?_eq_getElem (levelled eep)]
    rfl
  · rfl

theorem Subch.Levelled.depunctured {s : Subch} (levelled : s.Levelled) (eep : s.eepprot ≠ 0)
    (obuf inbuf : Nat → UInt8) : (eepDepuncture obuf inbuf s).isSome := by
  have listed : s.Listed := by
    rw [Subch.Listed, if_pos eep]
    exact levelled eep
  have blocks := mscDepuncture_blocks listed obuf inbuf
  obtain ⟨d, run, -⟩ := depunctureRun_filled obuf inbuf s.blocks (known_blocks listed)
  rw [mscDepuncture, if_pos eep, depunctureBlocks_run, run] at blocks
  rw [blocks]
  rfl

theorem AllLevelled.usable {e : EnsInfo} (levelled : AllLevelled e) : LevelsUsable e where
  levelled := levelled
  printed _ _ id _ := (levelled id).printed
  depunctured id eep := (levelled id).depunctured eep

/-- Every entry of a run is looked up in the table, and every ensemble it reaches can be shown and
decoded. -/
structure RunLevelled (frames : List FicFrame) : Prop where
  rows : ∀ c ∈ ensembleFigs (ficinit einf) frames, ∀ f ∈ c.entries, LongForm f → InTable (entryProtlvl f)
  reached : ∀ earlier, earlier <+: frames →
    ∃ e, ensembleRun (ficinit einf) earlier = some e ∧ LevelsUsable e

theorem ensembleRun_earlier {e : EnsInfo} {earlier frames : List FicFrame} (before : earlier <+: frames)
    (run : (ensembleRun e frames).isSome) : (ensembleRun e earlier).isSome := by
  obtain ⟨later, rfl⟩ := before
  rw [ensembleRun, List.foldlM_append] at run
  exact Option.isSome_of_isSome_bind run

/-- The levels can be looked up, in one FIG as in every run, exactly when no long-form entry has one
of the six options that the table does not know. -/
theorem protection_levels_iff (figlen : Nat) (fig : Nat → UInt8) (frames : List FicFrame) :
    (LevelsKnown figlen fig ↔ ∀ f ∈ fig01Entries figlen figlen fig, Assigned f) ∧
      (RunLevelled frames ↔
        ∀ c ∈ ensembleFigs (ficinit einf) frames, ∀ f ∈ c.entries, Assigned f) := by
  refine ⟨levelsKnown_iff figlen fig, fun known c call f member long => ?_, fun assigned => ?_⟩
  · exact (protlvl_inTable_iff f).mp (known.rows c call f member long)
  · refine ⟨fun c call f member long => ?_, fun earlier before => ?_⟩
    · exact (protlvl_inTable_iff f).mpr (assigned c call f member long)
    · have whole := (ensembleRun_isSome_iff (ficinit einf) frames).mpr assigned
      obtain ⟨e, run⟩ := Option.isSome_iff_exists.mp (ensembleRun_earlier before whole)
      exact ⟨e, run, (ensembleRun_kept allLevelled_kept allLevelled_ficinit run).usable⟩

def newOptionFrame : FicFrame :=
  ⟨1, ofList [0x05, 0x01, 0x14, 0x00, 0xa0, 0x08] fun _ => 0xff, fun _ => ⟨0, 0, 0, 0, 0, 0, 0, 0⟩⟩

/-- It is looked up in row 8 of the eight. -/
theorem new_option_unknown : ¬RunLevelled [newOptionFrame] := by
  intro known
  have call : (⟨0, ⟨ficinit einf, newOptionFrame.mem⟩⟩ : FigCall) ∈
      ensembleFigs (ficinit einf) [newOptionFrame] := by
    refine List.mem_append_left _ (List.mem_append_left _ ?_)
    rw [fibCalls, if_pos (by decide)]
    exact List.mem_cons_self
  have entry : 0x1400a008 ∈
      FigCall.entries ⟨0, ⟨ficinit einf, newOptionFrame.mem⟩⟩ := by decide
  have row := (inTable_iff _).mp (known.rows _ call _ entry (by decide))
  exact absurd row (by decide)

end OpenDab
