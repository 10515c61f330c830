import OpenDab.Selection
import OpenDab.Described
import OpenDab.FicAssembly
import OpenDab.Msc

/-! The packet loop of `main` without `-d`, from `ficinit` to the calls of `msc_assemble`.
How the FIC is decoded plays no role here, so `fic_decode` is a parameter. -/
namespace OpenDab

open Buffers Roster

def maxfibs : Nat := 700

/-- What one round of the loop meets: the packet, `sync_locked` after `prs_assemble`, the number
that is read if the user is asked, and what an uninitialised local holds at each FIG. -/
structure Round where
  rdbuf : Nat → UInt8
  syncLocked : Bool
  number : Int
  stack : Nat → Subch

structure Receiver where
  fic : FicState
  rawfibs : Nat → UInt8
  fibcnt : Nat
  einf : EnsInfo
  enslistvisible : Bool
  rq : Bool
  sel : SelSrv
  selected : Bool
  synccnt : Nat
  msc : MscState

/-- Before the first packet; `sr` and `sid` are not initialised. -/
def Receiver.initial (sr : Symrange) (sid : UInt32) (msc : MscState) : Receiver where
  fic := FicState.initial
  rawfibs := fun _ => 0
  fibcnt := 0
  einf := ficinit OpenDab.einf
  enslistvisible := false
  rq := false
  sel := ⟨none, sr, sid⟩
  selected := false
  synccnt := 0
  msc := msc

section Loop

variable (ficDecode : (Nat → UInt8) → (Nat → UInt8) → Nat × (Nat → UInt8))

def processFic (stack : Nat → Subch) (m : Receiver) : Option Receiver :=
  let r := ficDecode m.fic.ficsyms m.rawfibs
  (processFibs stack r.1 ⟨m.einf, r.2⟩).map fun s =>
    { m with fibcnt := m.fibcnt + r.1, rawfibs := s.mem, einf := s.einf }

def Receiver.Stopped (m : Receiver) : Prop := ¬(m.fibcnt < maxfibs ∧ labelled m.einf = false)

instance (m : Receiver) : Decidable m.Stopped :=
  inferInstanceAs (Decidable (¬(m.fibcnt < maxfibs ∧ labelled m.einf = false)))

/-- A PRS packet counts down the frames until the new symbol selection is in place. -/
def Receiver.resync (p : Round) (m : Receiver) : Receiver :=
  if p.rdbuf 9 = 2 ∧ m.synccnt > 0 then { m with synccnt := m.synccnt - 1 } else m

def Receiver.tune (c : Nat) (m : Receiver) : Receiver :=
  if m.selected = false ∧ (m.einf.schan c).subchid < 64 then
    { m with
      sel := { m.sel with sr := startsym m.sel.sr (m.einf.schan c) }
      selected := true, synccnt := 6 }
  else m

/-- One round: the new state, and the sub-channel and symbol range that `msc_assemble` got if it
was called. -/
def wfRound (p : Round) (m : Receiver) : Option (Receiver × Option (Nat × Symrange)) :=
  let m := m.resync p
  if p.syncLocked then
    if m.fibcnt < maxfibs ∧ labelled m.einf = false then
      let sym := p.rdbuf 2
      if sym = 2 ∨ sym = 3 ∨ sym = 4 then
        let r := ficAssemble p.rdbuf m.fic
        let m := { m with fic := r.1 }
        (if r.2 then processFic ficDecode p.stack m else some m).map (·, none)
      else some (m, none)
    else
      let m := { m with enslistvisible := true }
      match m.sel.sch with
      | none =>
        let u := userSelectService m.einf m.rq p.number m.sel
        some ({ m with rq := u.rq, sel := u.sel }, none)
      | some c =>
        let m := m.tune c
        if m.synccnt = 0 ∧ p.rdbuf 2 > 4 then
          some ({ m with msc := (mscAssemble p.rdbuf m.sel.sr m.msc).1 }, some (c, m.sel.sr))
        else some (m, none)
  else some (m, none)

/-- The state after a sequence of rounds; undefined behaviour ends the run. -/
def wfRun (m : Receiver) (rounds : List Round) : Option Receiver :=
  rounds.foldlM (fun m p => (wfRound ficDecode p m).map Prod.fst) m

def Asks (p : Round) (m : Receiver) : Prop :=
  p.syncLocked = true ∧ m.Stopped ∧ m.sel.sch = none

def ChoosesDescribed (p : Round) (m : Receiver) : Prop :=
  ∀ k : Nat, p.number = k → k < m.einf.numSrvs →
    ∀ entry, (pointers m.einf.srv)[k]? = some entry →
      ∀ c, entry.2 = some c → (m.einf.schan c).subchid < 64

/-- The sub-channel has been described by a FIG 0/1 and the range is the one of its description. -/
def AudioReady (e : EnsInfo) (c : Nat) (sr : Symrange) : Prop :=
  (e.schan c).subchid = c ∧ c < 64 ∧ ReadFrom (e.schan c) ∧ ∃ r, sr = startsym r (e.schan c)

structure Receiver.Sound (m : Receiver) : Prop where
  sane : Sane m.einf
  stopped : m.sel.sch ≠ none → m.Stopped
  chosen : ∀ c, m.sel.sch = some c → c < 64 ∧ (m.einf.schan c).subchid < 64
  started : m.selected = true →
    ∃ c r, m.sel.sch = some c ∧ m.sel.sr = startsym r (m.einf.schan c)

theorem sound_initial (sr : Symrange) (sid : UInt32) (msc : MscState) :
    (Receiver.initial sr sid msc).Sound where
  sane := sane_ficinit _
  stopped chosen := absurd rfl chosen
  chosen _ chosen := nomatch chosen
  started selected := nomatch selected

/-- Decoding the FIC goes on only while nothing is selected. -/
theorem Receiver.Sound.processFic {m m' : Receiver} (sound : m.Sound) (unselected : m.sel.sch = none)
    {stack : Nat → Subch} (processed : processFic ficDecode stack m = some m') : m'.Sound := by
  obtain ⟨s, handled, rfl⟩ := Option.map_eq_some_iff.mp processed
  refine ⟨sound.sane.processFibs handled, fun chosen => absurd unselected chosen,
    fun c chosen => ?_, fun selected => ?_⟩
  · rw [unselected] at chosen
    cases chosen
  · obtain ⟨c, r, chosen, -⟩ := sound.started selected
    rw [unselected] at chosen
    cases chosen

theorem mem_pointers {srv : List Service} {entry : Service × Option Nat} {c : Nat}
    (member : entry ∈ pointers srv) (present : entry.2 = some c) :
    ∃ p ∈ srv, c ∈ p.components := by
  obtain ⟨p, listed, found⟩ := List.mem_flatMap.mp member
  obtain ⟨pointer, numbered, rfl⟩ := List.mem_map.mp found
  refine ⟨p, listed, ?_⟩
  dsimp only at present
  subst present
  unfold Service.pointers at numbered
  unfold Service.components
  rw [List.mem_append, Option.mem_toList, Option.mem_toList]
  rcases List.mem_cons.mp numbered with first | second
  · exact .inl first.symm
  · split at second
    · simp at second
    · exact .inr (List.mem_singleton.mp second).symm

/-- Asking the user selects nothing, or what the number designates. -/
theorem userSelectService_sch (e : EnsInfo) (rq : Bool) (i : Int) (sel : SelSrv)
    (before : sel.sch = none) {c : Nat} (chosen : (userSelectService e rq i sel).sel.sch = some c) :
    ∃ k : Nat, i = k ∧ k < e.numSrvs ∧ ∃ entry, (pointers e.srv)[k]? = some entry ∧
      entry.2 = some c := by
  by_cases inside : i < e.numSrvs ∧ i ≥ 0
  · obtain ⟨k, rfl⟩ := Int.eq_ofNat_of_zero_le inside.2
    have bound : k < e.numSrvs := by omega
    refine ⟨k, rfl, bound, ?_⟩
    have walk := selectService_pointers e.srv 0 k sel
    rw [Int.zero_add] at walk
    rw [userSelectService_inside e rq k bound, walk] at chosen
    cases found : (pointers e.srv)[k]? with
    | none => simp [found, before] at chosen
    | some entry => exact ⟨entry, rfl, by simpa [found] using chosen⟩
  · unfold userSelectService at chosen
    by_cases none : i = -1
    · simp [none, before] at chosen
    · simp [none, inside] at chosen

/-- A described sub-channel is ready once its range has been computed. -/
theorem Receiver.Sound.audioReady {m : Receiver} (sound : m.Sound) {c : Nat}
    (chosen : m.sel.sch = some c) (selected : m.selected = true) :
    AudioReady m.einf c m.sel.sr := by
  obtain ⟨small, used⟩ := sound.chosen c chosen
  obtain ⟨read, named⟩ := sound.sane.described c small (by omega)
  obtain ⟨c', r, chosen', computed⟩ := sound.started selected
  rw [chosen, Option.some.injEq] at chosen'
  subst chosen'
  exact ⟨named, small, read, r, computed⟩

theorem Receiver.Sound.tune {m : Receiver} (sound : m.Sound) {c : Nat}
    (chosen : m.sel.sch = some c) : (m.tune c).Sound ∧ (m.tune c).selected = true ∧
      (m.tune c).einf = m.einf ∧ (m.tune c).sel.sch = some c := by
  have described := (sound.chosen c chosen).2
  unfold Receiver.tune
  split
  · refine ⟨⟨sound.sane, sound.stopped, sound.chosen, fun _ => ?_⟩, rfl, rfl, chosen⟩
    exact ⟨c, m.sel.sr, chosen, rfl⟩
  · next already =>
    have selected : m.selected = true := by simpa [described] using already
    exact ⟨sound, selected, rfl, chosen⟩

/-- Whatever the user enters, only a described sub-channel is selected. -/
theorem Receiver.Sound.asked {m : Receiver} (sound : m.Sound) (stopped : m.Stopped)
    (unselected : m.sel.sch = none) {p : Round} (choice : ChoosesDescribed p m) (visible : Bool) :
    ({ m with
      enslistvisible := visible
      rq := (userSelectService m.einf m.rq p.number m.sel).rq
      sel := (userSelectService m.einf m.rq p.number m.sel).sel } : Receiver).Sound := by
  refine ⟨sound.sane, fun _ => stopped, fun c chosen => ?_, fun selected => ?_⟩
  · obtain ⟨k, number, bound, entry, found, present⟩ :=
      userSelectService_sch _ _ _ _ unselected chosen
    obtain ⟨q, listed, component⟩ := mem_pointers (List.mem_of_getElem? found) present
    exact ⟨sound.sane.pointed q listed c component, choice k number bound entry found c present⟩
  · obtain ⟨c, r, chosen, -⟩ := sound.started selected
    rw [unselected] at chosen
    cases chosen

theorem resync_synccnt (p : Round) (m : Receiver) : ∃ n, m.resync p = { m with synccnt := n } := by
  unfold Receiver.resync
  split
  · exact ⟨_, rfl⟩
  · exact ⟨m.synccnt, rfl⟩

/-- One round keeps the invariant, and `msc_assemble` is called only when all is ready. -/
theorem Receiver.Sound.round {m m' : Receiver} (sound : m.Sound) {p : Round}
    (choice : Asks p m → ChoosesDescribed p m) {call : Option (Nat × Symrange)}
    (done : wfRound ficDecode p m = some (m', call)) :
    m'.Sound ∧ ∀ c sr, call = some (c, sr) → AudioReady m.einf c sr := by
  obtain ⟨n, counted⟩ := resync_synccnt p m
  simp only [wfRound, counted] at done
  have sound₁ : ({ m with synccnt := n } : Receiver).Sound :=
    ⟨sound.sane, sound.stopped, sound.chosen, sound.started⟩
  have quiet : ∀ c sr, (none : Option (Nat × Symrange)) = some (c, sr) → AudioReady m.einf c sr :=
    fun c sr called => nomatch called
  by_cases locked : p.syncLocked = true
  · rw [if_pos locked] at done
    by_cases reading : m.fibcnt < maxfibs ∧ labelled m.einf = false
    · rw [if_pos reading] at done
      have unselected : m.sel.sch = none := by
        by_contra selected
        exact sound.stopped selected reading
      split at done
      · obtain ⟨m₂, handled, same⟩ := Option.map_eq_some_iff.mp done
        cases same
        have assembled : ({ m with
            fic := (ficAssemble p.rdbuf m.fic).1, synccnt := n } : Receiver).Sound :=
          ⟨sound.sane, sound.stopped, sound.chosen, sound.started⟩
        refine ⟨?_, quiet⟩
        split at handled
        · exact assembled.processFic ficDecode unselected handled
        · cases handled
          exact assembled
      · cases done
        exact ⟨sound₁, quiet⟩
    · rw [if_neg reading] at done
      split at done
      · next unselected =>
        cases done
        exact ⟨sound₁.asked reading unselected (choice ⟨locked, reading, unselected⟩) true, quiet⟩
      · next c chosen =>
        have visible : ({ m with synccnt := n, enslistvisible := true } : Receiver).Sound :=
          ⟨sound.sane, sound.stopped, sound.chosen, sound.started⟩
        obtain ⟨tuned, selected, einf, kept⟩ := visible.tune chosen
        split at done
        · cases done
          refine ⟨⟨tuned.sane, tuned.stopped, tuned.chosen, tuned.started⟩, ?_⟩
          rintro _ _ ⟨⟩
          have ready := tuned.audioReady kept selected
          rwa [einf] at ready
        · cases done
          exact ⟨tuned, quiet⟩
  · rw [if_neg locked] at done
    cases done
    exact ⟨sound₁, quiet⟩

/-- Every round of the run that asks the user gets the number of a described sub-channel. -/
def Chooses (m : Receiver) (rounds : List Round) : Prop :=
  ∀ before p after m', rounds = before ++ p :: after → wfRun ficDecode m before = some m' →
    Asks p m' → ChoosesDescribed p m'

theorem sound_run {m m' : Receiver} (sound : m.Sound) (rounds : List Round)
    (chooses : Chooses ficDecode m rounds) (reached : wfRun ficDecode m rounds = some m') :
    m'.Sound := by
  induction rounds using List.reverseRecOn generalizing m' with
  | nil =>
    cases reached
    exact sound
  | append_singleton rounds p ih =>
    rw [wfRun, List.foldlM_append] at reached
    obtain ⟨m₁, earlier, last⟩ := Option.bind_eq_some_iff.mp reached
    have sound₁ : m₁.Sound := by
      refine ih (fun before q after m₂ split => ?_) earlier
      exact chooses before q (after ++ [p]) m₂ (by simp [split])
    rw [List.foldlM_cons] at last
    obtain ⟨m₂, step, same⟩ := Option.bind_eq_some_iff.mp last
    cases same
    obtain ⟨⟨m₃, call⟩, done, same⟩ := Option.map_eq_some_iff.mp step
    cases same
    exact (sound₁.round ficDecode (chooses rounds p [] m₁ rfl earlier) done).1

/-- If the user only picks described sub-channels, audio decoding is always ready. -/
theorem audio_ready (sr : Symrange) (sid : UInt32) (msc : MscState) (rounds : List Round) (p : Round)
    (m m' : Receiver) (chooses : Chooses ficDecode (Receiver.initial sr sid msc) (rounds ++ [p]))
    (reached : wfRun ficDecode (Receiver.initial sr sid msc) rounds = some m)
    (c : Nat) (range : Symrange) (called : wfRound ficDecode p m = some (m', some (c, range))) :
    AudioReady m.einf c range := by
  have earlier : Chooses ficDecode (Receiver.initial sr sid msc) rounds := by
    intro before q after m₂ split
    exact chooses before q (after ++ [p]) m₂ (by simp [split])
  have sound := sound_run ficDecode (sound_initial sr sid msc) rounds earlier reached
  exact (sound.round ficDecode (chooses rounds p [] m rfl reached) called).2 c range rfl

end Loop

def labelledFib : List UInt8 :=
  [0x06, 0x02, 0xe1, 0xc0, 0x01, 0x00, 0x16] ++
    ([0x35, 0x01, 0xe1, 0xc0] ++ List.replicate 16 0x41 ++ [0x00, 0x00]) ++ [0xff]

def organizationFib : List UInt8 := [0x04, 0x01, 0x14, 0x00, 0x00, 0xff]

def sampleRound (sym kind : UInt8) (number : Int) : Round where
  rdbuf := ofList [0, 0, sym, 0, 0, 0, 0, 0, 0, kind] fun _ => 0
  syncLocked := true
  number := number
  stack := fun _ => ⟨0, 0, 0, 0, 0, 0, 0, 0⟩

def sampleStart : Receiver :=
  Receiver.initial ⟨fun _ => 0, fun _ => 0, 0, 0, 0⟩ 0
    ⟨⟨fun _ => ⟨fun _ => 0, 0, 0, 0⟩, 0, 0, 0, true, false⟩, 0, 0⟩

theorem split_unique {first rest before after : List α} {a p : α}
    (split : before ++ p :: after = first ++ a :: rest) (early : p ∉ first) (late : p ∉ rest) :
    before = first := by
  rcases List.append_eq_append_iff.mp split with ⟨more, rfl, tail⟩ | ⟨more, rfl, tail⟩
  · cases more with
    | nil => simp
    | cons b more =>
      obtain ⟨rfl, -⟩ := List.cons.inj tail
      simp at early
  · cases more with
    | nil => simp
    | cons b more =>
      obtain ⟨-, rfl⟩ := List.cons.inj tail
      simp at late

def sampleFibs : Nat → UInt8 :=
  copy (ofList organizationFib fun _ => 0) 30 (ofList labelledFib fun _ => 0) 30

theorem audio_ready_sample : ∃ m range,
    wfRun (fun _ _ => (2, sampleFibs)) sampleStart
      ([sampleRound 2 1 (-1), sampleRound 3 1 (-1), sampleRound 4 1 (-1)] ++ sampleRound 5 1 0 ::
        (sampleRound 5 1 (-1) :: List.replicate 6 (sampleRound 0 2 (-1)))) = some m ∧
    (wfRound (fun _ _ => (2, sampleFibs)) (sampleRound 5 1 (-1)) m).map Prod.snd =
      some (some (5, range)) ∧ AudioReady m.einf 5 range := by
  have asked : (wfRun (fun _ _ => (2, sampleFibs)) sampleStart
      [sampleRound 2 1 (-1), sampleRound 3 1 (-1), sampleRound 4 1 (-1)]).map
        (fun m => (m.einf.numSrvs, (pointers m.einf.srv).map Prod.snd, (m.einf.schan 5).subchid)) =
      some (1, [some 5], 5) := by
    decide +kernel
  have decoding : (wfRun (fun _ _ => (2, sampleFibs)) sampleStart
      ([sampleRound 2 1 (-1), sampleRound 3 1 (-1), sampleRound 4 1 (-1)] ++ sampleRound 5 1 0 ::
        (sampleRound 5 1 (-1) :: List.replicate 6 (sampleRound 0 2 (-1))))).map
        (fun m => (m.sel.sch, m.selected, labelled m.einf, m.synccnt)) =
      some (some 5, true, true, 0) := by
    decide +kernel
  obtain ⟨m, run, state⟩ := Option.map_eq_some_iff.mp decoding
  simp only [Prod.mk.injEq] at state
  obtain ⟨chosen, selected, complete, idle⟩ := state
  have round : wfRound (fun _ _ => (2, sampleFibs)) (sampleRound 5 1 (-1)) m =
      some ({ m with
        enslistvisible := true
        msc := (mscAssemble (sampleRound 5 1 (-1)).rdbuf m.sel.sr m.msc).1 },
        some (5, m.sel.sr)) := by
    simp [wfRound, Receiver.resync, Receiver.tune, sampleRound, ofList, chosen, selected, complete,
      idle]
  refine ⟨m, m.sel.sr, run, by rw [round]; rfl, ?_⟩
  refine audio_ready _ _ _ _ _ (sampleRound 5 1 (-1)) m _ ?_ run 5 _ round
  intro before p after m' split earlier _ k number bound entry found c present
  have silent (sym kind : UInt8) : p ≠ sampleRound sym kind (-1) := by
    rintro rfl
    have minus : (sampleRound sym kind (-1)).number = -1 := rfl
    omega
  have place : before = [sampleRound 2 1 (-1), sampleRound 3 1 (-1), sampleRound 4 1 (-1)] := by
    rw [List.append_assoc, List.cons_append] at split
    refine split_unique split.symm ?_ ?_
    · simp [silent]
    · simp [silent]
  rw [place] at earlier
  change wfRun _ sampleStart _ = some m' at earlier
  rw [earlier, Option.map_some, Option.some.injEq, Prod.mk.injEq, Prod.mk.injEq] at asked
  obtain ⟨-, pointed, described⟩ := asked
  have member : entry.2 ∈ (pointers m'.einf.srv).map Prod.snd :=
    List.mem_map_of_mem (List.mem_of_getElem? found)
  rw [pointed, List.mem_singleton, present, Option.some.injEq] at member
  rw [member, described]
  decide

/-- Once its only service is labelled the FIC is no longer read, and decoding starts on the
service's sub-channel although no FIG 0/1 has described it. -/
theorem undescribed_is_decoded :
    ¬∀ ficDecode sr sid msc rounds p m m' c range,
      wfRun ficDecode (Receiver.initial sr sid msc) rounds = some m →
      wfRound ficDecode p m = some (m', some (c, range)) → AudioReady m.einf c range := by
  intro claim
  have reached : (wfRun (fun _ _ => (1, ofList labelledFib fun _ => 0)) sampleStart
      [sampleRound 2 1 (-1), sampleRound 3 1 (-1), sampleRound 4 1 (-1), sampleRound 5 1 0]).map
        (fun m => (m.sel.sch, (m.einf.schan 5).subchid, labelled m.einf, m.synccnt)) =
      some (some 5, 0xffff, true, 0) := by
    decide +kernel
  obtain ⟨m, run, state⟩ := Option.map_eq_some_iff.mp reached
  simp only [Prod.mk.injEq] at state
  obtain ⟨chosen, unused, complete, idle⟩ := state
  have round : wfRound (fun _ _ => (1, ofList labelledFib fun _ => 0)) (sampleRound 5 1 (-1)) m =
      some ({ m with
        enslistvisible := true
        msc := (mscAssemble (sampleRound 5 1 (-1)).rdbuf m.sel.sr m.msc).1 },
        some (5, m.sel.sr)) := by
    simp [wfRound, Receiver.resync, Receiver.tune, sampleRound, ofList, chosen, unused, complete,
      idle]
  have ready := claim _ _ _ _ _ _ _ _ _ _ run round
  rw [AudioReady, unused] at ready
  exact absurd ready.1 (by decide)

end OpenDab
