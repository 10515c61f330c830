import OpenDab.MscReception
import OpenDab.PrsAssembly
import OpenDab.SymbolMap
import OpenDab.Sync
import OpenDab.Tuning

/-! The packet loop of `main` without `-d`, with everything that it calls: the phase reference symbols
drive the synchronisation, the FIC the choice of a sub-channel, and the symbols of the sub-channel the
audio decoder. -/
namespace OpenDab

open Buffers Steps

structure WfState where
  prs : PrsState
  sync : SyncState
  selstr : Nat → UInt8
  receiver : Receiver
  dec : MscDecoder

def allSymbols : Nat → UInt8 := ofList (List.replicate 10 0xff) fun _ => 0

/-- The selection that is sent before a new one. -/
def chgstr : Nat → UInt8 :=
  ofList [0x00, 0xf0, 0x11, 0x11, 0x11, 0x11, 0x11, 0x11, 0x11, 0x11] fun _ => 0

def WfState.initial (sr : Symrange) (sid : UInt32) (memory : Nat → Nat → UInt8) (dec : MscDecoder) :
    WfState where
  prs := PrsState.initial
  sync := SyncState.initial
  selstr := allSymbols
  receiver := Receiver.initial sr sid (MscState.initial memory)
  dec := dec

/-- What a round does: the call of `wf_sync`, `sync_locked`, the tuning, the arguments of
`msc_assemble`, and the audio. -/
structure Step where
  packet : Packet
  synced : Option (SyncCall × SyncOutcome)
  locked : Bool
  tuned : Option Tuning
  msc : Option (Nat × Symrange)
  audio : List UInt8

section Loop

variable (tools : Instruments ℚ) (imp : (Nat → ℚ × ℚ) → ℚ → ℚ) (convert : ℚ → Int)
  (ficDecode : (Nat → UInt8) → (Nat → UInt8) → Nat × (Nat → UInt8)) (T : Target)
  (mettab : Nat → Nat → Int) (decodeRs : List UInt8 → List UInt8)

def wfPrs (p : Packet) (w : WfState) :
    Option (PrsState × SyncState × Option (SyncCall × SyncOutcome)) :=
  if p.isPrs then
    let symstr := if w.receiver.synccnt > 0 then chgstr else w.selstr
    let r := prsAssemble p.rdbuf w.prs
    if r.2 then
      let call : SyncCall := ⟨r.1.prsbuf, symstr, p.tp, p.tpAfc⟩
      (wfSync tools imp convert w.sync call).map fun s => (r.1, s.1, some (call, s.2))
    else some (r.1, w.sync, none)
  else some (w.prs, w.sync, none)

/-- `msc_assemble`, with the sub-channel as it has been described. -/
def wfMsc (p : Packet) (w : WfState) (e : EnsInfo) :
    Option (Nat × Symrange) → Option (MscDecoder × List UInt8)
  | none => some (w.dec, [])
  | some (c, sr) =>
    (mscPacket T mettab decodeRs (e.schan c) sr p.rdbuf ⟨w.receiver.msc, w.dec⟩).map fun r =>
      (r.1.dec, r.2)

/-- One round of the loop: `none` where its behaviour is undefined. -/
def wfPacket (w : WfState) (p : Packet) : Option (WfState × Step) := do
  let (prs, sync, synced) ← wfPrs tools imp convert p w
  let (m, call) ← wfRound ficDecode (p.round sync.syncLocked) w.receiver
  let tuned := w.receiver.newTuning m
  let selstr := if tuned.isSome then wfsymsel w.selstr m.sel.sr else w.selstr
  let (dec, audio) ← wfMsc T mettab decodeRs p w m.einf call
  return (⟨prs, sync, selstr, m, dec⟩, ⟨p, synced, sync.syncLocked, tuned, call, audio⟩)

/-- The rounds of the loop, up to the first one that is not defined. -/
def wfLog (w : WfState) (packets : List Packet) : List Step :=
  trace (wfPacket tools imp convert ficDecode T mettab decodeRs) w packets

end Loop

/-! What a run shows. -/

def tuning (log : List Step) : Option Tuning :=
  log.foldl (fun t e => (t.map (Tuning.packet e.packet)).or e.tuned) none

theorem tuning_push (log : List Step) (e : Step) :
    tuning (log ++ [e]) = ((tuning log).map (Tuning.packet e.packet)).or e.tuned := by
  simp [tuning]

def synced (log : List Step) : List (SyncCall × SyncOutcome) := log.filterMap (·.synced)

def mscHeard (log : List Step) : List (Nat → UInt8) :=
  (log.filter (·.msc.isSome)).map (·.packet.rdbuf)

/-- The symbols that the next PRS packet asks for: all of them before the tuning, then six times a few
of them, then those of the sub-channel. -/
def selection : Option Tuning → Nat → UInt8
  | none => allSymbols
  | some t => if t.prs < 6 then chgstr else wfsymsel allSymbols t.sr

section Run

variable (tools : Instruments ℚ) (imp : (Nat → ℚ × ℚ) → ℚ → ℚ) (convert : ℚ → Int)
  (ficDecode : (Nat → UInt8) → (Nat → UInt8) → Nat × (Nat → UInt8)) (T : Target)
  (mettab : Nat → Nat → Int) (decodeRs : List UInt8 → List UInt8)

structure Scheduled (earlier : List Step) (e : Step) : Prop where
  locked : e.locked = decide (4 ≤ streak (synced (earlier ++ [e])))
  synced : ∀ call o, e.synced = some (call, o) → e.packet.isPrs = true ∧
    call.selstr = selection (tuning earlier) ∧
    Measured tools imp (OpenDab.synced earlier) call o ∧ Reported tools (OpenDab.synced earlier) call o
  tuned : ∀ t, e.tuned = some t → tuning earlier = none ∧ t.prs = 0 ∧ ReadFrom t.sub ∧
    t.sub.subchid = t.c ∧ ∃ r, t.sr = startsym r t.sub
  msc : ∀ t, tuning (earlier ++ [e]) = some t →
    e.msc = if e.locked = true ∧ 6 ≤ t.prs ∧ e.packet.rdbuf 2 > 4 then some (t.c, t.sr) else none

variable (memory : Nat → Nat → UInt8) (dec : MscDecoder)

/-- Before the tuning: unless the receiver is barred, nothing has gone to `msc_assemble`. -/
structure WfState.Waiting (log : List Step) (w : WfState) : Prop where
  untuned : w.receiver.Untuned
  selstr : w.selstr = allSymbols
  silent : w.receiver.Barred ∨ mscHeard log = [] ∧ log.flatMap (·.audio) = [] ∧
    w.receiver.msc = MscState.initial memory ∧ w.dec = dec

/-- After the tuning: the audio is what the packets passed on give. -/
structure WfState.Playing (log : List Step) (t : Tuning) (w : WfState) : Prop where
  tuned : w.receiver.TunedTo t
  selstr : w.selstr = wfsymsel allSymbols t.sr
  audio : mscPackets T mettab decodeRs t.sub t.sr (mscHeard log) ⟨MscState.initial memory, dec⟩ =
    some (⟨w.receiver.msc, w.dec⟩, log.flatMap (·.audio))

structure WfState.After (log : List Step) (w : WfState) : Prop where
  sync : w.sync.After (synced log)
  sane : Sane w.receiver.einf
  waiting : tuning log = none → w.Waiting memory dec log
  playing : ∀ t, tuning log = some t → w.Playing T mettab decodeRs memory dec log t

theorem WfState.after_initial (sr : Symrange) (sid : UInt32) :
    (WfState.initial sr sid memory dec).After T mettab decodeRs memory dec [] where
  sync := SyncState.after_initial
  sane := sane_ficinit _
  waiting _ := ⟨⟨rfl, rfl, nofun⟩, rfl, .inr ⟨rfl, rfl, rfl, rfl⟩⟩
  playing _ tuned := nomatch tuned

/-- A PRS packet completes a symbol or does not. -/
theorem wfPrs_cases {p : Packet} {w : WfState} {log : List (SyncCall × SyncOutcome)}
    (after : w.sync.After log) {prs : PrsState} {sync : SyncState}
    {call : Option (SyncCall × SyncOutcome)} (done : wfPrs tools imp convert p w = some (prs, sync, call)) :
    (call = none ∧ sync = w.sync) ∨
      ∃ q o, call = some (q, o) ∧ p.isPrs = true ∧
        q.selstr = (if w.receiver.synccnt > 0 then chgstr else w.selstr) ∧
        Measured tools imp log q o ∧ Reported tools log q o ∧ sync.After (log ++ [(q, o)]) := by
  unfold wfPrs at done
  split at done
  · next isPrs =>
    dsimp only at done
    split at done
    · obtain ⟨s, o, run, measured, reported, next⟩ := after.step tools imp convert
        ⟨(prsAssemble p.rdbuf w.prs).1.prsbuf, if w.receiver.synccnt > 0 then chgstr else w.selstr,
          p.tp, p.tpAfc⟩
      rw [run] at done
      cases done
      exact .inr ⟨_, o, rfl, isPrs, rfl, measured, reported, next⟩
    · cases done
      exact .inl ⟨rfl, rfl⟩
  · cases done
    exact .inl ⟨rfl, rfl⟩

theorem mscPacket_asm {s : Subch} {sr : Symrange} {symbuf : Nat → UInt8} {c : MscChain}
    {r : MscChain × List UInt8} (done : mscPacket T mettab decodeRs s sr symbuf c = some r) :
    r.1.asm = (mscAssemble symbuf sr c.asm).1 := by
  unfold mscPacket at done
  dsimp only at done
  split at done
  · obtain ⟨d, -, rfl⟩ := Option.map_eq_some_iff.mp done
    rfl
  · cases done
    rfl

theorem mscPackets_push {s : Subch} {sr : Symrange} {packets : List (Nat → UInt8)}
    {symbuf : Nat → UInt8} {c c' c'' : MscChain} {out out' : List UInt8}
    (run : mscPackets T mettab decodeRs s sr packets c = some (c', out))
    (next : mscPacket T mettab decodeRs s sr symbuf c' = some (c'', out')) :
    mscPackets T mettab decodeRs s sr (packets ++ [symbuf]) c = some (c'', out ++ out') := by
  induction packets generalizing c out with
  | nil =>
    cases run
    rw [List.nil_append, mscPackets, next]
    simp [mscPackets]
  | cons first packets ih =>
    obtain ⟨⟨c₁, out₁⟩, head, rest⟩ := Option.bind_eq_some_iff.mp run
    obtain ⟨⟨c₂, out₂⟩, tail, same⟩ := Option.map_eq_some_iff.mp rest
    cases same
    rw [List.cons_append, mscPackets, head, Option.bind_some, ih tail, Option.map_some,
      List.append_assoc]

structure Parts (w : WfState) (p : Packet) (w' : WfState) (e : Step) : Prop where
  packet : e.packet = p
  prs : wfPrs tools imp convert p w = some (w'.prs, w'.sync, e.synced)
  locked : e.locked = w'.sync.syncLocked
  round : wfRound ficDecode (p.round w'.sync.syncLocked) w.receiver = some (w'.receiver, e.msc)
  tuned : e.tuned = w.receiver.newTuning w'.receiver
  selstr : w'.selstr = if e.tuned.isSome then wfsymsel w.selstr w'.receiver.sel.sr else w.selstr
  msc : wfMsc T mettab decodeRs p w w'.receiver.einf e.msc = some (w'.dec, e.audio)

theorem wfPacket_parts {w : WfState} {p : Packet} {w' : WfState} {e : Step}
    (done : wfPacket tools imp convert ficDecode T mettab decodeRs w p = some (w', e)) :
    Parts tools imp convert ficDecode T mettab decodeRs w p w' e := by
  obtain ⟨⟨prs, sync, call⟩, first, done⟩ := Option.bind_eq_some_iff.mp done
  obtain ⟨⟨m, msc⟩, second, done⟩ := Option.bind_eq_some_iff.mp done
  obtain ⟨⟨dec, audio⟩, third, done⟩ := Option.bind_eq_some_iff.mp done
  cases done
  exact ⟨rfl, first, rfl, second, rfl, rfl, third⟩

variable {tools imp convert ficDecode T mettab decodeRs memory dec}

/-- The part of a round that concerns the synchronisation. -/
theorem WfState.After.synced_step {log : List Step} {w : WfState}
    (after : w.After T mettab decodeRs memory dec log) {p : Packet} {w' : WfState} {e : Step}
    (parts : Parts tools imp convert ficDecode T mettab decodeRs w p w' e) :
    w'.sync.After (synced (log ++ [e])) ∧ ∀ call o, e.synced = some (call, o) →
      e.packet.isPrs = true ∧ call.selstr = selection (tuning log) ∧
        Measured tools imp (synced log) call o ∧ Reported tools (synced log) call o := by
  have asked : (if w.receiver.synccnt > 0 then chgstr else w.selstr) = selection (tuning log) := by
    cases tuned : tuning log with
    | none =>
      have waiting := after.waiting tuned
      rw [waiting.untuned.synccnt, if_neg (Nat.lt_irrefl 0), waiting.selstr]
      rfl
    | some t =>
      have playing := after.playing t tuned
      have soon : w.receiver.synccnt > 0 ↔ t.prs < 6 := by
        have count := playing.tuned.synccnt
        omega
      rw [playing.selstr, selection]
      simp only [soon]
  have push : synced (log ++ [e]) = synced log ++ e.synced.toList := by
    cases call : e.synced <;> simp [synced, call]
  rw [push]
  rcases wfPrs_cases tools imp convert after.sync parts.prs with
    ⟨none, same⟩ | ⟨q, o, called, isPrs, selstr, measured, reported, next⟩
  · rw [none, same, Option.toList_none, List.append_nil]
    exact ⟨after.sync, nofun⟩
  · rw [called]
    refine ⟨next, ?_⟩
    rintro _ _ ⟨⟩
    exact ⟨parts.packet ▸ isPrs, selstr.trans asked, measured, reported⟩

theorem mscHeard_push (log : List Step) (e : Step) :
    mscHeard (log ++ [e]) = mscHeard log ++ if e.msc.isSome then [e.packet.rdbuf] else [] := by
  cases called : e.msc.isSome <;> simp [mscHeard, called]

/-- A round before the tuning. -/
theorem WfState.Waiting.step {log : List Step} {w : WfState} (waiting : w.Waiting memory dec log)
    (sane : Sane w.receiver.einf) {p : Packet} {w' : WfState} {e : Step}
    (parts : Parts tools imp convert ficDecode T mettab decodeRs w p w' e) :
    Sane w'.receiver.einf ∧
      (e.tuned = none ∧ w'.Waiting memory dec (log ++ [e]) ∨
        ∃ t, e.tuned = some t ∧ t.prs = 0 ∧ e.msc = none ∧
          w'.Playing T mettab decodeRs memory dec (log ++ [e]) t) := by
  obtain ⟨untuned, selstr, silent⟩ := waiting
  have chosen := parts.selstr
  have handed := parts.msc
  rw [parts.tuned] at chosen ⊢
  have quiet (none : e.msc = none) : w'.dec = w.dec ∧ mscHeard (log ++ [e]) = mscHeard log ∧
      (log ++ [e]).flatMap (·.audio) = log.flatMap (·.audio) := by
    rw [none] at handed
    obtain ⟨decoder, audio⟩ := Prod.mk.inj (Option.some.inj handed)
    refine ⟨decoder.symm, ?_, ?_⟩
    · rw [mscHeard_push, none]
      exact List.append_nil _
    · rw [List.flatMap_append, List.flatMap_singleton, ← audio, List.append_nil]
  obtain ⟨sane', cases⟩ := untuned.round ficDecode sane parts.round
  refine ⟨sane', ?_⟩
  rcases cases with ⟨still, none, msc, unchanged, stays⟩ | ⟨t, tuned, zero, playing, none, msc, free⟩ |
      ⟨-, barred, still, unchanged⟩
  · obtain ⟨same, heard, audio⟩ := quiet none
    rw [unchanged] at chosen
    refine .inl ⟨unchanged, still, chosen.trans selstr, ?_⟩
    rcases silent with barred | ⟨none', silence, asm, decoder⟩
    · exact .inl (stays barred)
    · exact .inr ⟨heard.trans none', audio.trans silence, msc.trans asm, same.trans decoder⟩
  · obtain ⟨same, heard, audio⟩ := quiet none
    obtain ⟨none', silence, asm, decoder⟩ := silent.resolve_left free
    rw [tuned, selstr, playing.sr] at chosen
    refine .inr ⟨t, tuned, zero, none, playing, chosen, ?_⟩
    rw [heard, none', audio, silence, msc, asm, same, decoder]
    rfl
  · rw [unchanged] at chosen
    exact .inl ⟨unchanged, still, chosen.trans selstr, .inl barred⟩

/-- A round after the tuning. -/
theorem WfState.Playing.step {log : List Step} {t : Tuning} {w : WfState}
    (playing : w.Playing T mettab decodeRs memory dec log t) (sane : Sane w.receiver.einf)
    {p : Packet} {w' : WfState} {e : Step}
    (parts : Parts tools imp convert ficDecode T mettab decodeRs w p w' e) :
    Sane w'.receiver.einf ∧ w'.Playing T mettab decodeRs memory dec (log ++ [e]) (t.packet p) ∧
      e.tuned = none ∧
      e.msc = if e.locked = true ∧ 6 ≤ (t.packet p).prs ∧ p.rdbuf 2 > 4 then some (t.c, t.sr) else none := by
  obtain ⟨tuned, selstr, audio⟩ := playing
  obtain ⟨sane', next, call, msc⟩ := tuned.round ficDecode sane parts.round
  obtain ⟨number, sub, sr⟩ := t.packet_fields p
  have chosen := parts.selstr
  have silent : w.receiver.newTuning w'.receiver = none := by
    rw [Receiver.newTuning, if_neg]
    rintro ⟨before, -⟩
    rw [tuned.selected] at before
    cases before
  rw [parts.tuned, silent] at chosen
  refine ⟨sane', ⟨next, ?_, ?_⟩, parts.tuned.trans silent, ?_⟩
  · rw [sr]
    exact chosen.trans selstr
  · have handed := parts.msc
    rw [sub, sr, mscHeard_push, List.flatMap_append, List.flatMap_singleton]
    cases called : e.msc with
    | none =>
      rw [called] at handed msc
      obtain ⟨decoder, silence⟩ := Prod.mk.inj (Option.some.inj handed)
      rw [if_neg (by decide)] at msc ⊢
      rw [← silence, List.append_nil, List.append_nil, msc, ← decoder]
      exact audio
    | some q =>
      have arguments : q = (t.c, t.sr) := by
        rw [called] at call
        split at call
        · exact Option.some.inj call
        · cases call
      rw [called, arguments] at handed
      rw [called, if_pos Option.isSome_some] at msc
      obtain ⟨⟨chain, out⟩, packet, result⟩ := Option.map_eq_some_iff.mp handed
      obtain ⟨decoder, output⟩ := Prod.mk.inj result
      have described : w'.receiver.einf.schan t.c = t.sub := by
        rw [← number, next.sub, sub]
      rw [described] at packet
      rw [if_pos Option.isSome_some, parts.packet, mscPackets_push T mettab decodeRs audio packet,
        ← output, msc, ← decoder, ← mscPacket_asm T mettab decodeRs packet]
  · rw [parts.locked]
    exact call

theorem WfState.After.step {log : List Step} {w : WfState}
    (after : w.After T mettab decodeRs memory dec log) {p : Packet} {w' : WfState} {e : Step}
    (done : wfPacket tools imp convert ficDecode T mettab decodeRs w p = some (w', e)) :
    Scheduled tools imp log e ∧ w'.After T mettab decodeRs memory dec (log ++ [e]) := by
  have parts := wfPacket_parts tools imp convert ficDecode T mettab decodeRs done
  obtain ⟨sync, calls⟩ := after.synced_step parts
  have push := tuning_push log e
  have locked : e.locked = decide (4 ≤ streak (synced (log ++ [e]))) := parts.locked.trans sync.locked
  cases tuned : tuning log with
  | none =>
    rw [tuned, Option.map_none, Option.none_or] at push
    obtain ⟨sane, ⟨none, waiting⟩ | ⟨t, new, zero, silent, playing⟩⟩ :=
      (after.waiting tuned).step after.sane parts
    · rw [none] at push
      refine ⟨⟨locked, calls, ?_, ?_⟩, ⟨sync, sane, fun _ => waiting, ?_⟩⟩
      · rw [none]
        exact nofun
      · rw [push]
        exact nofun
      · rw [push]
        exact nofun
    · rw [new] at push
      refine ⟨⟨locked, calls, ?_, ?_⟩, ⟨sync, sane, ?_, ?_⟩⟩
      · rw [new]
        rintro _ ⟨⟩
        have described := playing.tuned.sub ▸ playing.tuned.described
        obtain ⟨read, name⟩ := sane.described t.c playing.tuned.small described.le
        rw [playing.tuned.sub] at read name
        exact ⟨tuned, zero, read, name, playing.tuned.range⟩
      · rw [push]
        rintro _ ⟨⟩
        rw [silent, if_neg]
        rintro ⟨-, waited, -⟩
        omega
      · rw [push]
        exact nofun
      · rw [push]
        rintro _ ⟨⟩
        exact playing
  | some t =>
    rw [tuned, Option.map_some, Option.some_or] at push
    obtain ⟨sane, playing, none, msc⟩ := (after.playing t tuned).step after.sane parts
    rw [← parts.packet] at playing msc
    obtain ⟨number, -, sr⟩ := t.packet_fields e.packet
    refine ⟨⟨locked, calls, ?_, ?_⟩, ⟨sync, sane, ?_, ?_⟩⟩
    · rw [none]
      exact nofun
    · rw [push]
      rintro _ ⟨⟩
      rw [number, sr]
      exact msc
    · rw [push]
      exact nofun
    · rw [push]
      rintro _ ⟨⟩
      exact playing

/-- Every beginning of a run leads to a state that belongs to what it has shown. -/
theorem wfLog_after (sr : Symrange) (sid : UInt32) {packets : List Packet} {log : List Step}
    (inside : log <+: wfLog tools imp convert ficDecode T mettab decodeRs
      (WfState.initial sr sid memory dec) packets) :
    (∃ w : WfState, w.After T mettab decodeRs memory dec log) ∧
      ∀ earlier e, earlier ++ [e] <+: log → Scheduled tools imp earlier e := by
  have keeps : ∀ shown (w : WfState) p w' e, w.After T mettab decodeRs memory dec shown →
      wfPacket tools imp convert ficDecode T mettab decodeRs w p = some (w', e) →
      (Scheduled tools imp shown e ∧ ∃ w : WfState, w.After T mettab decodeRs memory dec (shown ++ [e])) ∧
        w'.After T mettab decodeRs memory dec (shown ++ [e]) := by
    intro shown w p w' e after done
    obtain ⟨scheduled, next⟩ := after.step done
    exact ⟨⟨scheduled, w', next⟩, next⟩
  have laws := trace_law keeps (WfState.after_initial T mettab decodeRs memory dec sr sid) packets
  refine ⟨?_, fun earlier e within => (laws earlier e (within.trans inside)).1⟩
  rcases List.eq_nil_or_concat log with rfl | ⟨earlier, e, rfl⟩
  · exact ⟨_, WfState.after_initial T mettab decodeRs memory dec sr sid⟩
  · rw [List.concat_eq_append] at inside ⊢
    exact (laws earlier e inside).2

end Run

section Reception

variable (tools : Instruments ℚ) (imp : (Nat → ℚ × ℚ) → ℚ → ℚ) (convert : ℚ → Int)
  (ficDecode : (Nat → UInt8) → (Nat → UInt8) → Nat × (Nat → UInt8))

/-- Over any packets, every round does what is due: the receiver is in step after four good symbols in
a row; a PRS packet asks for the symbols that belong to the stage of the tuning; and after six of them
every MSC symbol received in step goes to the sub-channel that was chosen, and to no other. -/
theorem wf_schedule (T : Target) (mettab : Nat → Nat → Int) (decodeRs : List UInt8 → List UInt8)
    (memory : Nat → Nat → UInt8) (dec : MscDecoder) (sr : Symrange) (sid : UInt32)
    (packets : List Packet) {earlier : List Step} {e : Step}
    (inside : earlier ++ [e] <+: wfLog tools imp convert ficDecode T mettab decodeRs
      (WfState.initial sr sid memory dec) packets) : Scheduled tools imp earlier e :=
  (wfLog_after sr sid inside).2 earlier e List.prefix_rfl

/-- The audio of a run up to any round, once the receiver has been tuned: the audio decoder over the
frames nearest to what has been received in the packets passed on. -/
theorem wf_audio {T : Target} (native : T.Native) {mettab : Nat → Nat → Int} (met : GenMet mettab)
    (decodeRs : List UInt8 → List UInt8) (memory : Nat → Nat → UInt8) {dec : MscDecoder}
    (fresh : dec.init = true) (sr : Symrange) (sid : UInt32) (packets : List Packet) {log : List Step}
    (run : log <+: wfLog tools imp convert ficDecode T mettab decodeRs
      (WfState.initial sr sid memory dec) packets) {t : Tuning} (tuned : tuning log = some t)
    (whole : t.sub.Whole) (inside : t.sub.startaddr + t.sub.subchsz < 864) :
    ∃ frames, List.Forall₂ t.sub.Nearest
        (logicalFrames t.sub t.sr (mscHeard log) (MscState.initial memory)) frames ∧
      (audioRun decodeRs t.sub frames dec.audio).map Prod.snd = some (log.flatMap (·.audio)) := by
  obtain ⟨⟨w, after⟩, -⟩ := wfLog_after sr sid run
  obtain ⟨receiver, -, audio⟩ := after.playing t tuned
  obtain ⟨r, range⟩ := receiver.range
  have named : (w.receiver.einf.schan t.c).subchid ≤ 64 := by
    rw [receiver.sub]
    exact receiver.described.le
  obtain ⟨read, -⟩ := after.sane.described t.c receiver.small named
  rw [receiver.sub] at read
  rw [range] at audio ⊢
  obtain ⟨frames, nearest, output⟩ := mscPackets_fresh native met decodeRs read whole inside r memory
    fresh (mscHeard log)
  rw [audio] at output
  exact ⟨frames, nearest, output.symm⟩

end Reception

/-! A run in silence: every symbol is within the limits, so the receiver is in step from the fourth
call on. -/

def silentTools : Instruments ℚ := ⟨fun _ _ => 0, fun _ _ => 0, fun _ => 0, fun _ => 0, fun _ => 0, fun _ => 0⟩

def silentImp : (Nat → ℚ × ℚ) → ℚ → ℚ := fun _ _ => 0

theorem mag_silent (pts : Nat) (points : Nat → ℚ × ℚ) : mag silentTools.sqrt pts points = fun _ => 0 := by
  funext i
  exact zero_div _

theorem maxext_zero (n : Nat) : maxext (fun _ => (0 : ℚ)) n = (0, 0) := by
  apply loop_invariant (fun _ s => s = (0, 0)) rfl
  rintro i - s rfl
  exact if_neg (lt_irrefl 0)

theorem measured_silent {earlier : List (SyncCall × SyncOutcome)} {p : SyncCall} {o : SyncOutcome}
    (measured : Measured silentTools silentImp earlier p o) : Near o.c o.ir := by
  have mean : meanMag (fun _ => (0 : ℚ)) prsPoints = 0 := by
    rw [meanMag_eq]
    simp
  constructor
  · rw [measured.c]
    by_cases locked : 4 ≤ streak earlier
    · exact carriers_within ((carrierOffset_bounds _ _ _).2.2 (decide_eq_true locked))
    · have idle (j : Nat) : shiftValue silentTools false (receivedPoints silentTools p.prsb) j = 0 := by
        rw [shiftValue, magnitudes, mag_silent, maxext_zero, mean]
        norm_num
      have search : coarseSearch silentTools false p.prsb = (0, 0) := by
        rw [coarseSearch_scan, Peak.scan_none fun j _ => (idle j).le]
        rfl
      rw [decide_eq_false locked, carrierOffset, if_neg (by decide), search]
      norm_num [signedIndex]
  · have still (n : Nat) : (refinePosition (fun _ => 0) 0 0 n).ir = 0 ∧
        (refinePosition (fun _ => 0) 0 0 n).max = 0 := by
      induction n with
      | zero => exact ⟨by norm_num [refinePosition, startPosition], rfl⟩
      | succ n ih =>
        rw [refinePosition] at ih ⊢
        rw [loop_succ]
        simp [Refinement.round, Refinement.attempt, ih]
    have search : Refinement.search (fun _ => 0) 64 (refinePosition (fun _ => 0) 0 0 0) =
        some (refinePosition (fun _ => 0) 0 0 15) := search_rounds _ _ _ (by decide) (by decide)
    have none : ¬14 * meanMag (fun _ => (0 : ℚ)) prsPoints > 0 := by
      rw [mean]
      norm_num
    have position : impulsePosition silentTools silentImp (decide (4 ≤ streak earlier)) p.prsb = some 0 := by
      unfold impulsePosition
      dsimp only
      rw [mag_silent, maxext_zero, if_neg none]
      refine (congrArg (Option.bind · _) search).trans ?_
      rw [Option.bind_some, (still 15).1, zero_mul]
      rfl
    rw [Option.some.inj (measured.ir.symm.trans position), abs_zero]
    norm_num

theorem streak_near {log : List (SyncCall × SyncOutcome)} (near : ∀ e ∈ log, Near e.2.c e.2.ir) :
    streak log = log.length := by
  rw [streak, List.rtakeWhile_eq_self_iff.mpr fun e member => decide_eq_true (near e member)]

structure Quiet where
  prs : PrsState
  calls : Nat
  receiver : Receiver

def quietPrs (p : Packet) (s : PrsState) : PrsState × Bool :=
  if p.isPrs then prsAssemble p.rdbuf s else (s, false)

section Quiet

variable (ficDecode : (Nat → UInt8) → (Nat → UInt8) → Nat × (Nat → UInt8))

def Quiet.step (s : Quiet) (p : Packet) : Option Quiet :=
  let r := quietPrs p s.prs
  let calls := s.calls + r.2.toNat
  (wfRound ficDecode (p.round (decide (4 ≤ calls))) s.receiver).bind fun m =>
    if m.2.isNone then some ⟨r.1, calls, m.1⟩ else none

structure Quiet.Of (log : List Step) (w : WfState) (s : Quiet) : Prop where
  prs : s.prs = w.prs
  calls : s.calls = (synced log).length
  receiver : s.receiver = w.receiver
  near : ∀ e ∈ synced log, Near e.2.c e.2.ir

theorem wfPrs_silent (convert : ℚ → Int) {log : List (SyncCall × SyncOutcome)} {w : WfState}
    (after : w.sync.After log) (near : ∀ e ∈ log, Near e.2.c e.2.ir) (p : Packet) :
    ∃ sync call, wfPrs silentTools silentImp convert p w = some ((quietPrs p w.prs).1, sync, call) ∧
      sync.syncLocked = decide (4 ≤ log.length + (quietPrs p w.prs).2.toNat) ∧
      call.toList.length = (quietPrs p w.prs).2.toNat ∧ ∀ e ∈ log ++ call.toList, Near e.2.c e.2.ir := by
  have locked {sync : SyncState} {log : List (SyncCall × SyncOutcome)} (after : sync.After log)
      (near : ∀ e ∈ log, Near e.2.c e.2.ir) : sync.syncLocked = decide (4 ≤ log.length) := by
    rw [after.locked, streak_near near]
  have same : log ++ (none : Option (SyncCall × SyncOutcome)).toList = log := List.append_nil log
  rw [wfPrs, quietPrs]
  by_cases isPrs : p.isPrs = true
  · rw [if_pos isPrs, if_pos isPrs]
    dsimp only
    cases full : (prsAssemble p.rdbuf w.prs).2 with
    | true =>
      obtain ⟨q, call⟩ : ∃ q : SyncCall, q = ⟨(prsAssemble p.rdbuf w.prs).1.prsbuf,
        if w.receiver.synccnt > 0 then chgstr else w.selstr, p.tp, p.tpAfc⟩ := ⟨_, rfl⟩
      obtain ⟨sync, o, run, measured, -, next⟩ := after.step silentTools silentImp convert q
      have still : ∀ e ∈ log ++ [(q, o)], Near e.2.c e.2.ir := by
        intro e member
        rcases List.mem_append.mp member with old | new
        · exact near e old
        · rw [List.mem_singleton.mp new]
          exact measured_silent measured
      have count := locked next still
      rw [List.length_append] at count
      rw [if_pos rfl, ← call, run]
      exact ⟨sync, some (q, o), rfl, count, rfl, still⟩
    | false =>
      rw [if_neg (by decide)]
      exact ⟨w.sync, none, rfl, locked after near, rfl, same.symm ▸ near⟩
  · rw [if_neg isPrs, if_neg isPrs]
    exact ⟨w.sync, none, rfl, locked after near, rfl, same.symm ▸ near⟩

variable {ficDecode} {T : Target} {mettab : Nat → Nat → Int} {decodeRs : List UInt8 → List UInt8}
  {memory : Nat → Nat → UInt8} {dec : MscDecoder}

theorem Quiet.Of.step (convert : ℚ → Int) {log : List Step} {w : WfState} {s s' : Quiet}
    (same : s.Of log w) (after : w.After T mettab decodeRs memory dec log) {p : Packet}
    (done : s.step ficDecode p = some s') : ∃ w' e,
      wfPacket silentTools silentImp convert ficDecode T mettab decodeRs w p = some (w', e) ∧
        s'.Of (log ++ [e]) w' := by
  obtain ⟨prs, calls, receiver, near⟩ := same
  obtain ⟨⟨m, msc⟩, round, silent⟩ := Option.bind_eq_some_iff.mp done
  rw [Option.ite_none_right_eq_some] at silent
  obtain ⟨none, result⟩ := silent
  obtain rfl : msc = Option.none := Option.isNone_iff_eq_none.mp none
  obtain rfl := Option.some.inj result
  rw [prs, calls, receiver] at round
  obtain ⟨sync, call, first, locked, count, still⟩ := wfPrs_silent convert after.sync near p
  rw [← locked] at round
  obtain ⟨w', e, whole⟩ : ∃ w' e, wfPacket silentTools silentImp convert ficDecode T mettab decodeRs w p =
      some (w', e) := by
    unfold wfPacket
    simp [first, round, wfMsc]
  have parts := wfPacket_parts _ _ _ _ _ _ _ whole
  obtain ⟨same, rest⟩ := Prod.mk.inj (Option.some.inj (first.symm.trans parts.prs))
  obtain ⟨again, given⟩ := Prod.mk.inj rest
  have push : synced (log ++ [e]) = synced log ++ call.toList := by
    rw [given]
    cases value : e.synced <;> simp [synced, value]
  have next := parts.round
  rw [← again, round] at next
  obtain ⟨received, -⟩ := Prod.mk.inj (Option.some.inj next)
  refine ⟨w', e, whole, ?_, ?_, received, ?_⟩
  · rw [prs]
    exact same
  · rw [push, List.length_append, count, calls, prs]
  · rw [push]
    exact still

theorem Quiet.Of.run (convert : ℚ → Int) {log : List Step} {w : WfState} {s s' : Quiet}
    (same : s.Of log w) (after : w.After T mettab decodeRs memory dec log) {packets : List Packet}
    (done : packets.foldlM (Quiet.step ficDecode) s = some s') : ∃ w' later, s'.Of (log ++ later) w' ∧
      w'.After T mettab decodeRs memory dec (log ++ later) ∧ ∀ rest,
        wfLog silentTools silentImp convert ficDecode T mettab decodeRs w (packets ++ rest) =
          later ++ wfLog silentTools silentImp convert ficDecode T mettab decodeRs w' rest := by
  induction packets generalizing log w s with
  | nil =>
    cases done
    refine ⟨w, [], ?_, ?_, fun rest => rfl⟩
    · rwa [List.append_nil]
    · rwa [List.append_nil]
  | cons p packets ih =>
    rw [List.foldlM_cons] at done
    obtain ⟨s₁, first, done⟩ := Option.bind_eq_some_iff.mp done
    obtain ⟨w₁, e, round, same₁⟩ := same.step convert after first
    obtain ⟨w', later, same', after', rest⟩ := ih same₁ (after.step round).2 done
    rw [List.append_assoc] at same' after'
    refine ⟨w', [e] ++ later, same', after', fun more => ?_⟩
    rw [wfLog, List.cons_append, trace, round]
    exact congrArg (e :: ·) (rest more)

end Quiet

/-- While the FIC is read a packet with none of its symbols changes nothing. -/
theorem wfRound_idle (ficDecode : (Nat → UInt8) → (Nat → UInt8) → Nat × (Nat → UInt8)) {p : Round}
    {m : Receiver} (idle : m.synccnt = 0) (reading : ¬m.Stopped) (other : p.rdbuf 2 = 0) :
    wfRound ficDecode p m = some (m, none) := by
  have still : m.fibcnt < maxfibs ∧ labelled m.einf = false := Decidable.not_not.mp reading
  rw [wfRound, resync_idle idle]
  by_cases locked : p.syncLocked = true
  · have silent : ¬(p.rdbuf 2 = 2 ∨ p.rdbuf 2 = 3 ∨ p.rdbuf 2 = 4) := by
      rw [other]
      decide
    dsimp only
    rw [if_pos locked, if_pos still, if_neg silent]
  · exact if_neg locked

/-! The sample: sixteen PRS packets, the FIC, the choice, six PRS packets, and a symbol. -/

def samplePrs (t : Nat) : Packet where
  rdbuf := ofList [0, 0, 0, 0, 0, 0, 0, UInt8.ofNat (t % 4), 0, 2] fun _ => 0
  tp := ⟨0, 0⟩
  tpAfc := ⟨0, 0⟩
  number := -1
  stack := fun _ => ⟨0, 0, 0, 0, 0, 0, 0, 0⟩

def sampleSymbol (sym : UInt8) (number : Int) : Packet where
  rdbuf := ofList [0, 0, sym, 0, 0, 0, 0, 0, 0, 1] fun _ => 0
  tp := ⟨0, 0⟩
  tpAfc := ⟨0, 0⟩
  number := number
  stack := fun _ => ⟨0, 0, 0, 0, 0, 0, 0, 0⟩

def sampleDecode (_ _ : Nat → UInt8) : Nat × (Nat → UInt8) := (2, sampleFibs)

def sampleBegin : List Packet := (List.range 16).map samplePrs

def sampleChoice : List Packet :=
  [sampleSymbol 2 (-1), sampleSymbol 3 (-1), sampleSymbol 4 (-1), sampleSymbol 0 0, sampleSymbol 0 (-1)] ++
    (List.range 6).map samplePrs

def inStep (m : Receiver) (packets : List Packet) : Option Receiver :=
  packets.foldlM (fun m p => (wfRound sampleDecode (p.round true) m).bind fun r =>
    if r.2.isNone then some r.1 else none) m

theorem inStep_run {s : Quiet} (locked : 4 ≤ s.calls) {packets : List Packet} {m : Receiver}
    (run : inStep s.receiver packets = some m) : ∃ s', packets.foldlM (Quiet.step sampleDecode) s = some s' ∧
      s'.receiver = m ∧ 4 ≤ s'.calls := by
  induction packets generalizing s with
  | nil =>
    cases run
    exact ⟨s, rfl, rfl, locked⟩
  | cons p packets ih =>
    rw [inStep, List.foldlM_cons] at run
    obtain ⟨m₁, first, run⟩ := Option.bind_eq_some_iff.mp run
    obtain ⟨r, round, silent⟩ := Option.bind_eq_some_iff.mp first
    rw [Option.ite_none_right_eq_some] at silent
    obtain ⟨none, result⟩ := silent
    obtain rfl := Option.some.inj result
    have step : s.step sampleDecode p =
        some ⟨(quietPrs p s.prs).1, s.calls + (quietPrs p s.prs).2.toNat, r.1⟩ := by
      unfold Quiet.step
      dsimp only
      rw [decide_eq_true (by omega), round, Option.bind_some, if_pos none]
    obtain ⟨s', rest, received, still⟩ := ih (s := ⟨_, s.calls + (quietPrs p s.prs).2.toNat, r.1⟩)
      (by dsimp only; omega) run
    refine ⟨s', ?_, received, still⟩
    rw [List.foldlM_cons, step]
    exact rest

def sampleWf : WfState :=
  WfState.initial ⟨fun _ => 0, fun _ => 0, 0, 0, 0⟩ 0 (fun _ _ => 0) MscDecoder.initial

theorem sampleBegin_quiet : ∃ s,
    sampleBegin.foldlM (Quiet.step sampleDecode) ⟨PrsState.initial, 0, sampleWf.receiver⟩ = some s ∧
      s.calls = 4 ∧ s.receiver = sampleWf.receiver := by
  have calls : (sampleBegin.foldlM (Quiet.step sampleDecode)
      ⟨PrsState.initial, 0, sampleWf.receiver⟩).map Quiet.calls = some 4 := by
    decide +kernel
  have reading : ¬sampleWf.receiver.Stopped := by decide
  have idle : ∀ packets : List Packet, (∀ p ∈ packets, p.rdbuf 2 = 0) → ∀ s s' : Quiet,
      s.receiver = sampleWf.receiver → packets.foldlM (Quiet.step sampleDecode) s = some s' →
      s'.receiver = sampleWf.receiver := by
    intro packets others
    induction packets with
    | nil =>
      rintro s s' same ⟨⟩
      exact same
    | cons p packets ih =>
      intro s s' same run
      obtain ⟨other, others⟩ := List.forall_mem_cons.mp others
      rw [List.foldlM_cons] at run
      obtain ⟨s₁, first, run⟩ := Option.bind_eq_some_iff.mp run
      refine ih others s₁ s' ?_ run
      rw [Quiet.step, same, wfRound_idle sampleDecode rfl reading other] at first
      cases first
      rfl
  obtain ⟨s, run, count⟩ := Option.map_eq_some_iff.mp calls
  refine ⟨s, run, count, idle _ ?_ _ s rfl run⟩
  intro p member
  obtain ⟨t, -, rfl⟩ := List.mem_map.mp member
  rfl

theorem sampleChoice_inStep : ∃ m, inStep sampleWf.receiver sampleChoice = some m ∧
    m.sel.sch = some 5 ∧ m.selected = true ∧ m.synccnt = 0 ∧ labelled m.einf = true ∧
    (m.einf.schan 5).startaddr = 0 ∧ (m.einf.schan 5).subchsz = 16 ∧ (m.einf.schan 5).eepprot = 0 := by
  have choice : (inStep sampleWf.receiver sampleChoice).map
      (fun m => (m.sel.sch, m.selected, m.synccnt, labelled m.einf)) = some (some 5, true, 0, true) := by
    decide +kernel
  have sub : (inStep sampleWf.receiver sampleChoice).map
      (fun m => ((m.einf.schan 5).startaddr, (m.einf.schan 5).subchsz, (m.einf.schan 5).eepprot)) =
        some (0, 16, 0) := by
    decide +kernel
  obtain ⟨m, run, state⟩ := Option.map_eq_some_iff.mp choice
  rw [run, Option.map_some, Option.some.injEq] at sub
  simp only [Prod.mk.injEq] at state sub
  exact ⟨m, run, state.1, state.2.1, state.2.2.1, state.2.2.2, sub.1, sub.2.1, sub.2.2⟩

def sampleLog : List Step :=
  wfLog silentTools silentImp (fun _ => 0) sampleDecode .x86_64 unitMettab id sampleWf
    (sampleBegin ++ sampleChoice ++ [sampleSymbol 80 (-1)])

theorem sampleLog_plays : ∃ earlier e t, sampleLog = earlier ++ [e] ∧ tuning sampleLog = some t ∧
    e.msc.isSome = true ∧ t.sub.startaddr = 0 ∧ t.sub.subchsz = 16 ∧ t.sub.eepprot = 0 := by
  obtain ⟨s₁, first, calls, begun⟩ := sampleBegin_quiet
  obtain ⟨m, chosen, sch, selected, synccnt, complete, start, size, uep⟩ := sampleChoice_inStep
  obtain ⟨s₂, second, received, locked⟩ := inStep_run calls.ge (begun ▸ chosen)
  have both : (sampleBegin ++ sampleChoice).foldlM (Quiet.step sampleDecode)
      ⟨PrsState.initial, 0, sampleWf.receiver⟩ = some s₂ := by
    rw [List.foldlM_append, first]
    exact second
  have after : sampleWf.After .x86_64 unitMettab id (fun _ _ => 0) MscDecoder.initial [] :=
    WfState.after_initial ..
  have same : Quiet.Of [] sampleWf ⟨PrsState.initial, 0, sampleWf.receiver⟩ := ⟨rfl, rfl, rfl, nofun⟩
  obtain ⟨w, later, same', after', rest⟩ := same.run (fun _ => 0) after both
  rw [List.nil_append] at same' after'
  have receiver : w.receiver = m := same'.receiver.symm.trans received
  obtain ⟨t, tuned⟩ : ∃ t, tuning later = some t := by
    cases state : tuning later with
    | none =>
      have idle := (after'.waiting state).untuned.selected
      rw [receiver, selected] at idle
      cases idle
    | some t => exact ⟨t, rfl⟩
  have playing := (after'.playing t tuned).tuned
  have number : t.c = 5 := Option.some.inj (playing.sch.symm.trans (receiver ▸ sch))
  have described : t.sub = m.einf.schan 5 := by
    rw [← playing.sub, receiver, number]
  obtain ⟨r, range⟩ := playing.range
  have placed : Placed m.sel.sr (t.sub.startaddr / 48) := by
    rw [← receiver, playing.sr, range]
    apply startsym_placed
    rw [described, start, size]
    decide
  obtain ⟨sync, call, prs, inSync, -⟩ := wfPrs_silent (fun _ => 0) after'.sync same'.near
    (sampleSymbol 80 (-1))
  have enough : 4 ≤ (synced later).length := same'.calls ▸ locked
  rw [decide_eq_true (by omega)] at inSync
  have round : wfRound sampleDecode ((sampleSymbol 80 (-1)).round sync.syncLocked) w.receiver =
      some ({ m with
        enslistvisible := true
        msc := (mscAssemble (sampleSymbol 80 (-1)).rdbuf m.sel.sr m.msc).1 },
        some (5, m.sel.sr)) := by
    rw [receiver, inSync]
    simp [wfRound, Receiver.resync, Receiver.tune, Packet.round, sampleSymbol, ofList, sch, selected,
      complete, synccnt]
  have ignored : mscAssemble (sampleSymbol 80 (-1)).rdbuf m.sel.sr w.receiver.msc =
      (w.receiver.msc, []) := mscAssemble_outside placed (.inr (by decide)) w.receiver.msc
  obtain ⟨w', e, last⟩ : ∃ w' e, wfPacket silentTools silentImp (fun _ => 0) sampleDecode .x86_64 unitMettab
      id w (sampleSymbol 80 (-1)) = some (w', e) := by
    unfold wfPacket
    simp [prs, round, wfMsc, mscPacket, ignored]
  have parts := wfPacket_parts _ _ _ _ _ _ _ last
  have passed := parts.round
  obtain ⟨-, again⟩ := Prod.mk.inj (Option.some.inj (prs.symm.trans parts.prs))
  rw [← (Prod.mk.inj again).1, round] at passed
  obtain ⟨-, msc⟩ := Prod.mk.inj (Option.some.inj passed)
  have run : sampleLog = later ++ [e] := by
    refine (rest [sampleSymbol 80 (-1)]).trans ?_
    rw [wfLog, trace, last]
    rfl
  have now : tuning sampleLog = some (t.packet e.packet) := by
    rw [run, tuning_push, tuned, Option.map_some, Option.some_or]
  have sub := (t.packet_fields e.packet).2.1
  refine ⟨later, e, _, run, now, msc ▸ rfl, ?_, ?_, ?_⟩
  · rw [sub, described, start]
  · rw [sub, described, size]
  · rw [sub, described, uep]

theorem wf_schedule_sample : ∃ earlier e, sampleLog = earlier ++ [e] ∧ e.msc.isSome = true ∧
    Scheduled silentTools silentImp earlier e := by
  obtain ⟨earlier, e, -, run, -, passed, -⟩ := sampleLog_plays
  have inside : earlier ++ [e] <+: sampleLog := by
    rw [run]
  exact ⟨earlier, e, run, passed,
    wf_schedule silentTools silentImp (fun _ => 0) sampleDecode _ _ _ _ _ _ _ _ inside⟩

theorem wf_audio_sample : ∃ t frames, tuning sampleLog = some t ∧ mscHeard sampleLog ≠ [] ∧
    List.Forall₂ t.sub.Nearest
      (logicalFrames t.sub t.sr (mscHeard sampleLog) (MscState.initial fun _ _ => 0)) frames ∧
    (audioRun id t.sub frames MscDecoder.initial.audio).map Prod.snd =
      some (sampleLog.flatMap (·.audio)) := by
  obtain ⟨earlier, e, t, run, tuned, passed, start, size, uep⟩ := sampleLog_plays
  have heard : mscHeard sampleLog ≠ [] := by
    rw [run, mscHeard_push, if_pos passed]
    simp
  obtain ⟨frames, nearest, output⟩ := wf_audio silentTools silentImp (fun _ => 0) sampleDecode
    (T := .x86_64) rfl genMet_unit id (fun _ _ => 0) rfl ⟨fun _ => 0, fun _ => 0, 0, 0, 0⟩ 0
    (sampleBegin ++ sampleChoice ++ [sampleSymbol 80 (-1)]) List.prefix_rfl tuned
    (fun eep => absurd uep eep) (by omega)
  exact ⟨t, frames, tuned, heard, nearest, output⟩

end OpenDab
