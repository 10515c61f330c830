import OpenDab.FicReception
import OpenDab.MscReception

/-! The two programs around a file: `main` with `-d` writes the packets that hold symbols, and `wfx`
reads them twice, first for the FIC and then for the sub-channel that the user chooses. -/
namespace OpenDab

open Buffers Steps

/-- The packets that `-d` writes, each of them whole. -/
def dump (packets : List (Nat → UInt8)) : List UInt8 :=
  (packets.filter fun rdbuf => rdbuf 9 = 1).flatMap fun rdbuf => cells rdbuf 0 524

def pktbuf (bytes : List UInt8) : Nat → UInt8 := ofList bytes fun _ => 0

/-- `fread(pktbuf, 524, 1, ifp)` as long as it reads something whole. -/
def blocks (file : List UInt8) : List (Nat → UInt8) :=
  (List.range (file.length / 524)).map fun k => pktbuf ((file.drop (524 * k)).take 524)

/-- Skip this many symbols at the start of the file. -/
def fskip : Nat := 800

def Marked (pktbuf : Nat → UInt8) : Prop := pktbuf 0 = 0x0c ∧ pktbuf 1 = 0x62

instance (pktbuf : Nat → UInt8) : Decidable (Marked pktbuf) := inferInstanceAs (Decidable (_ ∧ _))

def FicBlock (pktbuf : Nat → UInt8) : Prop :=
  Marked pktbuf ∧ (pktbuf 2 = 2 ∨ pktbuf 2 = 3 ∨ pktbuf 2 = 4)

instance (pktbuf : Nat → UInt8) : Decidable (FicBlock pktbuf) := inferInstanceAs (Decidable (_ ∧ _))

def wfxGetnum (numSrvs : Nat) (numbers : List Int) : Option Int :=
  numbers.find? fun i => ¬(i < 0 ∨ i > (numSrvs : Int) - 1)

section Program

variable (ficDecode : (Nat → UInt8) → (Nat → UInt8) → Nat × (Nat → UInt8)) (T : Target)
  (mettab : Nat → Nat → Int) (decodeRs : List UInt8 → List UInt8)

/-- A block of the first pass, which ends when all services have labels. -/
def wfxFic (stack : Nat → Subch) (pktbuf : Nat → UInt8) (m : Receiver) : Option Receiver :=
  if labelled m.einf = false ∧ FicBlock pktbuf then
    let r := ficAssemble pktbuf m.fic
    let m := { m with fic := r.1 }
    if r.2 then processFic ficDecode stack m else some m
  else some m

/-- The first pass, with what an uninitialised local holds at each FIG of each block. -/
def wfxRead (stack : Nat → Nat → Subch) (bufs : List (Nat → UInt8)) (m : Receiver) : Option Receiver :=
  bufs.zipIdx.foldlM (fun m block => wfxFic ficDecode (stack block.2) block.1 m) m

def wfxMsc (file : List UInt8) : List (Nat → UInt8) :=
  ((blocks file).drop (fskip + 1)).filter fun pktbuf => Marked pktbuf ∧ pktbuf 2 > 4

/-- `wfx`, from the statics and locals at program start: the ensemble and the audio. There is none if no
service is chosen, or if what is chosen has no sub-channel. -/
def wfx (m : Receiver) (dec : MscDecoder) (file : List UInt8) (stack : Nat → Nat → Subch)
    (numbers : List Int) : Option (EnsInfo × List UInt8) := do
  let m ← wfxRead ficDecode stack (blocks file) m
  let number ← wfxGetnum m.einf.numSrvs numbers
  let u := userSelectService m.einf m.rq number m.sel
  let c ← u.sel.sch
  let sr := startsym u.sel.sr (m.einf.schan c)
  let r ← mscPackets T mettab decodeRs (m.einf.schan c) sr (wfxMsc file) ⟨m.msc, dec⟩
  return (m.einf, r.2)

end Program

/-! What is written is what is read. -/

theorem blocks_cons (packet : Nat → UInt8) (file : List UInt8) :
    blocks (cells packet 0 524 ++ file) = pktbuf (cells packet 0 524) :: blocks file := by
  have count : (cells packet 0 524 ++ file).length / 524 = file.length / 524 + 1 := by
    rw [List.length_append, length_cells]
    omega
  rw [blocks, blocks, count, List.range_succ_eq_map, List.map_cons, List.map_map]
  have first : ((cells packet 0 524 ++ file).drop (524 * 0)).take 524 = cells packet 0 524 := by
    rw [Nat.mul_zero, List.drop_zero, List.take_left' (length_cells packet 0 524)]
  rw [first]
  apply congrArg (pktbuf (cells packet 0 524) :: ·)
  apply List.map_congr_left
  intro k _
  have later : 524 * (k + 1) = (cells packet 0 524).length + 524 * k := by
    rw [length_cells]
    omega
  rw [Function.comp_apply, Nat.succ_eq_add_one, later, List.drop_append]
  have behind : (cells packet 0 524).drop ((cells packet 0 524).length + 524 * k) = [] :=
    List.drop_eq_nil_of_le (by omega)
  rw [behind, List.nil_append, Nat.add_sub_cancel_left]

/-- A file that `-d` has written holds the packets with symbols. -/
theorem blocks_dump (packets : List (Nat → UInt8)) :
    blocks (dump packets) =
      (packets.filter fun rdbuf => rdbuf 9 = 1).map fun rdbuf => pktbuf (cells rdbuf 0 524) := by
  rw [dump]
  induction packets.filter fun rdbuf => rdbuf 9 = 1 with
  | nil => rfl
  | cons packet packets ih => rw [List.flatMap_cons, blocks_cons, ih, List.map_cons]

/-! The first pass. -/

section Reading

variable (b : Fic)

def Fic.replay (frames : List Nat) : Directory :=
  frames.foldl (fun D f => if D.labelled then D else (b.frameFigs f).foldl Directory.apply D)
    (directory (ficinit einf))

/-- What `wfx` has made of the symbols at `ts`. -/
structure Fic.Replayed (start : Receiver) (ts : List Nat) (m : Receiver) : Prop where
  learnt : directory m.einf = b.replay (wholeFrames ts)
  collects : labelled m.einf = false → b.Collects ts m.fic
  sane : Sane m.einf
  others : m.rq = start.rq ∧ m.sel = start.sel ∧ m.msc = start.msc

theorem replay_step {ts : List Nat} {t : Nat} (later : ∀ u ∈ ts, u < t) :
    b.replay (wholeFrames (ts ++ [t])) =
      if Completes3 ts t ∧ (b.replay (wholeFrames ts)).labelled = false then
        (b.frameFigs (t / 3)).foldl Directory.apply (b.replay (wholeFrames ts))
      else b.replay (wholeFrames ts) := by
  rw [wholeFrames_push later, Fic.replay, List.foldl_append, ← Fic.replay]
  by_cases whole : Completes3 ts t
  · have symbols : t % 3 = 2 ∧ t - 1 ∈ ts ∧ t - 2 ∈ ts := whole
    rw [if_pos symbols, List.foldl_cons, List.foldl_nil]
    cases known : (b.replay (wholeFrames ts)).labelled with
    | true => simp
    | false => simp [whole]
  · have symbols : ¬(t % 3 = 2 ∧ t - 1 ∈ ts ∧ t - 2 ∈ ts) := whole
    rw [if_neg symbols, List.foldl_nil, if_neg fun both => whole both.1]

variable {b} {T : Target} {mettab : Nat → Nat → Int}
  {decode : (Nat → UInt8) → (Nat → UInt8) → Nat × (Nat → UInt8)} {start : Receiver} {ts : List Nat}
  {m : Receiver}

theorem processFic_sane {ficDecode : (Nat → UInt8) → (Nat → UInt8) → Nat × (Nat → UInt8)} {m m' : Receiver}
    (sane : Sane m.einf) {stack : Nat → Subch} (processed : processFic ficDecode stack m = some m') :
    Sane m'.einf := by
  obtain ⟨s, handled, rfl⟩ := Option.map_eq_some_iff.mp processed
  exact sane.processFibs handled

theorem Fic.Replayed.step (native : T.Native) (met : GenMet mettab)
    (decodes : DecodesFic T mettab decode) (replayed : b.Replayed start ts m)
    (ordered : ts.Pairwise (· < ·)) {t : Nat} (follows : b.Follows ts t) {pktbuf : Nat → UInt8}
    (block : FicBlock pktbuf) (sent : b.Sent t pktbuf) (stack : Nat → Subch) :
    ∃ m', wfxFic decode stack pktbuf m = some m' ∧ b.Replayed start (ts ++ [t]) m' := by
  have learns := replay_step b follows.later
  rw [← replayed.learnt, labelled_directory] at learns
  cases known : labelled m.einf with
  | true =>
    refine ⟨m, ?_, ?_, fun reading => ?_, replayed.sane, replayed.others⟩
    · rw [wfxFic, if_neg fun both => Bool.noConfusion (known.symm.trans both.1)]
    · rw [learns, if_neg fun both => Bool.noConfusion (known.symm.trans both.2)]
    · exact Bool.noConfusion (known.symm.trans reading)
  | false =>
    obtain ⟨collects, processed, holds⟩ := (replayed.collects known).step ordered follows sent
    rw [wfxFic, if_pos ⟨known, block⟩]
    dsimp only
    by_cases whole : Completes3 ts t
    · have called := processed.mpr whole
      obtain ⟨e, rawfibs, run, read⟩ := processFic_holds (b := b)
        (m := { m with fic := (ficAssemble pktbuf m.fic).1 }) native met decodes (holds called) stack
      rw [if_pos called, run]
      have sane := processFic_sane (m := { m with fic := (ficAssemble pktbuf m.fic).1 }) replayed.sane run
      refine ⟨_, rfl, ?_, fun _ => collects, sane, replayed.others⟩
      rw [learns, if_pos ⟨whole, known⟩, read]
    · rw [if_neg fun called => whole (processed.mp called)]
      refine ⟨_, rfl, ?_, fun _ => collects, replayed.sane, replayed.others⟩
      rw [learns, if_neg fun both => whole both.1]

def replayedAt (recorded : List ((Nat → UInt8) × Nat)) : List Nat :=
  (recorded.filter fun p => FicBlock p.1).map Prod.snd

theorem replayedAt_push (recorded : List ((Nat → UInt8) × Nat)) (p : (Nat → UInt8) × Nat) :
    replayedAt (recorded ++ [p]) = replayedAt recorded ++ if FicBlock p.1 then [p.2] else [] := by
  by_cases block : FicBlock p.1 <;> simp [replayedAt, block]

theorem wfxRead_push (ficDecode : (Nat → UInt8) → (Nat → UInt8) → Nat × (Nat → UInt8))
    (stack : Nat → Nat → Subch) (bufs : List (Nat → UInt8)) (pktbuf : Nat → UInt8) (m : Receiver) :
    wfxRead ficDecode stack (bufs ++ [pktbuf]) m =
      (wfxRead ficDecode stack bufs m).bind (wfxFic ficDecode (stack bufs.length) pktbuf) := by
  rw [wfxRead, List.zipIdx_append, List.foldlM_append, ← wfxRead]
  simp

theorem wfxRead_replayed (native : T.Native) (met : GenMet mettab) (decodes : DecodesFic T mettab decode)
    (sr : Symrange) (sid : UInt32) (msc : MscState) (stack : Nat → Nat → Subch)
    (recorded : List ((Nat → UInt8) × Nat))
    (sent : ∀ p ∈ recorded, FicBlock p.1 → b.Sent p.2 p.1)
    (follows : ∀ earlier t, earlier ++ [t] <+: replayedAt recorded → b.Follows earlier t) :
    ∃ m, wfxRead decode stack (recorded.map Prod.fst) (Receiver.initial sr sid msc) = some m ∧
      b.Replayed (Receiver.initial sr sid msc) (replayedAt recorded) m := by
  induction recorded using List.reverseRecOn with
  | nil =>
    refine ⟨_, rfl, rfl, fun _ => .headless List.mem_cons_self fun u last => ?_, sane_ficinit _, rfl, rfl, rfl⟩
    cases last
  | append_singleton recorded p ih =>
    rw [replayedAt_push] at follows ⊢
    obtain ⟨m, before, replayed⟩ := ih (fun q member => sent q (List.mem_append_left _ member))
      (fun earlier t inside => follows earlier t (inside.trans (List.prefix_append _ _)))
    rw [List.map_append, List.map_singleton, wfxRead_push, before, Option.bind_some]
    by_cases block : FicBlock p.1
    · rw [if_pos block] at follows ⊢
      have ordered := ordered_of_follows follows
      exact replayed.step native met decodes (List.pairwise_append.mp ordered).1
        (follows _ _ List.prefix_rfl) block (sent p (by simp) block) _
    · refine ⟨m, ?_, ?_⟩
      · rw [wfxFic, if_neg fun both => block both.2]
      · rwa [if_neg block, List.append_nil]

end Reading

/-! The second pass. -/

/-- What a valid number chooses. -/
theorem userSelectService_entry (e : EnsInfo) (rq : Bool) {k : Nat} (inside : k < e.numSrvs) (sel : SelSrv)
    {entry : Service × Option Nat} (found : (pointers e.srv)[k]? = some entry) :
    (userSelectService e rq k sel).sel = { sel with sid := entry.1.sid, sch := entry.2 } := by
  have walk := selectService_pointers e.srv 0 k sel
  rw [Int.zero_add, found] at walk
  rw [userSelectService_inside e rq k inside, walk]

/-- The number that is typed in chooses a sub-channel that has been described as the FIC can. -/
structure EnsInfo.Picks (e : EnsInfo) (numbers : List Int) (s : Subch) : Prop where
  entry : ∃ (k c : Nat) (service : Service), wfxGetnum e.numSrvs numbers = some (k : Int) ∧
    (pointers e.srv)[k]? = some (service, some c) ∧ e.schan c = s
  described : s.subchid < 64
  whole : s.Whole
  inside : s.startaddr + s.subchsz < 864

def playedBack (packets : List (Nat → UInt8)) : List (Nat → UInt8) :=
  (((packets.filter fun rdbuf => rdbuf 9 = 1).drop (fskip + 1)).filter fun rdbuf =>
    Marked rdbuf ∧ rdbuf 2 > 4).map fun rdbuf => pktbuf (cells rdbuf 0 524)

theorem pktbuf_cells (rdbuf : Nat → UInt8) {i : Nat} (inside : i < 524) :
    pktbuf (cells rdbuf 0 524) i = rdbuf i := by
  have bound : i < (cells rdbuf 0 524).length := by
    rw [length_cells]
    exact inside
  rw [pktbuf, begins_ofList _ _ i bound]
  simp [cells]

theorem marked_cells (rdbuf : Nat → UInt8) : Marked (pktbuf (cells rdbuf 0 524)) ↔ Marked rdbuf := by
  rw [Marked, pktbuf_cells rdbuf (by decide), pktbuf_cells rdbuf (by decide), Marked]

theorem ficBlock_cells (rdbuf : Nat → UInt8) : FicBlock (pktbuf (cells rdbuf 0 524)) ↔ FicBlock rdbuf := by
  rw [FicBlock, marked_cells, pktbuf_cells rdbuf (by decide), FicBlock]

theorem wfxMsc_dump (packets : List (Nat → UInt8)) : wfxMsc (dump packets) = playedBack packets := by
  rw [wfxMsc, blocks_dump, ← List.map_drop, List.filter_map, playedBack]
  apply congrArg (List.map _)
  apply List.filter_congr
  intro rdbuf _
  simp only [Function.comp_apply, marked_cells, pktbuf_cells rdbuf (show 2 < 524 by decide)]

theorem Fic.Sent.written {b : Fic} {t : Nat} {rdbuf : Nat → UInt8} (sent : b.Sent t rdbuf) :
    b.Sent t (pktbuf (cells rdbuf 0 524)) where
  symbol := (pktbuf_cells rdbuf (by decide)).trans sent.symbol
  frame := (pktbuf_cells rdbuf (by decide)).trans sent.frame
  payload a inside := (pktbuf_cells rdbuf (by omega)).trans (sent.payload a inside)

def written (received : List ((Nat → UInt8) × Nat)) : List ((Nat → UInt8) × Nat) :=
  (received.filter fun p => p.1 9 = 1).map fun p => (pktbuf (cells p.1 0 524), p.2)

theorem blocks_written (received : List ((Nat → UInt8) × Nat)) :
    blocks (dump (received.map Prod.fst)) = (written received).map Prod.fst := by
  rw [blocks_dump, List.filter_map, written, List.map_map, List.map_map]
  rfl

theorem replayedAt_written (received : List ((Nat → UInt8) × Nat)) :
    replayedAt (written received) = replayedAt (received.filter fun p => p.1 9 = 1) := by
  rw [replayedAt, written, List.filter_map, List.map_map, replayedAt]
  refine congrArg₂ List.map rfl (List.filter_congr fun p _ => ?_)
  simp only [Function.comp_apply, ficBlock_cells]

/-- What `-d` has recorded of a broadcast, `wfx` plays: it finds the directory of the frames whose FIC
has been recorded whole, and the audio of the sub-channel chosen from it is that of the audio decoder
over the frames nearest to what was received behind the first 801 packets. -/
theorem wfx_playback {T : Target} (native : T.Native) {mettab : Nat → Nat → Int} (met : GenMet mettab)
    {decode : (Nat → UInt8) → (Nat → UInt8) → Nat × (Nat → UInt8)} (decodes : DecodesFic T mettab decode)
    (decodeRs : List UInt8 → List UInt8) (b : Fic) (sr : Symrange) (sid : UInt32)
    (memory : Nat → Nat → UInt8) {dec : MscDecoder} (fresh : dec.init = true)
    (stack : Nat → Nat → Subch) (received : List ((Nat → UInt8) × Nat))
    (sent : ∀ p ∈ received, p.1 9 = 1 → FicBlock p.1 → b.Sent p.2 p.1)
    (follows : ∀ earlier t, earlier ++ [t] <+: replayedAt (received.filter fun p => p.1 9 = 1) →
      b.Follows earlier t) :
    ∃ e : EnsInfo, directory e = b.replay (wholeFrames (replayedAt (received.filter fun p => p.1 9 = 1))) ∧
      ∀ numbers s, e.Picks numbers s → ∃ frames,
        List.Forall₂ s.Nearest (logicalFrames s (startsym sr s) (playedBack (received.map Prod.fst))
          (MscState.initial memory)) frames ∧
        wfx decode T mettab decodeRs
            (Receiver.initial sr sid (MscState.initial memory)) dec (dump (received.map Prod.fst)) stack
            numbers = (audioRun decodeRs s frames dec.audio).map fun r => (e, r.2) := by
  obtain ⟨m, read, replayed⟩ := wfxRead_replayed (b := b) native met decodes sr sid
    (MscState.initial memory) stack (written received) (by
      intro p member block
      obtain ⟨q, listed, rfl⟩ := List.mem_map.mp member
      obtain ⟨listed, symbol⟩ := List.mem_filter.mp listed
      exact (sent q listed (of_decide_eq_true symbol) ((ficBlock_cells q.1).mp block)).written) (by
      rw [replayedAt_written]
      exact follows)
  rw [replayedAt_written] at replayed
  rw [← blocks_written] at read
  obtain ⟨rq, sel, msc⟩ := replayed.others
  refine ⟨m.einf, replayed.learnt, fun numbers s picks => ?_⟩
  obtain ⟨k, c, service, number, found, rfl⟩ := picks.entry
  have inside : k < m.einf.numSrvs := by
    have valid := List.find?_some number
    simp only [decide_eq_true_eq] at valid
    omega
  have small : c < 64 := by
    obtain ⟨p, listed, component⟩ := mem_pointers (List.mem_of_getElem? found) rfl
    exact replayed.sane.pointed p listed c component
  obtain ⟨readFrom, -⟩ := replayed.sane.described c small (Nat.le_of_lt picks.described)
  obtain ⟨frames, nearest, audio⟩ := mscPackets_fresh native met decodeRs readFrom picks.whole
    picks.inside sr memory fresh (playedBack (received.map Prod.fst))
  refine ⟨frames, nearest, ?_⟩
  have choice := userSelectService_entry m.einf m.rq inside m.sel found
  rw [sel] at choice
  have paired := congrArg (Option.map fun out => (m.einf, out)) audio
  rw [Option.map_map, Option.map_map] at paired
  rw [wfx, read]
  simp only [Option.bind_eq_bind, Option.bind_some, number, sel, choice, msc, wfxMsc_dump]
  exact (Option.map_eq_bind ..).symm.trans paired

def sampleRead (t a : Nat) : UInt8 :=
  if a < 12 then [0x0c, 0x62, UInt8.ofNat (2 + t % 3), UInt8.ofNat (t / 3), 0, 0, 0, 0, 0, 1, 0, 0].getD a 0
  else transmitFic (sampleFic.fibs (t / 3)) (t % 3) (a - 12)

theorem sent_packet (t : Nat) : sampleFic.Sent t (sampleRead t) where
  symbol := rfl
  frame := rfl
  payload a _ := by
    rw [sampleRead, if_neg (by omega), Nat.add_sub_cancel_left]

/-- Symbol 3 of frame 0 has not been recorded. -/
theorem wfx_playback_sample : ∃ e : EnsInfo, (directory e).services = [⟨[], 0xe1c0, some 5, none⟩] ∧
    ∀ numbers s, e.Picks numbers s → ∃ frames,
      List.Forall₂ s.Nearest (logicalFrames s (startsym ⟨fun _ => 0, fun _ => 0, 0, 0, 0⟩ s)
        (playedBack ([0, 2, 3, 4, 5].map sampleRead)) (MscState.initial fun _ _ => 0)) frames ∧
      wfx (ficDecodeBuffer .x86_64 unitMettab FicBuffers.initial) .x86_64 unitMettab id
          (Receiver.initial ⟨fun _ => 0, fun _ => 0, 0, 0, 0⟩ 0 (MscState.initial fun _ _ => 0))
          MscDecoder.initial (dump ([0, 2, 3, 4, 5].map sampleRead)) (fun _ _ => ⟨0, 0, 0, 0, 0, 0, 0, 0⟩)
          numbers = (audioRun id s frames MscDecoder.initial.audio).map fun r => (e, r.2) := by
  have heard : replayedAt (([0, 2, 3, 4, 5].map fun t => (sampleRead t, t)).filter fun p => p.1 9 = 1) =
      [0, 2, 3, 4, 5] := rfl
  obtain ⟨e, learnt, plays⟩ := wfx_playback (T := .x86_64) rfl genMet_unit
    (decodesFic_buffer .x86_64 unitMettab FicBuffers.initial) id sampleFic
    ⟨fun _ => 0, fun _ => 0, 0, 0, 0⟩ 0 (fun _ _ => 0)
    (show MscDecoder.initial.init = true from rfl)
    (fun _ _ => ⟨0, 0, 0, 0, 0, 0, 0, 0⟩) ([0, 2, 3, 4, 5].map fun t => (sampleRead t, t))
    (fun p member _ _ => by
      obtain ⟨t, -, rfl⟩ := List.mem_map.mp member
      exact sent_packet t)
    (by
      rw [heard]
      exact follows_sample)
  rw [heard, show wholeFrames [0, 2, 3, 4, 5] = [1] from by decide] at learnt
  exact ⟨e, congrArg Directory.services learnt, plays⟩

def sampleEnsemble : Option EnsInfo :=
  (fibLoop (fun _ => ⟨0, 0, 0, 0, 0, 0, 0, 0⟩) 0 30 0 ⟨ficinit einf, sampleFic.fibs 0⟩).map FigState.einf

example : ∃ e, sampleEnsemble = some e ∧ e.Picks [0] (e.schan 5) := by
  have facts : sampleEnsemble.map (fun e => (wfxGetnum e.numSrvs [0], (pointers e.srv)[0]?.map (·.2),
      (e.schan 5).subchid, (e.schan 5).startaddr, (e.schan 5).subchsz, (e.schan 5).protlvl)) =
      some (some 0, some (some 5), 5, 100, 84, 2) := by decide +kernel
  obtain ⟨e, value, facts⟩ := Option.map_eq_some_iff.mp facts
  simp only [Prod.mk.injEq] at facts
  obtain ⟨number, pointer, subchid, startaddr, subchsz, protlvl⟩ := facts
  obtain ⟨⟨service, _⟩, found, rfl⟩ := Option.map_eq_some_iff.mp pointer
  refine ⟨e, value, ⟨0, 5, service, number, found, rfl⟩, ?_, ?_, ?_⟩
  · rw [subchid]
    decide
  · rw [Subch.Whole, protlvl, subchsz]
    rintro - row found
    cases found
    decide
  · rw [startaddr, subchsz]
    decide

end OpenDab
