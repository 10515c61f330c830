import OpenDab.FigParsing
import OpenDab.MainLoop
import OpenDab.Wfic.FicDecode
import OpenDab.Library.Steps

/-! The FIC from the transmitter to the directory, with losses in between. Symbol `t % 3` of
frame `t / 3` is at position `t`; the receiver hears some of the positions in order, and what it
learns is what the frames say that it has heard whole. -/
namespace OpenDab

open Buffers Steps

/-- The FIC of an ensemble: the FIGs in the twelve FIBs of each frame, the bytes of the FIBs, and
the number of the frame. -/
structure Fic where
  figs : Nat → Nat → List Fig
  fibs : Nat → Nat → UInt8
  number : Nat → UInt8
  carries : ∀ f, ∀ n < 12, Carries (fibs f) (30 * n) (figs f n)

structure Fic.Sent (b : Fic) (t : Nat) (rdbuf : Nat → UInt8) : Prop where
  symbol : rdbuf 2 = UInt8.ofNat (2 + t % 3)
  frame : rdbuf 3 = b.number (t / 3)
  payload : ∀ a < 384, rdbuf (12 + a) = transmitFic (b.fibs (t / 3)) (t % 3) a

/-- The packet of the round reaches `fic_assemble` while the FIC is read. -/
def Round.heard (p : Round) : Bool :=
  p.syncLocked && (p.rdbuf 2 == 2 || p.rdbuf 2 == 3 || p.rdbuf 2 == 4)

def heardAt (rounds : List (Round × Nat)) : List Nat := (rounds.filter (·.1.heard)).map Prod.snd

/-- A symbol is heard after those before it, and if it has the number of the frame heard last it
belongs to that frame. -/
structure Fic.Follows (b : Fic) (earlier : List Nat) (t : Nat) : Prop where
  later : ∀ u ∈ earlier, u < t
  frame : ∀ u, earlier.getLast? = some u → b.number (u / 3) = b.number (t / 3) → u / 3 = t / 3

def wholeFrames (ts : List Nat) : List Nat :=
  (ts.filter fun t => t % 3 = 2 ∧ t - 1 ∈ ts ∧ t - 2 ∈ ts).map (· / 3)

structure Reading where
  fibcnt : Nat
  directory : Directory

def Directory.labelled (D : Directory) : Bool :=
  if D.services = [] then false else D.services.all (Service.label · ≠ [])

/-- A frame adds what its FIGs say, until every service has a label or enough has been read. -/
def Reading.frame (figs : List Fig) (s : Reading) : Reading :=
  if s.fibcnt < maxfibs ∧ s.directory.labelled = false then
    ⟨s.fibcnt + 12, figs.foldl Directory.apply s.directory⟩
  else s

def Fic.frameFigs (b : Fic) (f : Nat) : List Fig := (List.range 12).flatMap (b.figs f)

def Fic.reading (b : Fic) (frames : List Nat) : Reading :=
  frames.foldl (fun s f => s.frame (b.frameFigs f)) ⟨0, directory (ficinit einf)⟩

/-- `fic_decode` on the buffer of `fic_assemble`, whatever its static buffers hold at a call and
whatever comes of a call that is not defined. -/
def DecodesFic (T : Target) (mettab : Nat → Nat → Int)
    (decode : (Nat → UInt8) → (Nat → UInt8) → Nat × (Nat → UInt8)) : Prop :=
  ∀ ficsyms rawfibs, ∃ old, ∀ r,
    ficDecode T mettab old ficsyms (shift ficsyms 384) (shift ficsyms 768) rawfibs = some r →
      decode ficsyms rawfibs = r

def ficDecodeBuffer (T : Target) (mettab : Nat → Nat → Int) (old : FicBuffers)
    (ficsyms rawfibs : Nat → UInt8) : Nat × (Nat → UInt8) :=
  (ficDecode T mettab old ficsyms (shift ficsyms 384) (shift ficsyms 768) rawfibs).getD (0, rawfibs)

theorem decodesFic_buffer (T : Target) (mettab : Nat → Nat → Int) (old : FicBuffers) :
    DecodesFic T mettab (ficDecodeBuffer T mettab old) := by
  intro ficsyms rawfibs
  refine ⟨old, fun r done => ?_⟩
  rw [ficDecodeBuffer, done, Option.getD_some]

section Decoding

/-- Only the 384 bytes of a symbol are looked at. -/
theorem demapSymbol_congr (old : FicBuffers) (n : Nat) {sym sym' : Nat → UInt8}
    (same : ∀ a < 384, sym a = sym' a) : demapSymbol old n sym = demapSymbol old n sym' := by
  have bits : byteToBit 0 sym 384 (old.datab n) = byteToBit 0 sym' 384 (old.datab n) := by
    apply Prod.ext
    · funext a
      rw [byteToBit_apply, byteToBit_apply]
      split
      · next inside => rw [same _ inside]
      · rfl
    · rfl
  rw [demapSymbol, demapSymbol, bits]

def HoldsSymbols (fibs ficsyms : Nat → UInt8) : Prop :=
  ∀ k < 3, ∀ a < 384, ficsyms (384 * k + a) = transmitFic fibs k a

variable {T : Target} (native : T.Native) {mettab : Nat → Nat → Int} (met : GenMet mettab)
include native met

theorem ficDecode_holds {decode : (Nat → UInt8) → (Nat → UInt8) → Nat × (Nat → UInt8)}
    (decodes : DecodesFic T mettab decode) {fibs ficsyms : Nat → UInt8}
    (holds : HoldsSymbols fibs ficsyms) (rawfibs : Nat → UInt8) :
    decode ficsyms rawfibs = (12, copy rawfibs 0 fibs 360) := by
  obtain ⟨old, value⟩ := decodes ficsyms rawfibs
  apply value
  have first : demapSymbol old 0 ficsyms = demapSymbol old 0 (transmitFic fibs 0) :=
    demapSymbol_congr old 0 fun a inside => by simpa using holds 0 (by decide) a inside
  have second : demapSymbol old 1 (shift ficsyms 384) = demapSymbol old 1 (transmitFic fibs 1) :=
    demapSymbol_congr old 1 fun a inside => holds 1 (by decide) a inside
  have third : demapSymbol old 2 (shift ficsyms 768) = demapSymbol old 2 (transmitFic fibs 2) :=
    demapSymbol_congr old 2 fun a inside => holds 2 (by decide) a inside
  have block (q : Nat) (low : q < 4) : ∃ ficD, decodeBlock T mettab old q
      (splitBlock (mergeSymbols (demapSymbol old 0 (transmitFic fibs 0))
        (demapSymbol old 1 (transmitFic fibs 1)) (demapSymbol old 2 (transmitFic fibs 2))
        old.data9216) q (old.ficA q)) = some ficD ∧ ∀ i < 768, ficD i = blockBits fibs q i := by
    apply decodeBlock_transmit native met old fibs q
    intro i inside
    rw [splitBlock_apply _ _ _ inside, merged_bit fibs old (by omega),
      show (2304 * q + i) / 2304 = q by omega, show (2304 * q + i) % 2304 = i by omega]
  obtain ⟨d0, run0, fill0⟩ := block 0 (by decide)
  obtain ⟨d1, run1, fill1⟩ := block 1 (by decide)
  obtain ⟨d2, run2, fill2⟩ := block 2 (by decide)
  obtain ⟨d3, run3, fill3⟩ := block 3 (by decide)
  have good : ∀ q < 4, ∀ i < 768, [d0, d1, d2, d3].getD q (old.ficD q) i = blockBits fibs q i := by
    intro q low
    match q with
    | 0 => exact fill0
    | 1 => exact fill1
    | 2 => exact fill2
    | 3 => exact fill3
  have taken := take_fibs good old.fibA old.fibB rawfibs
  have blocks : (List.range 4).mapM (fun q => decodeBlock T mettab old q
      (splitBlock (mergeSymbols (demapSymbol old 0 (transmitFic fibs 0))
        (demapSymbol old 1 (transmitFic fibs 1)) (demapSymbol old 2 (transmitFic fibs 2))
        old.data9216) q (old.ficA q))) = some [d0, d1, d2, d3] := by
    simp [List.range_succ, run0, run1, run2, run3]
  unfold ficDecode
  simp only [first, second, third, blocks, Option.map_some, taken]

end Decoding

/-- Twelve FIBs are walked one after the other and left as they are. -/
theorem processFibs_carries {mem : Nat → UInt8} {figs : Nat → List Fig} (fibs : Nat)
    (carries : ∀ n < fibs, Carries mem (30 * n) (figs n)) (stack : Nat → Subch) (e : EnsInfo) :
    ∃ e', processFibs stack fibs ⟨e, mem⟩ = some ⟨e', mem⟩ ∧
      directory e' = ((List.range fibs).flatMap figs).foldl Directory.apply (directory e) := by
  induction fibs with
  | zero => exact ⟨e, rfl, rfl⟩
  | succ n ih =>
    obtain ⟨e₁, earlier, read⟩ := ih fun k low => carries k (by omega)
    obtain ⟨fits, begins, marked⟩ := carries n (Nat.lt_succ_self n)
    obtain ⟨e', walk, -, same⟩ := fibLoop_encode (figs n) stack 30 0 (by omega) (by omega) begins
      (by simpa using marked) e₁
    refine ⟨e', ?_, ?_⟩
    · unfold processFibs at earlier ⊢
      rw [List.range_succ, List.foldlM_append, earlier]
      exact Option.bind_eq_some_iff.mpr ⟨_, rfl, Option.bind_eq_some_iff.mpr ⟨_, walk, rfl⟩⟩
    · rw [same, read, List.range_succ, List.flatMap_append, List.foldl_append,
        List.flatMap_singleton]

theorem Carries.congr {mem mem' : Nat → UInt8} {fib : Nat} {figs : List Fig}
    (carries : Carries mem fib figs) (same : ∀ a < 30, mem' (fib + a) = mem (fib + a)) :
    Carries mem' fib figs where
  fits := carries.fits
  begins i inside := by
    have fits := carries.fits
    rw [shift_apply, same i (by omega)]
    exact carries.begins i inside
  marked short := by
    rw [same _ short]
    exact carries.marked short

section Collecting

variable (b : Fic)

theorem wholeFrames_push {ts : List Nat} {t : Nat} (later : ∀ u ∈ ts, u < t) :
    wholeFrames (ts ++ [t]) =
      wholeFrames ts ++ if t % 3 = 2 ∧ t - 1 ∈ ts ∧ t - 2 ∈ ts then [t / 3] else [] := by
  have old : ts.filter (fun u => u % 3 = 2 ∧ u - 1 ∈ ts ++ [t] ∧ u - 2 ∈ ts ++ [t]) =
      ts.filter fun u => u % 3 = 2 ∧ u - 1 ∈ ts ∧ u - 2 ∈ ts := by
    apply List.filter_congr
    intro u member
    have before := later u member
    have one : u - 1 ≠ t := by omega
    have two : u - 2 ≠ t := by omega
    simp [one, two]
  have new : (t % 3 = 2 ∧ t - 1 ∈ ts ++ [t] ∧ t - 2 ∈ ts ++ [t]) ↔
      t % 3 = 2 ∧ t - 1 ∈ ts ∧ t - 2 ∈ ts := by
    rw [and_congr_right_iff]
    intro third
    have one : t - 1 ≠ t := by omega
    have two : t - 2 ≠ t := by omega
    simp [one, two]
  rw [wholeFrames, List.filter_append, List.map_append, old, ← wholeFrames]
  congr 1
  by_cases whole : t % 3 = 2 ∧ t - 1 ∈ ts ∧ t - 2 ∈ ts
  · rw [List.filter_cons_of_pos (by simpa using new.mpr whole), if_pos whole]
    rfl
  · rw [List.filter_cons_of_neg (by simpa using fun h => whole (new.mp h)), if_neg whole]
    rfl

def Fic.Stored (f k : Nat) (s : FicState) : Prop :=
  ∀ a < 384, s.ficsyms (384 * k + a) = transmitFic (b.fibs f) k a

/-- What `fic_assemble` holds after the symbols at `ts`: a beginning of the frame heard last, or
flags without symbol 2. -/
inductive Fic.Collects (ts : List Nat) (s : FicState) : Prop
  | headless (flags : s.symFlags ∈ [0, 3, 4, 7])
      (broken : ∀ u, ts.getLast? = some u → u % 3 ≠ 0 ∧ (u % 3 = 1 → u - 1 ∉ ts))
  | two (f : Nat) (last : ts.getLast? = some (3 * f)) (flags : s.symFlags = 8)
      (frame : s.curFrame = b.number f) (slot : b.Stored f 0 s)
  | three (f : Nat) (last : ts.getLast? = some (3 * f + 1)) (first : 3 * f ∈ ts)
      (flags : s.symFlags = 11) (frame : s.curFrame = b.number f) (slot : b.Stored f 0 s)
      (slot' : b.Stored f 1 s)
  | four (f : Nat) (last : ts.getLast? = some (3 * f + 2)) (flags : s.symFlags = 12)
      (frame : s.curFrame = b.number f)

theorem le_last {ts : List Nat} {u v : Nat} (ordered : ts.Pairwise (· < ·))
    (last : ts.getLast? = some u) (member : v ∈ ts) : v ≤ u := by
  obtain ⟨front, rfl⟩ := List.getLast?_eq_some_iff.mp last
  rcases List.mem_append.mp member with early | final
  · exact ((List.pairwise_append.mp ordered).2.2 v early u (List.mem_singleton_self u)).le
  · exact (List.mem_singleton.mp final).le

/-- What `fic_assemble` does with symbol 3 or 4. -/
theorem ficAssemble_later {s : FicState} {p : Nat → UInt8} (symbol : p 2 ≠ 2) :
    (p 3 ≠ s.curFrame → ficAssemble p s = ({ s with symFlags := 0 }, false)) ∧
    (p 3 = s.curFrame → ficAssemble p s =
      ({ s with
          symFlags := if s.symFlags ||| p 2 = 15 then 0 else s.symFlags ||| p 2
          ficsyms := copy s.ficsyms (384 * ((p 2).toNat - 2)) (shift p 12) 384 },
        decide (s.symFlags ||| p 2 = 15))) := by
  constructor
  · intro other
    simp [ficAssemble, symbol, other]
  · intro same
    by_cases full : s.symFlags ||| p 2 = 15 <;> simp [ficAssemble, symbol, same, full]

variable {b}

theorem Fic.Sent.word {t : Nat} {p : Nat → UInt8} (sent : b.Sent t p) :
    p 2 = UInt8.ofNat (2 + t % 3) ∧ (p 2).toNat - 2 = t % 3 := by
  refine ⟨sent.symbol, ?_⟩
  rw [sent.symbol, UInt8.toNat_ofNat']
  omega

theorem Fic.Sent.later {t : Nat} {p : Nat → UInt8} (sent : b.Sent t p) (later : t % 3 ≠ 0) :
    p 2 = 3 ∨ p 2 = 4 := by
  have small : t % 3 = 1 ∨ t % 3 = 2 := by omega
  rcases small with one | two
  · exact .inl (by rw [sent.symbol, one]; rfl)
  · exact .inr (by rw [sent.symbol, two]; rfl)

theorem Fic.Sent.stored {t : Nat} {p : Nat → UInt8} (sent : b.Sent t p) (s : FicState)
    (flags frame : UInt8) : b.Stored (t / 3) (t % 3)
      ⟨flags, frame, copy s.ficsyms (384 * (t % 3)) (shift p 12) 384⟩ := by
  intro a inside
  rw [← sent.payload a inside]
  exact slot_same s.ficsyms (t % 3) p a inside

theorem Fic.Stored.kept {f j k : Nat} {s : FicState} (stored : b.Stored f j s) (apart : j ≠ k)
    (p : Nat → UInt8) (flags frame : UInt8) :
    b.Stored f j ⟨flags, frame, copy s.ficsyms (384 * k) (shift p 12) 384⟩ := by
  intro a inside
  rw [← stored a inside]
  exact copy_outside _ _ (by omega)

/-- A symbol of the frame begun joins it. -/
theorem Fic.Sent.join {t : Nat} {p : Nat → UInt8} (sent : b.Sent t p) {s : FicState}
    (later : t % 3 ≠ 0) (same : p 3 = s.curFrame) : ficAssemble p s =
      (⟨if s.symFlags ||| UInt8.ofNat (2 + t % 3) = 15 then 0
          else s.symFlags ||| UInt8.ofNat (2 + t % 3), s.curFrame,
        copy s.ficsyms (384 * (t % 3)) (shift p 12) 384⟩,
      decide (s.symFlags ||| UInt8.ofNat (2 + t % 3) = 15)) := by
  have symbol : p 2 ≠ 2 := by rcases sent.later later with h | h <;> simp [h]
  rw [(ficAssemble_later symbol).2 same, sent.word.2, sent.symbol]

/-- Symbol 2 begins a frame. -/
theorem Fic.Collects.begin {ts : List Nat} {s : FicState} {t : Nat} {p : Nat → UInt8}
    (sent : b.Sent t p) (second : t % 3 = 0) :
    b.Collects (ts ++ [t]) (ficAssemble p s).1 ∧ (ficAssemble p s).2 = false := by
  have symbol : p 2 = 2 := by rw [sent.symbol, second]; rfl
  have stored := sent.stored s 8 (p 3)
  rw [second] at stored
  have place : 3 * (t / 3) = t := by omega
  simp only [ficAssemble, if_pos symbol]
  refine ⟨.two (t / 3) ?_ rfl sent.frame stored, trivial⟩
  rw [List.getLast?_concat, place]

/-- A symbol of another frame than the one begun ends the collecting. -/
theorem Fic.Collects.abandon {ts : List Nat} {s : FicState} {t : Nat} {p : Nat → UInt8}
    (sent : b.Sent t p) (later : t % 3 ≠ 0) (other : p 3 ≠ s.curFrame)
    (first : t % 3 = 1 → t - 1 ∉ ts) :
    b.Collects (ts ++ [t]) (ficAssemble p s).1 ∧ (ficAssemble p s).2 = false := by
  have symbol : p 2 ≠ 2 := by rcases sent.later later with h | h <;> simp [h]
  rw [(ficAssemble_later symbol).1 other]
  refine ⟨.headless (by simp) fun u last => ?_, rfl⟩
  rw [List.getLast?_concat, Option.some.injEq] at last
  subst last
  refine ⟨later, fun one member => ?_⟩
  rcases List.mem_append.mp member with early | final
  · exact first one early
  · have same := List.mem_singleton.mp final
    omega

def Completes3 (ts : List Nat) (t : Nat) : Prop := t % 3 = 2 ∧ t - 1 ∈ ts ∧ t - 2 ∈ ts

instance (ts : List Nat) (t : Nat) : Decidable (Completes3 ts t) :=
  inferInstanceAs (Decidable (_ ∧ _))

structure Fic.Stepped (b : Fic) (ts : List Nat) (t : Nat) (r : FicState × Bool) : Prop where
  collects : b.Collects (ts ++ [t]) r.1
  processed : r.2 = true ↔ Completes3 ts t
  holds : r.2 = true → HoldsSymbols (b.fibs (t / 3)) r.1.ficsyms

theorem Fic.Stepped.quiet {ts : List Nat} {t : Nat} {r : FicState × Bool}
    (collects : b.Collects (ts ++ [t]) r.1 ∧ r.2 = false) (partly : ¬Completes3 ts t) :
    b.Stepped ts t r where
  collects := collects.1
  processed := by simp [collects.2, partly]
  holds called := by simp [collects.2] at called

/-- What is heard before `t` and close to it is what has been heard last. -/
theorem heard_last {ts : List Nat} {t v : Nat} (ordered : ts.Pairwise (· < ·))
    (later : ∀ u ∈ ts, u < t) (member : v ∈ ts) : ∃ u, ts.getLast? = some u ∧ v ≤ u ∧ u < t := by
  obtain ⟨u, last⟩ := List.getLast?_isSome.mpr (List.ne_nil_of_mem member) |> Option.isSome_iff_exists.mp
  exact ⟨u, last, le_last ordered last member, later u (List.mem_of_getLast? last)⟩

section Step

variable {ts : List Nat} {s : FicState} {t : Nat} {p : Nat → UInt8} (ordered : ts.Pairwise (· < ·))
  (follows : b.Follows ts t) (sent : b.Sent t p)
include ordered follows sent

/-- Without symbol 2 the flags stay incomplete, and the frame is not whole. -/
theorem Fic.Stepped.headless (later : t % 3 ≠ 0) (flags : s.symFlags ∈ [0, 3, 4, 7])
    (broken : ∀ u, ts.getLast? = some u → u % 3 ≠ 0 ∧ (u % 3 = 1 → u - 1 ∉ ts)) :
    b.Stepped ts t (ficAssemble p s) := by
  have step := incomplete_step flags (sent.later later)
  refine .quiet ⟨.headless step.1 fun u last => ?_, step.2⟩ fun ⟨third, first, head⟩ => ?_
  · rw [List.getLast?_concat, Option.some.injEq] at last
    subst last
    refine ⟨later, fun one member => ?_⟩
    rcases List.mem_append.mp member with early | final
    · obtain ⟨u, last, above, below⟩ := heard_last ordered follows.later early
      have whole := (broken u last).1
      omega
    · have same := List.mem_singleton.mp final
      omega
  · obtain ⟨u, last, above, below⟩ := heard_last ordered follows.later first
    obtain rfl : u = t - 1 := by omega
    exact (broken _ last).2 (by omega) (by rwa [Nat.sub_sub])

/-- A symbol with another number than the frame begun is of another frame. -/
theorem Fic.Stepped.other {u : Nat} (later : t % 3 ≠ 0) (last : ts.getLast? = some u)
    (frame : s.curFrame = b.number (u / 3)) (other : p 3 ≠ s.curFrame) :
    b.Stepped ts t (ficAssemble p s) := by
  have apart : t / 3 ≠ u / 3 := fun same => other (by rw [sent.frame, same, frame])
  have alone (member : t - 1 ∈ ts) : False := by
    have above := le_last ordered last member
    have below := follows.later u (List.mem_of_getLast? last)
    omega
  refine .quiet (Fic.Collects.abandon sent later other fun _ => alone) fun whole => alone whole.2.1

end Step

theorem Fic.Collects.step {ts : List Nat} {s : FicState} {t : Nat} {p : Nat → UInt8}
    (collects : b.Collects ts s) (ordered : ts.Pairwise (· < ·)) (follows : b.Follows ts t)
    (sent : b.Sent t p) : b.Stepped ts t (ficAssemble p s) := by
  by_cases second : t % 3 = 0
  · refine .quiet (Fic.Collects.begin sent second) fun whole => ?_
    have third := whole.1
    omega
  have symbol := sent.later second
  have place (f u : Nat) (last : ts.getLast? = some u) (of : u / 3 = f)
      (frame : s.curFrame = b.number f) (same : p 3 = s.curFrame) : t / 3 = f ∧ u < t := by
    have number : b.number (u / 3) = b.number (t / 3) := by rw [← sent.frame, same, frame, of]
    exact ⟨(follows.frame u last number).symm.trans of, follows.later u (List.mem_of_getLast? last)⟩
  cases collects with
  | headless flags broken => exact .headless ordered follows sent second flags broken
  | two f last flags frame slot0 =>
    by_cases same : p 3 = s.curFrame
    · obtain ⟨here, after⟩ := place f _ last (by omega) frame same
      have run := sent.join second same
      rw [flags] at run
      by_cases one : t % 3 = 1
      · have stored := sent.stored s 11 s.curFrame
        have kept := slot0.kept (k := 1) (by decide) p 11 s.curFrame
        rw [one] at run
        rw [one, here] at stored
        rw [run]
        have final : (ts ++ [t]).getLast? = some (3 * f + 1) := by
          rw [List.getLast?_concat]
          congr 1
          omega
        refine .quiet ⟨.three f final ?_ rfl frame kept stored, rfl⟩ ?_
        · exact List.mem_append_left _ (List.mem_of_getLast? last)
        · rintro ⟨third, -⟩
          omega
      · have two : t % 3 = 2 := by omega
        rw [two] at run
        rw [run]
        have final : (ts ++ [t]).getLast? = some (3 * f + 2) := by
          rw [List.getLast?_concat]
          congr 1
          omega
        refine .quiet ⟨.four f final rfl frame, rfl⟩ ?_
        rintro ⟨-, first, -⟩
        have above := le_last ordered last first
        omega
    · exact .other ordered follows sent second last (by rw [frame]; congr 1; omega) same
  | three f last first flags frame slot0 slot1 =>
    by_cases same : p 3 = s.curFrame
    · obtain ⟨here, after⟩ := place f _ last (by omega) frame same
      have two : t % 3 = 2 := by omega
      have run := sent.join second same
      have stored := sent.stored s 0 s.curFrame
      have kept0 := slot0.kept (k := 2) (by decide) p 0 s.curFrame
      have kept1 := slot1.kept (k := 2) (by decide) p 0 s.curFrame
      rw [flags, two] at run
      rw [two, here] at stored
      rw [run]
      refine ⟨.headless List.mem_cons_self fun u final => ?_, iff_of_true rfl ⟨two, ?_, ?_⟩, fun _ => ?_⟩
      · rw [List.getLast?_concat, Option.some.injEq] at final
        omega
      · rw [show t - 1 = 3 * f + 1 by omega]
        exact List.mem_of_getLast? last
      · rwa [show t - 2 = 3 * f by omega]
      · rw [here]
        intro k small
        match k with
        | 0 => exact kept0
        | 1 => exact kept1
        | 2 => exact stored
    · exact .other ordered follows sent second last (by rw [frame]; congr 1; omega) same
  | four f last flags frame =>
    by_cases same : p 3 = s.curFrame
    · obtain ⟨here, after⟩ := place f _ last (by omega) frame same
      omega
    · exact .other ordered follows sent second last (by rw [frame]; congr 1; omega) same

end Collecting

section Phase

variable (b : Fic)

theorem wholeFrames_step {ts : List Nat} {t : Nat} (later : ∀ u ∈ ts, u < t) :
    b.reading (wholeFrames (ts ++ [t])) =
      if Completes3 ts t then (b.reading (wholeFrames ts)).frame (b.frameFigs (t / 3))
      else b.reading (wholeFrames ts) := by
  rw [wholeFrames_push later, Fic.reading, List.foldl_append, ← Fic.reading]
  by_cases whole : Completes3 ts t
  · rw [if_pos whole, if_pos (show t % 3 = 2 ∧ t - 1 ∈ ts ∧ t - 2 ∈ ts from whole)]
    rfl
  · rw [if_neg whole, if_neg (show ¬(t % 3 = 2 ∧ t - 1 ∈ ts ∧ t - 2 ∈ ts) from whole)]
    rfl

structure Fic.Received (ts : List Nat) (m : Receiver) : Prop where
  learnt : ⟨m.fibcnt, directory m.einf⟩ = b.reading (wholeFrames ts)
  collects : ¬m.Stopped → b.Collects ts m.fic

theorem labelled_directory (e : EnsInfo) : (directory e).labelled = labelled e := rfl

/-- Once it has stopped reading the FIC the receiver knows what it knows. -/
theorem wfRound_stopped (decode : (Nat → UInt8) → (Nat → UInt8) → Nat × (Nat → UInt8)) {m : Receiver}
    (stopped : m.Stopped) (p : Round) :
    ∃ m' call, wfRound decode p m = some (m', call) ∧ m'.fibcnt = m.fibcnt ∧ m'.einf = m.einf := by
  obtain ⟨n, counted⟩ := resync_synccnt p m
  have past : ¬(m.fibcnt < maxfibs ∧ labelled m.einf = false) := stopped
  simp only [wfRound, counted, if_neg past]
  split
  · split
    · exact ⟨_, _, rfl, rfl, rfl⟩
    · split
      · exact ⟨_, _, rfl, by simp [Receiver.tune]; split <;> rfl, by simp [Receiver.tune]; split <;> rfl⟩
      · exact ⟨_, _, rfl, by simp [Receiver.tune]; split <;> rfl, by simp [Receiver.tune]; split <;> rfl⟩
  · exact ⟨_, _, rfl, rfl, rfl⟩

variable {b} {T : Target} {mettab : Nat → Nat → Int}
  {decode : (Nat → UInt8) → (Nat → UInt8) → Nat × (Nat → UInt8)} {ts : List Nat} {m : Receiver}

/-- A packet that is not heard changes nothing that counts. -/
theorem Fic.Received.unheard (received : b.Received ts m) {p : Round} (deaf : p.heard = false) :
    ∃ m' call, wfRound decode p m = some (m', call) ∧ b.Received ts m' := by
  by_cases stopped : m.Stopped
  · obtain ⟨m', call, run, fibcnt, einf⟩ := wfRound_stopped decode stopped p
    refine ⟨m', call, run, by rw [fibcnt, einf, received.learnt], fun reading => absurd ?_ reading⟩
    rwa [Receiver.Stopped, fibcnt, einf]
  · obtain ⟨n, counted⟩ := resync_synccnt p m
    have reading : m.fibcnt < maxfibs ∧ labelled m.einf = false := not_not.mp stopped
    have quiet : ¬(p.syncLocked = true ∧ (p.rdbuf 2 = 2 ∨ p.rdbuf 2 = 3 ∨ p.rdbuf 2 = 4)) := by
      rintro ⟨locked, symbol⟩
      simp [Round.heard, locked] at deaf
      tauto
    simp only [wfRound, counted, if_pos reading]
    refine ⟨{ m with synccnt := n }, none, ?_, received.learnt, received.collects⟩
    by_cases locked : p.syncLocked = true
    · rw [if_pos locked, if_neg fun symbol => quiet ⟨locked, symbol⟩]
    · rw [if_neg locked]

/-- A frame that becomes whole is decoded, and its FIGs are read. -/
theorem processFic_holds (native : T.Native) (met : GenMet mettab) (decodes : DecodesFic T mettab decode)
    {f : Nat} (holds : HoldsSymbols (b.fibs f) m.fic.ficsyms) (stack : Nat → Subch) :
    ∃ e rawfibs, processFic decode stack m =
        some { m with fibcnt := m.fibcnt + 12, rawfibs := rawfibs, einf := e } ∧
      directory e = (b.frameFigs f).foldl Directory.apply (directory m.einf) := by
  have carries : ∀ n < 12, Carries (copy m.rawfibs 0 (b.fibs f) 360) (30 * n) (b.figs f n) := by
    intro n low
    apply (b.carries f n low).congr
    intro a inside
    have cell := copy_inside m.rawfibs 0 (b.fibs f) (show 30 * n + a < 360 by omega)
    rwa [Nat.zero_add] at cell
  obtain ⟨e, walked, read⟩ := processFibs_carries 12 carries stack m.einf
  refine ⟨e, copy m.rawfibs 0 (b.fibs f) 360, ?_, read⟩
  rw [processFic, ficDecode_holds native met decodes holds]
  simp only [walked, Option.map_some]

theorem Fic.Received.heard (native : T.Native) (met : GenMet mettab)
    (decodes : DecodesFic T mettab decode) (received : b.Received ts m)
    (ordered : ts.Pairwise (· < ·)) {t : Nat} (follows : b.Follows ts t) {p : Round}
    (hears : p.heard = true) (sent : b.Sent t p.rdbuf) :
    ∃ m' call, wfRound decode p m = some (m', call) ∧ b.Received (ts ++ [t]) m' := by
  have learns := wholeFrames_step b follows.later
  by_cases stopped : m.Stopped
  · obtain ⟨m', call, run, fibcnt, einf⟩ := wfRound_stopped decode stopped p
    refine ⟨m', call, run, ?_, fun reading => absurd ?_ reading⟩
    · have past : ¬((b.reading (wholeFrames ts)).fibcnt < maxfibs ∧
          (b.reading (wholeFrames ts)).directory.labelled = false) := by
        rw [← received.learnt]
        exact stopped
      rw [learns, fibcnt, einf, received.learnt, Reading.frame, if_neg past, ite_self]
    · rwa [Receiver.Stopped, fibcnt, einf]
  · obtain ⟨n, counted⟩ := resync_synccnt p m
    have reading : m.fibcnt < maxfibs ∧ labelled m.einf = false := not_not.mp stopped
    obtain ⟨locked, symbol⟩ : p.syncLocked = true ∧ (p.rdbuf 2 = 2 ∨ p.rdbuf 2 = 3 ∨ p.rdbuf 2 = 4) := by
      simpa [Round.heard, or_assoc] using hears
    obtain ⟨collects, processed, holds⟩ := (received.collects stopped).step ordered follows sent
    simp only [wfRound, counted, if_pos reading, if_pos locked, if_pos symbol]
    by_cases whole : Completes3 ts t
    · have called := processed.mpr whole
      obtain ⟨e, rawfibs, run, read⟩ := processFic_holds (b := b)
        (m := { m with synccnt := n, fic := (ficAssemble p.rdbuf m.fic).1 }) native met decodes
        (holds called) p.stack
      rw [if_pos called, run]
      refine ⟨_, none, rfl, ?_, fun _ => collects⟩
      have goesOn : (⟨m.fibcnt, directory m.einf⟩ : Reading).frame (b.frameFigs (t / 3)) =
          ⟨m.fibcnt + 12, directory e⟩ := by
        rw [read]
        exact if_pos reading
      rw [learns, if_pos whole, ← received.learnt, goesOn]
    · rw [if_neg fun called => whole (processed.mp called)]
      refine ⟨_, none, rfl, ?_, fun _ => collects⟩
      rw [learns, if_neg whole, ← received.learnt]

theorem heardAt_push (rounds : List (Round × Nat)) (p : Round × Nat) :
    heardAt (rounds ++ [p]) = heardAt rounds ++ if p.1.heard then [p.2] else [] := by
  unfold heardAt
  cases hears : p.1.heard <;> simp [hears]

theorem ordered_of_follows {ts : List Nat}
    (follows : ∀ earlier t, earlier ++ [t] <+: ts → b.Follows earlier t) :
    ts.Pairwise (· < ·) := by
  apply Steps.invariant (List.Pairwise (· < ·)) .nil _ follows
  intro earlier t before next
  rw [List.pairwise_append]
  exact ⟨before, List.pairwise_singleton _ _, fun u member v last => by
    rw [List.mem_singleton.mp last]
    exact next.later u member⟩

/-- Whatever is lost on the way, the receiver learns exactly what the frames say of which it hears
all three symbols, until it knows enough. -/
theorem fic_reception (native : T.Native) (met : GenMet mettab) (decodes : DecodesFic T mettab decode)
    (b : Fic) (sr : Symrange) (sid : UInt32) (msc : MscState) (rounds : List (Round × Nat))
    (sent : ∀ p ∈ rounds, p.1.heard = true → b.Sent p.2 p.1.rdbuf)
    (follows : ∀ earlier t, earlier ++ [t] <+: heardAt rounds → b.Follows earlier t) :
    ∃ m, wfRun decode (Receiver.initial sr sid msc) (rounds.map Prod.fst) = some m ∧
      ⟨m.fibcnt, directory m.einf⟩ = b.reading (wholeFrames (heardAt rounds)) := by
  have run : ∃ m, wfRun decode (Receiver.initial sr sid msc) (rounds.map Prod.fst) = some m ∧
      b.Received (heardAt rounds) m := by
    induction rounds using List.reverseRecOn with
    | nil =>
      refine ⟨_, rfl, rfl, fun _ => .headless List.mem_cons_self fun u last => ?_⟩
      cases last
    | append_singleton rounds p ih =>
      rw [heardAt_push] at follows ⊢
      obtain ⟨m, before, received⟩ := ih
        (fun q member => sent q (List.mem_append_left _ member))
        (fun earlier t inside => follows earlier t (inside.trans (List.prefix_append _ _)))
      have step : ∃ m' call, wfRound decode p.1 m = some (m', call) ∧
          b.Received (heardAt rounds ++ if p.1.heard then [p.2] else []) m' := by
        cases hears : p.1.heard with
        | false => simpa using received.unheard hears
        | true =>
          rw [hears, if_pos rfl] at follows
          have order := ordered_of_follows follows
          exact received.heard native met decodes (List.pairwise_append.mp order).1
            (follows _ _ List.prefix_rfl) hears (sent p (by simp) hears)
      obtain ⟨m', call, round, after⟩ := step
      refine ⟨m', ?_, after⟩
      rw [List.map_append, wfRun, List.foldlM_append, ← wfRun, before]
      simp [round]
  obtain ⟨m, reached, received⟩ := run
  exact ⟨m, reached, received.learnt⟩

end Phase

/-- Every frame carries the same FIB and eleven empty ones. -/
def sampleFic : Fic where
  figs _ n := if n = 0 then sampleFigs else []
  fibs _ := ofList (sampleFigs.flatMap Fig.encode ++ [0xff]) fun _ => 0xff
  number f := UInt8.ofNat f
  carries f n low := by
    have blank (a : Nat) (late : 30 ≤ a) :
        ofList (sampleFigs.flatMap Fig.encode ++ [0xff]) (fun _ => 0xff) a = (0xff : UInt8) := by
      unfold ofList
      rw [List.getD_eq_default _ _ ((show _ ≤ 30 by decide).trans late)]
    by_cases first : n = 0
    · subst first
      exact ⟨by decide, fun i bound => by revert i; decide, fun _ => by decide⟩
    · rw [if_neg first]
      exact ⟨by decide, .nil _, fun _ => blank _ (by simp; omega)⟩

def sampleFicRound (t : Nat) : Round where
  rdbuf a := if a = 2 then UInt8.ofNat (2 + t % 3) else if a = 3 then UInt8.ofNat (t / 3)
    else transmitFic (sampleFic.fibs (t / 3)) (t % 3) (a - 12)
  syncLocked := true
  number := -1
  stack := fun _ => ⟨0, 0, 0, 0, 0, 0, 0, 0⟩

theorem sent_sample (t : Nat) : sampleFic.Sent t (sampleFicRound t).rdbuf where
  symbol := rfl
  frame := rfl
  payload a _ := by
    simp only [sampleFicRound]
    rw [if_neg (by omega), if_neg (by omega), Nat.add_sub_cancel_left]

theorem follows_sample : ∀ earlier t, earlier ++ [t] <+: [0, 2, 3, 4, 5] → sampleFic.Follows earlier t := by
  have next (l : List Nat) (u t : Nat) (later : ∀ v ∈ l ++ [u], v < t)
      (frame : UInt8.ofNat (u / 3) = UInt8.ofNat (t / 3) → u / 3 = t / 3) :
      sampleFic.Follows (l ++ [u]) t := by
    refine ⟨later, fun v last => ?_⟩
    rw [List.getLast?_concat, Option.some.injEq] at last
    rw [← last]
    exact frame
  have first : sampleFic.Follows [] 0 := ⟨by simp, by simp⟩
  exact forall_push.mpr ⟨forall_push.mpr ⟨forall_push.mpr ⟨forall_push.mpr ⟨forall_push.mpr
    ⟨forall_nil, first⟩, next [] 0 2 (by decide) (by decide)⟩,
    next [0] 2 3 (by decide) (by decide)⟩, next [0, 2] 3 4 (by decide) (by decide)⟩,
    next [0, 2, 3] 4 5 (by decide) (by decide)⟩

/-- Symbol 3 of frame 0 is lost, and frame 1 is read. -/
theorem fic_reception_sample : ∃ m, wfRun (ficDecodeBuffer .x86_64 unitMettab FicBuffers.initial)
      (Receiver.initial ⟨fun _ => 0, fun _ => 0, 0, 0, 0⟩ 0
        ⟨⟨fun _ => ⟨fun _ => 0, 0, 0, 0⟩, 0, 0, 0, true, false⟩, 0, 0⟩)
      ([0, 2, 3, 4, 5].map sampleFicRound) = some m ∧
    m.fibcnt = 12 ∧ (directory m.einf).services = [⟨[], 0xe1c0, some 5, none⟩] := by
  have heard : heardAt ([0, 2, 3, 4, 5].map fun t => (sampleFicRound t, t)) = [0, 2, 3, 4, 5] := rfl
  obtain ⟨m, reached, learnt⟩ := fic_reception (T := .x86_64) rfl genMet_unit
    (decodesFic_buffer .x86_64 unitMettab FicBuffers.initial) sampleFic ⟨fun _ => 0, fun _ => 0, 0, 0, 0⟩ 0
    ⟨⟨fun _ => ⟨fun _ => 0, 0, 0, 0⟩, 0, 0, 0, true, false⟩, 0, 0⟩
    ([0, 2, 3, 4, 5].map fun t => (sampleFicRound t, t))
    (fun p member _ => by
      obtain ⟨t, -, rfl⟩ := List.mem_map.mp member
      exact sent_sample t)
    (by
      rw [heard]
      exact follows_sample)
  rw [heard, show wholeFrames [0, 2, 3, 4, 5] = [1] from by decide] at learnt
  refine ⟨m, reached, congrArg Reading.fibcnt learnt, ?_⟩
  exact congrArg (fun s : Reading => s.directory.services) learnt

end OpenDab
