import OpenDab.FigCalls
import OpenDab.FigWalk

/-! What the FIG handlers read. A FIG is whole when its type and the entries it has begun end
within its length; then the bytes behind it have no say in what it does to the ensemble. -/
namespace OpenDab

open Buffers

def Agree (n : Nat) (f g : Nat → UInt8) : Prop := ∀ i < n, f i = g i

theorem Agree.shift {n d : Nat} {f g : Nat → UInt8} (agree : Agree n f g) :
    Agree (n - d) (shift f d) (shift g d) :=
  fun i inside => agree (d + i) (by omega)

theorem Agree.mono {n m : Nat} {f g : Nat → UInt8} (agree : Agree n f g) (small : m ≤ n) :
    Agree m f g :=
  fun i inside => agree i (by omega)

theorem Agree.spack {f g : Nat → UInt8} (agree : Agree 2 f g) : spack f = spack g := by
  rw [OpenDab.spack, OpenDab.spack, agree 0 (by decide), agree 1 (by decide)]

theorem Agree.ipack {f g : Nat → UInt8} (agree : Agree 4 f g) : ipack f = ipack g := by
  rw [OpenDab.ipack, OpenDab.ipack, agree 0 (by decide), agree 1 (by decide), agree 2 (by decide),
    agree 3 (by decide)]

/-- The fields above the lowest byte of a word do not depend on this byte. -/
theorem Agree.field {f g : Nat → UInt8} (agree : Agree 3 f g) {offset : Nat} (high : 8 ≤ offset)
    (width : Nat) : bitField (OpenDab.ipack f).toNat offset width =
      bitField (OpenDab.ipack g).toNat offset width := by
  have upper : (OpenDab.ipack f).toNat / 2 ^ 8 = (OpenDab.ipack g).toNat / 2 ^ 8 := by
    have f3 := (f 3).toNat_lt
    have g3 := (g 3).toNat_lt
    rw [ipack_toNat, ipack_toNat, agree 0 (by decide), agree 1 (by decide), agree 2 (by decide)]
    omega
  obtain ⟨k, rfl⟩ : ∃ k, offset = 8 + k := ⟨offset - 8, by omega⟩
  rw [bitField, bitField, Nat.pow_add, ← Nat.div_div_eq_div_mul, ← Nat.div_div_eq_div_mul, upper]

def fig01Taken (fig : Nat → UInt8) : Option Nat :=
  (fig01Entry ⟨0, 0, 0, 0, 0, 0, 0, 0⟩ fig).map (·.2)

def fig01Whole : Nat → Nat → (Nat → UInt8) → Prop
  | 0, _, _ => True
  | fuel + 1, j, fig => 0 < j → 3 ≤ j ∧
      ∀ n, fig01Taken fig = some n → n ≤ j ∧ fig01Whole fuel (j - n) (shift fig n)

theorem fig01Entry_taken (s : Subch) (fig : Nat → UInt8) :
    (fig01Entry s fig).map (·.2) = fig01Taken fig := by
  simp only [fig01Taken, fig01Entry]
  split <;> simp only [Option.map_map, Function.comp_def]

theorem fig01Taken_long {fig : Nat → UInt8} {p : EepProf}
    (form : bitField (ipack fig).toNat 15 1 ≠ 0)
    (row : eeptable[bitField (ipack fig).toNat 12 3 * 4 + bitField (ipack fig).toNat 10 2]? = some p) :
    fig01Taken fig = some 4 := by
  simp only [fig01Taken, fig01Entry, if_pos form, row, Option.map_some]

/-- A short entry is read from three bytes, a long one from four. -/
theorem fig01Entry_agree {f g : Nat → UInt8} (s : Subch) (agree : Agree 3 f g)
    (long : ∀ n, fig01Taken f = some n → Agree n f g) : fig01Entry s f = fig01Entry s g := by
  have form := agree.field (show 8 ≤ 15 by decide) 1
  have option := agree.field (show 8 ≤ 12 by decide) 3
  have level := agree.field (show 8 ≤ 10 by decide) 2
  have id := agree.field (show 8 ≤ 26 by decide) 6
  have start := agree.field (show 8 ≤ 16 by decide) 10
  have index := agree.field (show 8 ≤ 8 by decide) 6
  simp only [fig01Entry, form, option, level, id, start, index]
  split
  · next eep =>
    cases row : eeptable[bitField (ipack g).toNat 12 3 * 4 + bitField (ipack g).toNat 10 2]? with
    | none => rw [Option.map_none, Option.map_none]
    | some p =>
      rw [← form] at eep
      rw [← option, ← level] at row
      rw [(long 4 (fig01Taken_long eep row)).ipack]
  · rfl

theorem fig01Loop_agree {fuel j : Nat} {f g : Nat → UInt8} (agree : Agree j f g)
    (whole : fig01Whole fuel j f) (s : Subch) (e : EnsInfo) :
    fig01Loop fuel j f s e = fig01Loop fuel j g s e := by
  induction fuel generalizing j f g s e with
  | zero => rfl
  | succ fuel ih =>
    rw [fig01Loop, fig01Loop]
    split
    · next more =>
      obtain ⟨three, rest⟩ := whole more
      rw [← fig01Entry_agree s (agree.mono three) fun n taken => agree.mono (rest n taken).1]
      cases entry : fig01Entry s f with
      | none => rfl
      | some r =>
        have taken := fig01Entry_taken s f
        rw [entry] at taken
        exact ih agree.shift (rest r.2 taken.symm).2 _ _
    · rfl

/-- The component at offset `p` ends within the FIG, or is no audio by its first byte. -/
def ComponentWhole (j : Nat) (fig : Nat → UInt8) (p : Nat) : Prop :=
  p < j ∧ (p + 1 < j ∨ 64 ≤ (fig p).toNat)

def sidBytes (pd : Nat) : Nat := if pd ≠ 0 then 4 else 2

def fig02Whole : Nat → Nat → Nat → (Nat → UInt8) → Prop
  | 0, _, _, _ => True
  | fuel + 1, pd, j, fig => 0 < j →
      let n := sidBytes pd
      let scmp := bitField (fig n).toNat 0 4
      n < j ∧ (∀ k < scmp, ComponentWhole j fig (n + 1 + 2 * k)) ∧
        fig02Whole fuel pd (j - n - 1 - 2 * scmp) (shift fig (n + 1 + 2 * scmp))

theorem tmId_ofBits (fig : Nat → UInt8) :
    (Mscstau.ofBits (spack fig).toNat).tmId = 0 ↔ (fig 0).toNat < 64 := by
  have high := (fig 0).toNat_lt
  have low := (fig 1).toNat_lt
  rw [Fin.ext_iff, spack_toNat]
  change ((fig 0).toNat * 2 ^ 8 + (fig 1).toNat) / 16384 % 4 = 0 ↔ _
  omega

theorem fig02Components_agree {j n scmp : Nat} {f g : Nat → UInt8} (agree : Agree j f g)
    (whole : ∀ k < scmp, ComponentWhole j f (n + 2 * k)) (sid : UInt32) (e : EnsInfo) :
    fig02Components scmp sid (shift f n) e = fig02Components scmp sid (shift g n) e := by
  refine loop_congr fun k small e => ?_
  obtain ⟨begun, inside | other⟩ := whole k small
  · have same : Agree 2 (shift (shift f n) (2 * k)) (shift (shift g n) (2 * k)) := by
      intro i bound
      simp only [shift_apply]
      exact agree _ (by omega)
    rw [same.spack]
  · have first : f (n + 2 * k) = g (n + 2 * k) := agree _ begun
    have silent (h : Nat → UInt8) (data : 64 ≤ (h (n + 2 * k)).toNat) :
        (Mscstau.ofBits (spack (shift (shift h n) (2 * k))).toNat).tmId ≠ 0 := by
      rw [ne_eq, tmId_ofBits]
      simp only [shift_apply, Nat.add_zero]
      omega
    rw [if_neg (silent f other), if_neg (silent g (by rwa [← first]))]

theorem fig02Loop_succ (fuel pd j : Nat) (fig : Nat → UInt8) (e : EnsInfo) :
    fig02Loop (fuel + 1) pd j fig e =
      if j > 0 then
        let n := sidBytes pd
        let scmp := bitField (fig n).toNat 0 4
        fig02Loop fuel pd (j - n - 1 - 2 * scmp) (shift fig (n + 1 + 2 * scmp))
          (fig02Components scmp (if pd ≠ 0 then ipack fig else (spack fig).toUInt32)
            (shift fig (n + 1)) e)
      else e := rfl

theorem fig02Loop_agree {fuel pd j : Nat} {f g : Nat → UInt8} (agree : Agree j f g)
    (whole : fig02Whole fuel pd j f) (e : EnsInfo) :
    fig02Loop fuel pd j f e = fig02Loop fuel pd j g e := by
  induction fuel generalizing j f g e with
  | zero => rfl
  | succ fuel ih =>
    rw [fig02Loop_succ, fig02Loop_succ]
    split
    · next more =>
      obtain ⟨counted, components, rest⟩ := whole more
      have sid : (if pd ≠ 0 then ipack f else (spack f).toUInt32) =
          if pd ≠ 0 then ipack g else (spack g).toUInt32 := by
        unfold sidBytes at counted
        split at counted
        · next long => rw [if_pos long, if_pos long, (agree.mono (by omega)).ipack]
        · next short => rw [if_neg short, if_neg short, (agree.mono (by omega)).spack]
      simp only [← sid, ← agree _ counted, fig02Components_agree agree components]
      exact ih (by simpa only [Nat.sub_sub, Nat.add_assoc] using agree.shift) rest _
    · rfl

theorem takeWhile_stop {p : α → Bool} {a : α} (stop : p a = false) (front back : List α) :
    (front ++ a :: back).takeWhile p = front.takeWhile p := by
  induction front with
  | nil => simp [stop]
  | cons b front ih => simp only [List.cons_append, List.takeWhile_cons, ih]

theorem labelString_agree {n : Nat} {f g : Nat → UInt8} (agree : Agree n f g)
    (whole : 16 ≤ n ∨ ∃ i < n, f i = 0) : labelString f = labelString g := by
  have same {m : Nat} (small : m ≤ n) : (List.range m).map f = (List.range m).map g :=
    List.map_congr_left fun i member => agree i (by have := List.mem_range.mp member; omega)
  by_cases all : 16 ≤ n
  · rw [labelString, labelString, same all]
  · obtain ⟨i, inside, nul⟩ := whole.resolve_left all
    have split (h : Nat → UInt8) : (List.range 16).map h =
        (List.range i).map h ++ h i :: (List.range' (i + 1) (15 - i)).map h := by
      have parts : List.range 16 = List.range i ++ List.range' (0 + i) (15 - i + 1) := by
        rw [List.range_eq_range', List.range_eq_range', List.range'_append_1]
        congr 1
        omega
      rw [parts, Nat.zero_add, List.map_append, List.range'_succ, List.map_cons]
    rw [labelString, labelString, split, split, takeWhile_stop (by simp [nul]),
      takeWhile_stop (by simp [← agree i inside, nul]), same (Nat.le_of_lt inside)]

/-- The FIG at `fig` is not cut by its length. -/
def FigWhole (mem : Nat → UInt8) (fig : Nat) : Prop :=
  let n := flen mem fig - 1
  let f := (mem (fig + 1)).toNat
  let body := shift mem (fig + 2)
  match bitField (mem fig).toNat 5 3 with
  | 0 => 0 < flen mem fig ∧
    match bitField f 0 5 with
    | 0 => 2 ≤ n
    | 1 => fig01Whole n n body
    | 2 => fig02Whole n (bitField f 5 1) n body
    | _ => True
  | 1 => 0 < flen mem fig ∧
    match bitField f 0 3 with
    | 0 => 18 ≤ n
    | 1 => 2 ≤ n ∧ (16 ≤ n - 2 ∨ ∃ i < n - 2, shift body 2 i = 0)
    | _ => True
  | _ => True

def SameFig (mem mem' : Nat → UInt8) (fig : Nat) : Prop :=
  ∀ x, fig ≤ x → x ≤ fig + flen mem fig → mem x = mem' x

section Same

variable {mem mem' : Nat → UInt8} {fig : Nat}

theorem SameFig.header (same : SameFig mem mem' fig) : mem' fig = mem fig :=
  (same fig (Nat.le_refl _) (by omega)).symm

theorem SameFig.flen (same : SameFig mem mem' fig) : flen mem' fig = flen mem fig := by
  rw [OpenDab.flen, OpenDab.flen, same.header]

theorem SameFig.extension (same : SameFig mem mem' fig) (some : 0 < OpenDab.flen mem fig) :
    mem' (fig + 1) = mem (fig + 1) :=
  (same (fig + 1) (by omega) (by omega)).symm

theorem SameFig.body (same : SameFig mem mem' fig) :
    Agree (OpenDab.flen mem fig - 1) (shift mem (fig + 2)) (shift mem' (fig + 2)) :=
  fun i inside => same (fig + 2 + i) (by omega) (by omega)

theorem SameFig.fig0 (same : SameFig mem mem' fig) (type : bitField (mem fig).toNat 5 3 = 0)
    (whole : FigWhole mem fig) (stack : Subch) (e : EnsInfo) :
    (fig0 stack (OpenDab.flen mem fig) (fig + 1) ⟨e, mem⟩).map FigState.einf =
      (fig0 stack (OpenDab.flen mem fig) (fig + 1) ⟨e, mem'⟩).map FigState.einf := by
  have body := same.body
  unfold FigWhole at whole
  rw [type] at whole
  obtain ⟨some, whole⟩ := whole
  split at whole
  · next extension =>
    simp only [OpenDab.fig0, same.extension some, extension, Option.map_some, fig00,
      (body.mono whole).spack]
  · next extension =>
    simp only [OpenDab.fig0, same.extension some, extension, Option.map_map, fig01,
      fig01Loop_agree body whole]
    rfl
  · next extension =>
    simp only [OpenDab.fig0, same.extension some, extension, Option.map_some, fig02,
      fig02Loop_agree body whole]
  · simp only [OpenDab.fig0, same.extension some]
    rfl

theorem SameFig.fig1 (same : SameFig mem mem' fig) (type : bitField (mem fig).toNat 5 3 = 1)
    (whole : FigWhole mem fig) (e : EnsInfo) :
    (fig1 (fig + 1) ⟨e, mem⟩).einf = (fig1 (fig + 1) ⟨e, mem'⟩).einf := by
  have body := same.body
  unfold FigWhole at whole
  rw [type] at whole
  obtain ⟨some, whole⟩ := whole
  split at whole
  · next extension =>
    have label : (List.range 16).map (shift (shift mem (fig + 2)) 2) =
        (List.range 16).map (shift (shift mem' (fig + 2)) 2) :=
      List.map_congr_left fun i member =>
        body (2 + i) (by have := List.mem_range.mp member; omega)
    simp only [OpenDab.fig1, same.extension some, extension, fig10, (body.mono (by omega)).spack, label]
  · next extension =>
    simp only [OpenDab.fig1, same.extension some, extension, fig11, (body.mono whole.1).spack,
      labelString_agree body.shift whole.2]
  · simp only [OpenDab.fig1, same.extension some]
    split
    · contradiction
    · contradiction
    · rfl
    · rfl

/-- A whole FIG does to the ensemble what its own bytes say. -/
theorem SameFig.handle (same : SameFig mem mem' fig) (whole : FigWhole mem fig)
    (stack : Nat → Subch) (e : EnsInfo) :
    (FigCall.handle stack ⟨fig, e, mem⟩).map FigState.einf =
      (FigCall.handle stack ⟨fig, e, mem'⟩).map FigState.einf := by
  simp only [FigCall.handle, unpickfig, same.flen, same.header]
  split
  · next type => exact same.fig0 type whole _ e
  · next type => rw [Option.map_some, Option.map_some, same.fig1 type whole]
  · rfl

theorem SameFig.dataLabel (same : SameFig mem mem' fig) (whole : FigWhole mem fig) :
    IsDataLabel mem' fig ↔ IsDataLabel mem fig := by
  unfold IsDataLabel
  rw [same.header]
  refine and_congr_right fun type => ?_
  unfold FigWhole at whole
  rw [type] at whole
  rw [same.extension whole.1]

theorem SameFig.step (same : SameFig mem mem' fig) (whole : FigWhole mem fig) {stack : Nat → Subch}
    {e : EnsInfo} {s : FigState} (handled : FigCall.handle stack ⟨fig, e, mem⟩ = some s) :
    ∃ s', FigCall.handle stack ⟨fig, e, mem'⟩ = some s' ∧ s'.einf = s.einf ∧
      ∀ x, mem x = mem' x → s.mem x = s'.mem x := by
  have einf := same.handle whole stack e
  rw [handled, Option.map_some, eq_comm, Option.map_eq_some_iff] at einf
  obtain ⟨s', handled', einf⟩ := einf
  refine ⟨s', handled', einf, fun x agree => ?_⟩
  have label := same.dataLabel whole
  rw [FigCall.handle_mem handled, FigCall.handle_mem handled', FigCall.written, FigCall.written]
  by_cases kind : IsDataLabel mem fig
  · rw [if_pos kind, if_pos (label.mpr kind), store_apply, store_apply]
    split
    · rfl
    · exact agree
  · rw [if_neg kind, if_neg (mt label.mp kind)]
    exact agree

end Same

theorem own_bytes_from (stack : Nat → Subch) (fib k j : Nat) {e : EnsInfo}
    {mem mem' : Nat → UInt8} (handled : (fibCalls stack fib k j ⟨e, mem⟩).length = k)
    (whole : ∀ c ∈ fibCalls stack fib k j ⟨e, mem⟩, FigWhole c.state.mem c.fig)
    (agree : ∀ c ∈ fibCalls stack fib k j ⟨e, mem⟩, ∀ x, fib + j ≤ x →
      x ≤ c.fig + flen c.state.mem c.fig → mem x = mem' x) :
    (fibLoop stack fib k j ⟨e, mem⟩).map FigState.einf =
      (fibLoop stack fib k j ⟨e, mem'⟩).map FigState.einf := by
  induction k generalizing j e mem mem' with
  | zero => rfl
  | succ k ih =>
    rw [fibCalls] at handled whole agree
    by_cases more : j < 30 ∧ mem (fib + j) ≠ 0xff
    · rw [if_pos more] at handled whole agree
      have same : SameFig mem mem' (fib + j) := agree _ List.mem_cons_self
      have mine := whole _ List.mem_cons_self
      have more' : j < 30 ∧ mem' (fib + j) ≠ 0xff := by rwa [same.header]
      rw [fibLoop_succ, fibLoop_succ, if_pos more, if_pos more', same.flen]
      cases first : FigCall.handle stack ⟨fib + j, e, mem⟩ with
      | none =>
        have einf := same.handle mine stack e
        rw [first, Option.map_none, eq_comm, Option.map_eq_none_iff] at einf
        rw [einf]
      | some s =>
        obtain ⟨s', first', einf, kept⟩ := same.step mine first
        rw [first] at handled whole agree
        rw [first', Option.bind_some, Option.bind_some]
        rw [List.length_cons, Nat.succ_inj] at handled
        obtain ⟨e', mem'⟩ := s'
        rw [ih _ handled (fun c member => whole c (List.mem_cons_of_mem _ member))
          fun c member x behind within =>
            kept x (agree c (List.mem_cons_of_mem _ member) x (by omega) within), ← einf]
    · rw [if_neg more] at handled
      cases handled

/-- After the first `k` FIGs, all of them whole, the ensemble is the same whatever follows them in the
FIB or in the FIBs after it. -/
theorem fig_own_bytes (stack : Nat → Subch) (fib k : Nat) (e : EnsInfo) (mem mem' : Nat → UInt8)
    (handled : (fibCalls stack fib k 0 ⟨e, mem⟩).length = k)
    (agree : ∀ c ∈ fibCalls stack fib k 0 ⟨e, mem⟩, ∀ x, fib ≤ x →
      x ≤ c.fig + flen c.state.mem c.fig → mem x = mem' x)
    (whole : ∀ c ∈ fibCalls stack fib k 0 ⟨e, mem⟩, FigWhole c.state.mem c.fig) :
    (fibLoop stack fib k 0 ⟨e, mem⟩).map FigState.einf =
      (fibLoop stack fib k 0 ⟨e, mem'⟩).map FigState.einf :=
  own_bytes_from stack fib k 0 handled whole agree

def noSubch : Subch := ⟨0, 0, 0, 0, 0, 0, 0, 0⟩

def wholeFigs : List UInt8 := [0x05, 0x00, 0x12, 0x34, 0x00, 0x00, 0x04, 0x01, 0x04, 0x00, 0x05]

theorem fig_own_bytes_two :
    (fibLoop (fun _ => noSubch) 0 2 0 ⟨einf, ofList wholeFigs fun _ => 0xff⟩).map FigState.einf =
      (fibLoop (fun _ => noSubch) 0 2 0 ⟨einf, ofList wholeFigs fun _ => 0⟩).map FigState.einf := by
  refine fig_own_bytes _ 0 2 einf _ _ rfl ?_ ?_
  · intro c member x _ within
    have bound : x < wholeFigs.length := by
      change c ∈ [_, _] at member
      rcases List.mem_cons.mp member with rfl | rest
      · exact Nat.lt_of_le_of_lt within (by decide)
      · rw [List.mem_singleton.mp rest] at within
        exact Nat.lt_of_le_of_lt within (by decide)
    rw [begins_ofList _ _ x bound, begins_ofList _ _ x bound]
  · intro c member
    change c ∈ [_, _] at member
    rcases List.mem_cons.mp member with rfl | rest
    · exact ⟨by decide, show 2 ≤ 4 by decide⟩
    · rw [List.mem_singleton.mp rest]
      refine ⟨by decide, fun _ => ⟨by decide, fun n taken => ?_⟩⟩
      obtain rfl : 3 = n := Option.some.inj taken
      exact ⟨by decide, fun more => absurd more (by decide)⟩

def shortFig (behind : UInt8) : Nat → UInt8 := ofList [0x01, 0x00] fun _ => behind

/-- The ensemble identifier is taken from the bytes behind the FIG. -/
theorem short_fig_reads_on :
    (fibCalls (fun _ => noSubch) 0 1 0 ⟨einf, shortFig 0xff⟩).length = 1 ∧
    (∀ c ∈ fibCalls (fun _ => noSubch) 0 1 0 ⟨einf, shortFig 0xff⟩, ∀ x,
      x ≤ c.fig + flen c.state.mem c.fig → shortFig 0xff x = shortFig 0x12 x) ∧
    (fibLoop (fun _ => noSubch) 0 1 0 ⟨einf, shortFig 0xff⟩).map FigState.einf ≠
      (fibLoop (fun _ => noSubch) 0 1 0 ⟨einf, shortFig 0x12⟩).map FigState.einf := by
  refine ⟨rfl, fun c member x within => ?_, fun same => ?_⟩
  · rw [List.mem_singleton.mp (show c ∈ [_] from member)] at within
    have bound : x < ([0x01, 0x00] : List UInt8).length := Nat.lt_of_le_of_lt within (by decide)
    rw [shortFig, shortFig, begins_ofList _ _ x bound, begins_ofList _ _ x bound]
  · have eid := congrArg (Option.map EnsInfo.eid) same
    exact absurd (Option.some.inj eid) (by decide)

end OpenDab
