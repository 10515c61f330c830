import OpenDab.FigEncoding
import Mathlib.Data.List.Induction

/-! Parsing undoes encoding: every handler reads back the fields that were encoded, each
FIG is dispatched with its own body, and a FIB acts on the directory as its FIGs do. -/
namespace OpenDab

open Buffers Roster

theorem bigEndian_two (v : Nat) :
    bigEndian 2 v = [UInt8.ofNat (v / 256 ^ 1), UInt8.ofNat (v / 256 ^ 0)] := rfl

theorem bigEndian_three (v : Nat) : bigEndian 3 v =
    [UInt8.ofNat (v / 256 ^ 2), UInt8.ofNat (v / 256 ^ 1), UInt8.ofNat (v / 256 ^ 0)] := rfl

theorem bigEndian_four (v : Nat) : bigEndian 4 v =
    [UInt8.ofNat (v / 256 ^ 3), UInt8.ofNat (v / 256 ^ 2), UInt8.ofNat (v / 256 ^ 1),
      UInt8.ofNat (v / 256 ^ 0)] := rfl

@[simp] theorem length_bigEndian (n v : Nat) : (bigEndian n v).length = n := by
  simp [bigEndian]

theorem ipack_four {fig : Nat → UInt8} {v : Nat} (small : v < 2 ^ 32)
    (begins : Begins fig (bigEndian 4 v)) : (ipack fig).toNat = v := by
  simp only [bigEndian_four, begins_cons, shift_shift, shift_apply] at begins
  obtain ⟨b0, b1, b2, b3, -⟩ := begins
  rw [ipack_toNat, b0, b1, b2, b3]
  simp only [UInt8.toNat_ofNat']
  omega

theorem ipack_three {fig : Nat → UInt8} {v : Nat} (small : v < 2 ^ 24)
    (begins : Begins fig (bigEndian 3 v)) : (ipack fig).toNat = v * 2 ^ 8 + (fig 3).toNat := by
  simp only [bigEndian_three, begins_cons, shift_shift, shift_apply] at begins
  obtain ⟨b0, b1, b2, -⟩ := begins
  rw [ipack_toNat, b0, b1, b2]
  simp only [UInt8.toNat_ofNat']
  omega

theorem spack_two {fig : Nat → UInt8} {v : Nat} (small : v < 2 ^ 16)
    (begins : Begins fig (bigEndian 2 v)) : (spack fig).toNat = v := by
  simp only [bigEndian_two, begins_cons, shift_shift, shift_apply] at begins
  obtain ⟨b0, b1, -⟩ := begins
  rw [spack_toNat, b0, b1]
  simp only [UInt8.toNat_ofNat']
  omega

/-- The description of an entry with the two fields that come from the local. -/
def Descriptor.fill (d : Descriptor) (s : Subch) : Subch :=
  { d.subch with
    dabplus := s.dabplus
    uepIndx := if d.subch.eepprot ≠ 0 then s.uepIndx else d.subch.uepIndx }

theorem fill_subchid (d : Descriptor) (s : Subch) : (d.fill s).subchid = d.id := by
  cases d <;> rfl

theorem fill_described (d : Descriptor) (s : Subch) : (d.fill s).described = d.subch := by
  cases d <;> simp [Descriptor.fill, Subch.described, Descriptor.subch]

theorem length_encode (d : Descriptor) : d.encode.length = 3 ∨ d.encode.length = 4 := by
  cases d <;> simp [Descriptor.encode]

theorem fig01Entry_encode (d : Descriptor) {fig : Nat → UInt8} (begins : Begins fig d.encode)
    (s : Subch) : fig01Entry s fig = some (d.fill s, d.encode.length) := by
  cases d with
  | long subChId startAddr opt protLvl subChSz =>
    have f := ipack_four (by omega) begins
    have fields : bitField (ipack fig).toNat 26 6 = subChId ∧
        bitField (ipack fig).toNat 16 10 = startAddr ∧ bitField (ipack fig).toNat 15 1 = 1 ∧
        bitField (ipack fig).toNat 12 3 = opt ∧ bitField (ipack fig).toNat 10 2 = protLvl ∧
        bitField (ipack fig).toNat 0 10 = subChSz := by
      rw [f]
      unfold bitField
      omega
    obtain ⟨id, start, form, option, level, size⟩ := fields
    have row : opt.val * 4 + protLvl < eeptable.length := by
      simp only [eeptable, List.length_cons, List.length_nil]
      omega
    simp [fig01Entry, id, start, form, option, level, size, List.getElem?_eq_getElem row,
      Descriptor.fill, Descriptor.subch, Descriptor.encode]
  | short subChId startAddr tableSw tabIndx =>
    have f := ipack_three (by omega) begins
    have next := (fig 3).toNat_lt
    have fields : bitField (ipack fig).toNat 26 6 = subChId ∧
        bitField (ipack fig).toNat 16 10 = startAddr ∧ bitField (ipack fig).toNat 15 1 = 0 ∧
        bitField (ipack fig).toNat 8 6 = tabIndx := by
      rw [f]
      unfold bitField
      omega
    obtain ⟨id, start, form, index⟩ := fields
    have row : tabIndx.val < ueptable.length := by
      simp only [ueptable, List.length_cons, List.length_nil]
      omega
    simp [fig01Entry, id, start, form, index, List.getElem?_eq_getElem row,
      Descriptor.fill, Descriptor.subch, Descriptor.encode]

/-- Adding a described sub-channel is the directory's step. -/
theorem directory_addSubchannel (e : EnsInfo) (d : Descriptor) (s : Subch) :
    directory (addSubchannel e (d.fill s)) = (directory e).describe d := by
  have small : d.id ≤ 63 := by
    cases d <;> simp only [Descriptor.id] <;> omega
  unfold addSubchannel Directory.describe
  rw [fill_subchid]
  by_cases unused : (e.schan d.id).subchid > 64
  · have free : (directory e).channel d.id = none := if_pos unused
    rw [if_pos unused, if_pos free]
    simp only [directory, Directory.mk.injEq, and_true]
    funext id
    simp only [store_apply]
    split
    · have used : ¬(d.fill s).subchid > 64 := by
        rw [fill_subchid]
        omega
      rw [if_neg used, fill_described]
    · rfl
  · have taken : (directory e).channel d.id ≠ none := by simp [directory, unused]
    rw [if_neg unused, if_neg taken]

theorem fig01Loop_encode (entries : List Descriptor) {fig : Nat → UInt8} (fuel : Nat)
    (enough : (entries.flatMap Descriptor.encode).length ≤ fuel)
    (begins : Begins fig (entries.flatMap Descriptor.encode)) (s : Subch) (e : EnsInfo) :
    ∃ e', fig01Loop fuel (entries.flatMap Descriptor.encode).length fig s e = some e' ∧
      directory e' = entries.foldl Directory.describe (directory e) := by
  induction entries generalizing fig fuel s e with
  | nil =>
    refine ⟨e, ?_, rfl⟩
    cases fuel <;> rfl
  | cons d rest ih =>
    rw [List.flatMap_cons, List.length_append] at *
    rw [begins_append] at begins
    have size := length_encode d
    obtain ⟨fuel, rfl⟩ : ∃ n, fuel = n + 1 := ⟨fuel - 1, by omega⟩
    obtain ⟨e', run, same⟩ := ih fuel (by omega) begins.2 (d.fill s) (addSubchannel e (d.fill s))
    refine ⟨e', ?_, ?_⟩
    · rw [fig01Loop, if_pos (by omega), fig01Entry_encode d begins.1, Option.bind_some,
        Nat.add_sub_cancel_left]
      exact run
    · rw [same, directory_addSubchannel, List.foldl_cons]

theorem ofBits_bits (c : Mscstau) : Mscstau.ofBits c.bits = c := by
  obtain ⟨caFlag, primary, subChId, ascTy, tmId⟩ := c
  simp only [Mscstau.ofBits, Mscstau.bits, Mscstau.mk.injEq, Fin.ext_iff, Fin.val_ofNat]
  omega

theorem bits_lt (c : Mscstau) : c.bits < 2 ^ 16 := by
  unfold Mscstau.bits
  omega

theorem attach_join (c : Mscstau) (s : Service) : (attach c s).1 = s.join c := by
  obtain ⟨label, sid, pa, sa⟩ := s
  have cases : c.primary = 0 ∨ c.primary = 1 := by omega
  rcases cases with second | first
  · cases sa <;> simp [attach, Service.join, second]
  · cases pa <;> simp [attach, Service.join, first]

theorem directory_addService (e : EnsInfo) (c : Mscstau) (sid : UInt32) (audio : c.tmId = 0) :
    directory (addService e c sid) = (directory e).announce sid c := by
  have services := addService_srv e c sid
  simp only [attach_join] at services
  simp only [directory, Directory.announce, if_pos audio, services, Directory.mk.injEq, and_true]
  funext id
  simp only [addService, store_apply]
  split
  · next same => simp [same, Subch.described]
  · rfl

/-- The components of a service are recorded one after the other. -/
theorem fig02Components_encode (components : List Mscstau) {fig : Nat → UInt8}
    (begins : Begins fig (components.flatMap fun c => bigEndian 2 c.bits)) (sid : UInt32)
    (e : EnsInfo) : directory (fig02Components components.length sid fig e) =
      components.foldl (Directory.announce sid) (directory e) := by
  induction components using List.reverseRecOn with
  | nil => rfl
  | append_singleton components c ih =>
    rw [List.flatMap_append, begins_append] at begins
    obtain ⟨earlier, last⟩ := begins
    have offset : (components.flatMap fun c => bigEndian 2 c.bits).length =
        2 * components.length := by
      simp [List.length_flatMap, Nat.mul_comm]
    rw [offset, List.flatMap_singleton] at last
    have word := spack_two (bits_lt c) last
    have before := ih earlier
    unfold fig02Components at before ⊢
    rw [List.length_append, List.length_singleton, loop_succ, List.foldl_append, ← before]
    simp only [word, ofBits_bits, List.foldl_cons, List.foldl_nil]
    split
    · next audio => exact directory_addService _ c sid audio
    · next other => rw [Directory.announce, if_neg other]

theorem length_service (s : ServiceEntry pd) : s.encode.length =
    (if pd = 0 then 2 else 4) + 1 + 2 * s.components.length := by
  simp only [ServiceEntry.encode, List.length_append, length_bigEndian, List.length_cons,
    List.length_flatMap, List.map_const', List.sum_replicate_nat]
  omega

theorem sid_short {s : ServiceEntry pd} (short : pd = 0) {fig : Nat → UInt8}
    (begins : Begins fig (bigEndian 2 s.sid.toNat)) : (spack fig).toUInt32 = s.sid := by
  rw [← UInt32.toNat_inj, UInt16.toNat_toUInt32, spack_two (s.short short) begins]

theorem sid_long {sid : UInt32} {fig : Nat → UInt8}
    (begins : Begins fig (bigEndian 4 sid.toNat)) : ipack fig = sid := by
  rw [← UInt32.toNat_inj, ipack_four sid.toNat_lt begins]

/-- A body of encoded services is walked service by service. -/
theorem fig02Loop_encode (entries : List (ServiceEntry pd)) {fig : Nat → UInt8} (fuel : Nat)
    (enough : (entries.flatMap ServiceEntry.encode).length ≤ fuel)
    (begins : Begins fig (entries.flatMap ServiceEntry.encode)) (e : EnsInfo) :
    directory (fig02Loop fuel pd (entries.flatMap ServiceEntry.encode).length fig e) =
      entries.foldl (fun D s => s.components.foldl (Directory.announce s.sid) D)
        (directory e) := by
  induction entries generalizing fig fuel e with
  | nil => cases fuel <;> rfl
  | cons s rest ih =>
    rw [List.flatMap_cons, List.length_append] at *
    rw [begins_append] at begins
    obtain ⟨here, later⟩ := begins
    have size := length_service s
    obtain ⟨fuel, rfl⟩ : ∃ n, fuel = n + 1 := ⟨fuel - 1, by omega⟩
    rw [ServiceEntry.encode, begins_append, begins_cons, length_bigEndian, shift_shift] at here
    obtain ⟨identifier, count, components⟩ := here
    have few := s.few
    have scmp : bitField (UInt8.ofNat (s.localFlag * 2 ^ 7 + s.caId * 2 ^ 4 +
        s.components.length)).toNat 0 4 = s.components.length := by
      rw [UInt8.toNat_ofNat', bitField]
      omega
    have width : (if (pd : Nat) ≠ 0 then 4 else 2) = if pd = 0 then 2 else 4 := by
      by_cases short : pd = 0 <;> simp [short]
    have sid : (if (pd : Nat) ≠ 0 then ipack fig else (spack fig).toUInt32) = s.sid := by
      by_cases short : pd = 0
      · rw [if_pos short] at identifier
        simpa [short] using sid_short short identifier
      · rw [if_neg short] at identifier
        simpa [short] using sid_long identifier
    rw [shift_apply, Nat.add_zero] at count
    rw [fig02Loop, if_pos (by omega), List.foldl_cons]
    simp only [width, sid, count, scmp]
    rw [← fig02Components_encode s.components components, ← size, Nat.sub_sub, Nat.sub_sub,
      ← Nat.add_assoc, ← size, Nat.add_sub_cancel_left]
    exact ih fuel (by omega) later _

theorem labelString_text {text : Vector UInt8 16} {fig : Nat → UInt8}
    (begins : Begins fig text.toList) : labelString fig = text.toList.takeWhile (· ≠ 0) := by
  have bytes : (List.range 16).map fig = text.toList := by
    apply List.ext_getElem
    · simp
    · intro i inside bound
      rw [List.getElem_map, List.getElem_range]
      exact begins i bound
  rw [labelString, bytes]

theorem fig11_encode {sid : UInt16} {text : Vector UInt8 16} {fig : Nat → UInt8}
    (named : Begins fig (bigEndian 2 sid.toNat)) (labelled : Begins (shift fig 2) text.toList)
    (e : EnsInfo) : directory (fig11 fig e) = (directory e).name sid text := by
  have word : spack fig = sid := by
    rw [← UInt16.toNat_inj, spack_two sid.toNat_lt named]
  unfold fig11 findService Directory.name
  rw [word, labelString_text labelled]
  simp only [directory, ← modify_revise]
  cases e.srv.findIdx? (Service.sid · = sid.toUInt32) <;> rfl

theorem type_le (f : Fig) : f.type ≤ 1 := by
  cases f <;> simp [Fig.type]

/-- The header byte of a FIG that fits gives back its length and type. -/
theorem header_fields (f : Fig) (fits : f.body.length < 2 ^ 5) :
    bitField (UInt8.ofNat (f.type * 2 ^ 5 + f.body.length)).toNat 0 5 = f.body.length ∧
      bitField (UInt8.ofNat (f.type * 2 ^ 5 + f.body.length)).toNat 5 3 = f.type := by
  have small := type_le f
  rw [UInt8.toNat_ofNat', bitField, bitField]
  omega

/-- Dispatching an encoded FIG leaves the FIB alone and acts on the directory as the FIG means. -/
theorem unpickfig_encode (f : Fig) (fits : f.body.length < 2 ^ 5) {mem : Nat → UInt8} {fig : Nat}
    (begins : Begins (shift mem fig) f.encode) (stack : Subch) (e : EnsInfo) :
    ∃ e', unpickfig stack fig f.body.length ⟨e, mem⟩ = some ⟨e', mem⟩ ∧
      directory e' = (directory e).apply f := by
  rw [Fig.encode, begins_cons, shift_apply, Nat.add_zero, shift_shift] at begins
  obtain ⟨header, body⟩ := begins
  have type := (header_fields f fits).2
  unfold unpickfig
  simp only [header, type]
  cases f with
  | organization cn oe pd entries =>
    rw [Fig.body, begins_cons, shift_apply, Nat.add_zero, shift_shift] at body
    obtain ⟨extension, body⟩ := body
    have extn : bitField (UInt8.ofNat (cn * 2 ^ 7 + oe * 2 ^ 6 + pd * 2 ^ 5 + 1)).toNat 0 5 = 1 := by
      rw [UInt8.toNat_ofNat', bitField]
      omega
    obtain ⟨e', run, same⟩ := fig01Loop_encode entries _ (Nat.le_refl _) body stack e
    refine ⟨e', ?_, same⟩
    simp only [Fig.type, fig0, extension, extn, fig01, Fig.body, List.length_cons,
      Nat.add_sub_cancel, run, Option.map_some]
  | services cn oe pd entries =>
    rw [Fig.body, begins_cons, shift_apply, Nat.add_zero, shift_shift] at body
    obtain ⟨extension, body⟩ := body
    have fields : bitField (UInt8.ofNat (cn * 2 ^ 7 + oe * 2 ^ 6 + pd * 2 ^ 5 + 2)).toNat 0 5 = 2 ∧
        bitField (UInt8.ofNat (cn * 2 ^ 7 + oe * 2 ^ 6 + pd * 2 ^ 5 + 2)).toNat 5 1 = pd := by
      rw [UInt8.toNat_ofNat', bitField, bitField]
      omega
    refine ⟨_, ?_, fig02Loop_encode entries _ (Nat.le_refl _) body e⟩
    simp only [Fig.type, fig0, extension, fields, fig02, Fig.body, List.length_cons,
      Nat.add_sub_cancel]
  | label charset oe sid text nonempty chflag =>
    rw [Fig.body, begins_cons, shift_apply, Nat.add_zero, shift_shift, begins_append,
      begins_append, length_bigEndian] at body
    obtain ⟨extension, ⟨named, labelled⟩, -⟩ := body
    have extn : bitField (UInt8.ofNat (charset * 2 ^ 4 + oe * 2 ^ 3 + 1)).toNat 0 3 = 1 := by
      rw [UInt8.toNat_ofNat', bitField]
      omega
    refine ⟨_, ?_, fig11_encode named labelled e⟩
    simp only [Fig.type, fig1, extension, extn]

def placed : Nat → List Fig → List (Nat × Fig)
  | _, [] => []
  | j, f :: rest => (j, f) :: placed (j + f.encode.length) rest

/-- One call of `unpickfig` for every FIG, in order, each at its offset with its length. -/
def dispatch (stack : Nat → Subch) (fib : Nat) (calls : List (Nat × Fig)) (s : FigState) :
    Option FigState :=
  calls.foldlM (fun s call =>
    unpickfig (stack (fib + call.1)) (fib + call.1) call.2.body.length s) s

/-- What the FIB says: the FIGs, and an end marker unless they fill the FIB. -/
structure Carries (mem : Nat → UInt8) (fib : Nat) (figs : List Fig) : Prop where
  fits : (figs.flatMap Fig.encode).length ≤ 30
  begins : Begins (shift mem fib) (figs.flatMap Fig.encode)
  marked : (figs.flatMap Fig.encode).length < 30 →
    mem (fib + (figs.flatMap Fig.encode).length) = 0xff

theorem header_ne_marker (f : Fig) (fits : f.body.length < 2 ^ 5) :
    UInt8.ofNat (f.type * 2 ^ 5 + f.body.length) ≠ 0xff := by
  have small := type_le f
  rw [Ne, ← UInt8.toNat_inj, UInt8.toNat_ofNat']
  simp only [UInt8.reduceToNat]
  omega

/-- The walk from the offset of the first remaining FIG. -/
theorem fibLoop_encode (figs : List Fig) (stack : Nat → Subch) {mem : Nat → UInt8} {fib : Nat}
    (fuel j : Nat) (enough : 30 ≤ j + fuel) (fits : j + (figs.flatMap Fig.encode).length ≤ 30)
    (begins : Begins (shift mem (fib + j)) (figs.flatMap Fig.encode))
    (marked : j + (figs.flatMap Fig.encode).length < 30 →
      mem (fib + (j + (figs.flatMap Fig.encode).length)) = 0xff) (e : EnsInfo) :
    ∃ e', fibLoop stack fib fuel j ⟨e, mem⟩ = some ⟨e', mem⟩ ∧
      dispatch stack fib (placed j figs) ⟨e, mem⟩ = some ⟨e', mem⟩ ∧
      directory e' = figs.foldl Directory.apply (directory e) := by
  induction figs generalizing fuel j e with
  | nil =>
    refine ⟨e, ?_, rfl, rfl⟩
    cases fuel with
    | zero => rfl
    | succ fuel =>
      have stop : ¬(j < 30 ∧ mem (fib + j) ≠ 0xff) := fun ⟨inside, other⟩ => other (marked inside)
      rw [fibLoop, if_neg stop]
  | cons f rest ih =>
    rw [List.flatMap_cons, List.length_append] at *
    rw [begins_append, shift_shift] at begins
    obtain ⟨here, later⟩ := begins
    have size : f.encode.length = f.body.length + 1 := rfl
    obtain ⟨fuel, rfl⟩ : ∃ n, fuel = n + 1 := ⟨fuel - 1, by omega⟩
    obtain ⟨e₁, first, meaning⟩ := unpickfig_encode f (by omega) here (stack (fib + j)) e
    rw [Nat.add_assoc] at later
    rw [← Nat.add_assoc] at fits marked
    obtain ⟨e', walk, calls, same⟩ := ih fuel (j + f.encode.length) (by omega) fits later marked e₁
    refine ⟨e', ?_, ?_, ?_⟩
    · have header := ((begins_cons ..).mp here).1
      rw [shift_apply, Nat.add_zero] at header
      have go : j < 30 ∧ mem (fib + j) ≠ 0xff := by
        rw [header]
        exact ⟨by omega, header_ne_marker f (by omega)⟩
      rw [fibLoop, if_pos go]
      simp only [header, (header_fields f (by omega)).1, first, Option.bind_some]
      exact walk
    · rw [placed, dispatch, List.foldlM_cons, first]
      exact calls
    · rw [same, meaning, List.foldl_cons]

theorem placed_begins (figs : List Fig) {mem : Nat → UInt8} {fib j : Nat}
    (begins : Begins (shift mem (fib + j)) (figs.flatMap Fig.encode)) :
    ∀ call ∈ placed j figs, Begins (shift mem (fib + call.1)) call.2.encode := by
  induction figs generalizing j with
  | nil => simp [placed]
  | cons f rest ih =>
    rw [List.flatMap_cons, begins_append, shift_shift, Nat.add_assoc] at begins
    intro call member
    rcases List.mem_cons.mp member with rfl | later
    · exact begins.1
    · exact ih begins.2 call later

theorem placed_figs (figs : List Fig) (j : Nat) : (placed j figs).map Prod.snd = figs := by
  induction figs generalizing j with
  | nil => rfl
  | cons f rest ih => rw [placed, List.map_cons, ih]

/-- The loop over a FIB dispatches its FIGs once each, in order, at their own bytes, and leaves
the directory that they describe. -/
theorem fig_parsing (figs : List Fig) (stack : Nat → Subch) (mem : Nat → UInt8) (fib : Nat)
    (carries : Carries mem fib figs) (e : EnsInfo) :
    (placed 0 figs).map Prod.snd = figs ∧
      (∀ call ∈ placed 0 figs, Begins (shift mem (fib + call.1)) call.2.encode) ∧
      fibLoop stack fib 30 0 ⟨e, mem⟩ = dispatch stack fib (placed 0 figs) ⟨e, mem⟩ ∧
      ∃ e', dispatch stack fib (placed 0 figs) ⟨e, mem⟩ = some ⟨e', mem⟩ ∧
        directory e' = figs.foldl Directory.apply (directory e) := by
  obtain ⟨fits, begins, marked⟩ := carries
  obtain ⟨e', walk, dispatched, same⟩ := fibLoop_encode figs stack 30 0 (by omega) (by omega) begins
    (by simpa using marked) e
  exact ⟨placed_figs figs 0, placed_begins figs begins, walk.trans dispatched.symm, e', dispatched,
    same⟩

def sampleFigs : List Fig :=
  [.organization 0 0 0 [.long 5 100 0 2 84, .short 6 200 0 20],
    .services 0 0 0 [⟨0xe1c0, 0, 0, [⟨0, 1, 5, 63, 0⟩, ⟨0, 0, 6, 0, 1⟩], by decide, by decide⟩]]

theorem fig_parsing_sample : ∃ e', fibLoop (fun _ => ⟨0, 0, 0, 0, 0, 0, 0, 0⟩) 0 30 0
      ⟨ficinit einf, ofList (sampleFigs.flatMap Fig.encode ++ [0xff]) fun _ => 0⟩ =
        some ⟨e', ofList (sampleFigs.flatMap Fig.encode ++ [0xff]) fun _ => 0⟩ ∧
      (directory e').services = [⟨[], 0xe1c0, some 5, none⟩] := by
  have carries : Carries (ofList (sampleFigs.flatMap Fig.encode ++ [0xff]) fun _ => 0) 0 sampleFigs :=
    ⟨by decide, fun i bound => by revert i; decide, fun _ => by decide⟩
  obtain ⟨-, -, walk, e', dispatched, same⟩ := fig_parsing sampleFigs
    (fun _ => ⟨0, 0, 0, 0, 0, 0, 0, 0⟩) _ 0 carries (ficinit einf)
  refine ⟨e', walk.trans dispatched, ?_⟩
  rw [same]
  rfl

end OpenDab
