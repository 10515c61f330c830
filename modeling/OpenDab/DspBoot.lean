import OpenDab.Library.Buffers
import Mathlib.Tactic.Common

/-! The upload of the DSP code. Each byte is sent as a 16-bit word, thirty of them to a full
message, and one countdown both addresses the file and decides how long the message is. -/
namespace OpenDab

open Buffers

inductive Dsp where
  | b | a
  deriving DecidableEq, Repr

def Dsp.ctrlreg : Dsp → UInt16
  | .b => 0xc110
  | .a => 0x8000

def Dsp.addrreg : Dsp → UInt16
  | .b => 0xc114
  | .a => 0x8004

def Dsp.datareg : Dsp → UInt16
  | .b => 0xc112
  | .a => 0x8002

structure MemMessage where
  value : UInt16
  bytes : List UInt8
  deriving DecidableEq, Repr

def lowByte (w : UInt16) : UInt8 := w.toUInt8

def highByte (w : UInt16) : UInt8 := (w >>> 8).toUInt8

def registerMessage (r0 r1 r2 : UInt16) : MemMessage :=
  ⟨0, [r0, r1, r2].flatMap fun w => [lowByte w, highByte w]⟩

def usbdatalen : Nat := 31

/-- The variables of the upload, what it has sent, and the offsets it has read the file at. -/
structure Upload where
  ubuf : Nat → UInt8
  remain : Nat
  sent : List MemMessage
  reads : List Nat

/-- The loops `ubuf[j] = *(cbuf + base - remain--)`, for every second `j` from 2 on. -/
def Upload.fill (cbuf : Nat → UInt8) (base count : Nat) (u : Upload) : Upload :=
  loop count (fun k u =>
    { u with
      ubuf := store u.ubuf (2 + 2 * k) (cbuf (base - u.remain))
      remain := u.remain - 1
      reads := u.reads ++ [base - u.remain] }) u

def Upload.send (datareg : UInt16) (size : Nat) (u : Upload) : Upload :=
  { u with sent := u.sent ++ [⟨datareg, cells u.ubuf 0 size⟩] }

def Upload.message (cbuf : Nat → UInt8) (datareg : UInt16) (u : Upload) : Upload :=
  if usbdatalen ≤ u.remain then
    (u.fill cbuf 0x2001 (usbdatalen - 1)).send datareg (usbdatalen * 2)
  else
    let left := u.remain * 2
    (u.fill cbuf 0x2000 u.remain).send datareg left

structure Upload.Filled (cbuf : Nat → UInt8) (base count : Nat) (u v : Upload) : Prop where
  remain : v.remain = u.remain - count
  sent : v.sent = u.sent
  reads : v.reads = u.reads ++ List.range' (base - u.remain) count
  ubuf : ∀ k < count, v.ubuf (2 + 2 * k) = cbuf (base - u.remain + k)

theorem Upload.fill_filled (cbuf : Nat → UInt8) {base count : Nat} {u : Upload}
    (enough : count ≤ u.remain) (inside : u.remain ≤ base) :
    u.Filled cbuf base count (u.fill cbuf base count) := by
  induction count with
  | zero => exact ⟨rfl, rfl, (List.append_nil _).symm, fun k low => absurd low (Nat.not_lt_zero k)⟩
  | succ count ih =>
    obtain ⟨remain, sent, reads, ubuf⟩ := ih (by omega)
    have next : base - (u.remain - count) = base - u.remain + count := by omega
    rw [Upload.fill, loop_succ]
    change u.Filled cbuf base (count + 1)
      { u.fill cbuf base count with
        ubuf := store (u.fill cbuf base count).ubuf (2 + 2 * count)
          (cbuf (base - (u.fill cbuf base count).remain))
        remain := (u.fill cbuf base count).remain - 1
        reads := (u.fill cbuf base count).reads ++ [base - (u.fill cbuf base count).remain] }
    rw [remain, next]
    refine ⟨by dsimp only; omega, sent, ?_, ?_⟩
    · dsimp only
      rw [reads, List.append_assoc, List.range'_concat, Nat.one_mul]
    · intro k low
      rcases Nat.lt_succ_iff_lt_or_eq.mp low with before | rfl
      · dsimp only
        rw [store_other _ _ (by omega)]
        exact ubuf k before
      · exact store_same ..

@[simp] theorem Upload.fill_remain (cbuf : Nat → UInt8) (base count : Nat) (u : Upload) :
    (u.fill cbuf base count).remain = u.remain - count := by
  refine loop_invariant (fun i (v : Upload) => v.remain = u.remain - i) rfl ?_
  intro i _ v before
  dsimp only
  omega

theorem Upload.message_remain (cbuf : Nat → UInt8) (datareg : UInt16) (u : Upload) :
    (u.message cbuf datareg).remain = if 31 ≤ u.remain then u.remain - 30 else 0 := by
  unfold Upload.message usbdatalen Upload.send
  split <;> simp

/-- The transfer loop, `while (remain > 0)`. -/
def Upload.transfer (cbuf : Nat → UInt8) (datareg : UInt16) (u : Upload) : Upload :=
  if 0 < u.remain then (u.message cbuf datareg).transfer cbuf datareg else u
termination_by u.remain
decreasing_by
  rw [Upload.message_remain]
  split <;> omega

structure Boot where
  sent : List MemMessage
  reads : List (Dsp × Nat)

def entryPt (cbuf : Nat → UInt8) : UInt16 := (cbuf 0).toUInt16 ||| ((cbuf 1).toUInt16 <<< 8)

/-- The variables before the transfer loop: the buffer cleared, with the register in front, and the
bytes to transfer. -/
def Upload.start (datareg : UInt16) (sent : List MemMessage) : Upload :=
  let ubuf := store (store (fun _ => 0) 0 (lowByte datareg)) 1 (highByte datareg)
  ⟨ubuf, 0x2000 - 0x80 + 1, sent, []⟩

def Boot.upload (files : Dsp → Nat → UInt8) (boot : Boot) (dsp : Dsp) : Boot :=
  let addressed := boot.sent ++ [registerMessage dsp.addrreg 0x007f 0x0000]
  let u := (Upload.start dsp.datareg addressed).transfer (files dsp) dsp.datareg
  ⟨u.sent, boot.reads ++ (u.reads ++ [0, 1]).map (dsp, ·)⟩

def bootPrelude : List MemMessage :=
  [registerMessage Dsp.b.addrreg 0x00e0 0x0000, registerMessage Dsp.b.datareg 0x0000 0x0000,
   registerMessage Dsp.b.ctrlreg 0x0001 0x0001, registerMessage Dsp.a.ctrlreg 0x0001 0x0001]

/-- The messages that start the code, with the entry point that goes to 0x007f. -/
def bootStart (entry_pt : Dsp → UInt16) : List MemMessage :=
  [registerMessage Dsp.a.addrreg 0x007e 0x0000, registerMessage Dsp.b.addrreg 0x007e 0x0000,
   registerMessage Dsp.a.datareg (entry_pt .a &&& 0xff) ((entry_pt .a &&& 0xff00) >>> 8),
   registerMessage Dsp.b.datareg (entry_pt .b &&& 0xff) ((entry_pt .b &&& 0xff00) >>> 8),
   registerMessage Dsp.b.addrreg 0x00ff 0x003e, registerMessage Dsp.b.datareg 0x00 0x00,
   registerMessage Dsp.b.datareg 0x00 0x00, registerMessage Dsp.a.addrreg 0x00ff 0x001f,
   registerMessage Dsp.b.addrreg 0xff 0x1f]

def wfBootDsps (files : Dsp → Nat → UInt8) : Boot :=
  let loaded := [Dsp.b, Dsp.a].foldl (Boot.upload files) ⟨bootPrelude, []⟩
  { loaded with sent := loaded.sent ++ bootStart fun dsp => entryPt (files dsp) }

def MemMessage.image (m : MemMessage) : List UInt8 :=
  (List.range ((m.bytes.length - 1) / 2)).map fun k => m.bytes.getD (2 + 2 * k) 0

theorem image_cells (datareg : UInt16) (ubuf : Nat → UInt8) (size : Nat) :
    (⟨datareg, cells ubuf 0 size⟩ : MemMessage).image =
      (List.range ((size - 1) / 2)).map fun k => ubuf (2 + 2 * k) := by
  unfold MemMessage.image
  rw [length_cells]
  refine List.map_congr_left fun k member => ?_
  have low := List.mem_range.mp member
  have inside : 2 + 2 * k < size := by omega
  simp [cells, List.getD_eq_getElem?_getD, inside]

structure Upload.Sends (datareg : UInt16) (image : List UInt8) (offsets : List Nat)
    (u v : Upload) : Prop where
  sent : ∃ messages, v.sent = u.sent ++ messages ∧ (∀ m ∈ messages, m.value = datareg) ∧
    messages.flatMap MemMessage.image = image
  reads : v.reads = u.reads ++ offsets

theorem Upload.Sends.trans {datareg : UInt16} {image image' : List UInt8} {offsets offsets' : List Nat}
    {u v w : Upload} (first : u.Sends datareg image offsets v)
    (second : v.Sends datareg image' offsets' w) :
    u.Sends datareg (image ++ image') (offsets ++ offsets') w := by
  obtain ⟨⟨messages, sent, registers, bytes⟩, reads⟩ := first
  obtain ⟨⟨messages', sent', registers', bytes'⟩, reads'⟩ := second
  refine ⟨⟨messages ++ messages', ?_, ?_, ?_⟩, ?_⟩
  · rw [sent', sent, List.append_assoc]
  · exact List.forall_mem_append.mpr ⟨registers, registers'⟩
  · rw [List.flatMap_append, bytes, bytes']
  · rw [reads', reads, List.append_assoc]

/-- A fill followed by a message of `size` bytes sends as many of the filled bytes as fit. -/
theorem Upload.Filled.sends {cbuf : Nat → UInt8} {base count size : Nat} {u v : Upload}
    (filled : u.Filled cbuf base count v) (datareg : UInt16) (fits : (size - 1) / 2 ≤ count) :
    u.Sends datareg (cells cbuf (base - u.remain) ((size - 1) / 2))
      (List.range' (base - u.remain) count) (v.send datareg size) := by
  refine ⟨⟨[⟨datareg, cells v.ubuf 0 size⟩], ?_, ?_, ?_⟩, filled.reads⟩
  · change v.sent ++ _ = _
    rw [filled.sent]
  · simp
  · rw [List.flatMap_singleton, image_cells, cells_eq_map]
    refine List.map_congr_left fun k member => filled.ubuf k ?_
    exact Nat.lt_of_lt_of_le (List.mem_range.mp member) fits

section Transfer

variable (cbuf : Nat → UInt8) (datareg : UInt16)

theorem Upload.message_full {u : Upload} (enough : 31 ≤ u.remain) (inside : u.remain ≤ 0x2001) :
    u.Sends datareg (cells cbuf (0x2001 - u.remain) 30) (List.range' (0x2001 - u.remain) 30)
      (u.message cbuf datareg) := by
  have full : usbdatalen ≤ u.remain := enough
  rw [Upload.message, if_pos full]
  have fits : (62 - 1) / 2 ≤ 30 := by decide
  exact (Upload.fill_filled cbuf (by omega) inside).sends datareg fits

/-- The last message starts one byte earlier and is one word too short for its last byte. -/
theorem Upload.message_left {u : Upload} (few : u.remain < 31) :
    u.Sends datareg (cells cbuf (0x2000 - u.remain) (u.remain - 1))
      (List.range' (0x2000 - u.remain) u.remain) (u.message cbuf datareg) := by
  have partly : ¬usbdatalen ≤ u.remain := Nat.not_le_of_lt few
  have size : u.remain - 1 = (u.remain * 2 - 1) / 2 := by omega
  rw [Upload.message, if_neg partly, size]
  exact (Upload.fill_filled cbuf (Nat.le_refl _) (by omega)).sends datareg (by omega)

theorem Upload.transfer_sends {left : Nat} (some : 0 < left) (few : left < 31) (n : Nat) :
    ∀ {u : Upload}, u.remain = 30 * n + left → u.remain ≤ 0x2001 →
      u.Sends datareg
        (cells cbuf (0x2001 - u.remain) (30 * n) ++ cells cbuf (0x2000 - left) (left - 1))
        (List.range' (0x2001 - u.remain) (30 * n) ++ List.range' (0x2000 - left) left)
        (u.transfer cbuf datareg) := by
  induction n with
  | zero =>
    intro u remain inside
    obtain rfl : u.remain = left := by omega
    have last := u.message_remain cbuf datareg
    rw [if_neg (by omega)] at last
    rw [Upload.transfer, if_pos some, Upload.transfer, if_neg (by omega)]
    simpa using u.message_left cbuf datareg few
  | succ n ih =>
    intro u remain inside
    have next := u.message_remain cbuf datareg
    by_cases full : 31 ≤ u.remain
    · rw [if_pos full] at next
      have rest := ih (u := u.message cbuf datareg) (by omega) (by omega)
      have behind : 0x2001 - (u.message cbuf datareg).remain = 0x2001 - u.remain + 30 := by omega
      have more : 30 * (n + 1) = 30 + 30 * n := by omega
      rw [Upload.transfer, if_pos (by omega), more, cells_add, ← List.range'_append_1]
      rw [behind] at rest
      simpa only [List.append_assoc] using (u.message_full cbuf datareg full inside).trans rest
    · omega

def uploadedBytes : List UInt8 := cells cbuf 0x80 8040 ++ cells cbuf 0x1fe7 24

theorem Upload.transfer_uploaded {u : Upload} (whole : u.remain = 0x1f81) :
    u.Sends datareg (uploadedBytes cbuf) (List.range' 0x80 8040 ++ List.range' 0x1fe7 25)
      (u.transfer cbuf datareg) := by
  have count : 0x1f81 = 30 * 268 + 25 := by decide
  have sends := Upload.transfer_sends cbuf datareg (by decide) (by decide) 268
    (whole.trans count) (by omega)
  rwa [whole] at sends

end Transfer

def Boot.uploaded (boot : Boot) (dsp : Dsp) : List UInt8 :=
  (boot.sent.filter fun m => m.value == dsp.datareg).flatMap MemMessage.image

theorem Boot.upload_spec (files : Dsp → Nat → UInt8) (boot : Boot) (dsp : Dsp) :
    (∃ messages, (boot.upload files dsp).sent =
        boot.sent ++ registerMessage dsp.addrreg 0x007f 0x0000 :: messages ∧
      (∀ m ∈ messages, m.value = dsp.datareg) ∧
      messages.flatMap MemMessage.image = uploadedBytes (files dsp)) ∧
    ∃ offsets : List Nat, (boot.upload files dsp).reads = boot.reads ++ offsets.map (dsp, ·) ∧
      ∀ o ∈ offsets, o < 0x2000 := by
  have whole (sent : List MemMessage) : (Upload.start dsp.datareg sent).remain = 0x1f81 := rfl
  unfold Boot.upload
  dsimp only
  obtain ⟨⟨messages, sent, registers, bytes⟩, reads⟩ := Upload.transfer_uploaded (files dsp) dsp.datareg
    (whole (boot.sent ++ [registerMessage dsp.addrreg 0x007f 0x0000]))
  rw [sent, reads]
  refine ⟨⟨messages, ?_, registers, bytes⟩, _, rfl, fun o member => ?_⟩
  · simp [Upload.start]
  · simp only [Upload.start, List.mem_append, List.mem_range'_1, List.mem_cons, List.not_mem_nil,
      or_false, false_or] at member
    omega

@[simp] theorem registerMessage_value (r0 r1 r2 : UInt16) : (registerMessage r0 r1 r2).value = 0 := rfl

theorem datareg_ne_zero (dsp : Dsp) : (0 : UInt16) ≠ dsp.datareg := by cases dsp <;> decide

theorem datareg_injective {dsp other : Dsp} (same : dsp.datareg = other.datareg) : dsp = other := by
  cases dsp <;> cases other <;> first | rfl | exact absurd same (by decide)

theorem Boot.uploaded_upload (files : Dsp → Nat → UInt8) (boot : Boot) (dsp other : Dsp) :
    (boot.upload files dsp).uploaded other =
      boot.uploaded other ++ if dsp = other then uploadedBytes (files dsp) else [] := by
  obtain ⟨⟨messages, sent, registers, bytes⟩, -⟩ := boot.upload_spec files dsp
  have address : (registerMessage dsp.addrreg 0x007f 0x0000).value ≠ other.datareg :=
    datareg_ne_zero other
  rw [Boot.uploaded, sent, List.filter_append, List.flatMap_append,
    List.filter_cons_of_neg (by simpa using address)]
  refine congrArg _ ?_
  split
  · next same =>
    subst same
    rw [List.filter_eq_self.mpr fun m member => by simp [registers m member], bytes]
  · next apart =>
    rw [List.filter_eq_nil_iff.mpr, List.flatMap_nil]
    intro m member
    rw [registers m member, beq_iff_eq]
    exact fun same => apart (datareg_injective same)

theorem wfBootDsps_uploaded (files : Dsp → Nat → UInt8) (dsp : Dsp) :
    (wfBootDsps files).uploaded dsp = uploadedBytes (files dsp) := by
  have none (messages : List MemMessage) (zero : ∀ m ∈ messages, m.value = 0) :
      messages.filter (fun m => m.value == dsp.datareg) = [] := by
    rw [List.filter_eq_nil_iff]
    intro m member
    rw [zero m member, beq_iff_eq]
    exact datareg_ne_zero dsp
  have before : (⟨bootPrelude, []⟩ : Boot).uploaded dsp = [] := by
    rw [Boot.uploaded, none _ (by simp [bootPrelude]), List.flatMap_nil]
  rw [wfBootDsps, Boot.uploaded, List.filter_append, none (bootStart _) (by simp [bootStart]),
    List.append_nil]
  change Boot.uploaded (((⟨bootPrelude, []⟩ : Boot).upload files .b).upload files .a) dsp = _
  rw [Boot.uploaded_upload, Boot.uploaded_upload, before]
  cases dsp <;> simp

theorem wfBootDsps_reads (files : Dsp → Nat → UInt8) :
    ∀ r ∈ (wfBootDsps files).reads, r.2 < 0x2000 := by
  have step (boot : Boot) (dsp : Dsp) (inside : ∀ r ∈ boot.reads, r.2 < 0x2000) :
      ∀ r ∈ (boot.upload files dsp).reads, r.2 < 0x2000 := by
    obtain ⟨-, offsets, reads, low⟩ := boot.upload_spec files dsp
    rw [reads]
    refine List.forall_mem_append.mpr ⟨inside, fun r member => ?_⟩
    obtain ⟨o, there, rfl⟩ := List.mem_map.mp member
    exact low o there
  exact step _ .a (step _ .b fun r member => by cases member)

/-- A DSP gets its code file from offset 0x80 to 0x2000, byte after byte, and nothing behind that is
read. -/
structure UploadExact (files : Dsp → Nat → UInt8) (dsp : Dsp) : Prop where
  image : (wfBootDsps files).uploaded dsp = cells (files dsp) 0x80 (0x2000 - 0x80)
  inside : ∀ o, (dsp, o) ∈ (wfBootDsps files).reads → o < 0x2000

/-- The last 25 bytes are all the same. -/
def EvenEnd (cbuf : Nat → UInt8) : Prop := ∀ o, 0x1fe7 ≤ o → o < 0x2000 → cbuf o = cbuf 0x1fe7

theorem uploadedBytes_eq_iff (cbuf : Nat → UInt8) :
    uploadedBytes cbuf = cells cbuf 0x80 (0x2000 - 0x80) ↔ EvenEnd cbuf := by
  have split : cells cbuf 0x80 (0x2000 - 0x80) = cells cbuf 0x80 8040 ++ cells cbuf 0x1fe8 24 :=
    cells_add cbuf 0x80 8040 24
  rw [split, uploadedBytes, List.append_right_inj, cells_eq_iff]
  constructor
  · intro same o first last
    obtain ⟨i, rfl⟩ := Nat.exists_eq_add_of_le first
    induction i with
    | zero => rfl
    | succ i ih =>
      have here := same i (by omega)
      rw [show 0x1fe7 + (i + 1) = 0x1fe8 + i by omega, ← here]
      exact ih (by omega) (by omega)
  · intro even i inside
    rw [even (0x1fe7 + i) (by omega) (by omega), even (0x1fe8 + i) (by omega) (by omega)]

/-- The image arrives without gap or repetition exactly when the file ends in 25 equal bytes: the
last message starts with a byte that has been sent and leaves out the last one. -/
theorem upload_exact_iff (files : Dsp → Nat → UInt8) (dsp : Dsp) :
    UploadExact files dsp ↔ EvenEnd (files dsp) := by
  rw [← uploadedBytes_eq_iff, ← wfBootDsps_uploaded]
  exact ⟨fun exact => exact.image, fun image => ⟨image, fun o => wfBootDsps_reads files _⟩⟩

/-- A file whose last byte differs from the others never has it sent. -/
theorem last_byte_not_uploaded :
    ¬UploadExact (fun _ => store (fun _ => 0) 0x1fff 1) .a := by
  intro exact
  have image := exact.image
  rw [wfBootDsps_uploaded, uploadedBytes_eq_iff] at image
  exact absurd (image 0x1fff (by decide) (by decide)) (by decide)

end OpenDab
