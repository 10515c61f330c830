import OpenDab.Library.BitFields
import OpenDab.SuperframeRoundTrip

/-! Where the access units of a superframe lie. `wfdabplusdec` takes their starts from the header
as it finds it, so a unit can begin in front of the header's end, be shorter than its CRC or
leave the superframe. -/
namespace OpenDab

open BitFields Buffers Division

def numAus (m : Nat → UInt8) : Nat :=
  austab.getD ((streamParms (m 2)).dacRate <<< 1 ||| (streamParms (m 2)).sbrFlag) 0

def auUnits (size : Int) (m : Nat → UInt8) : List (Nat × Int) :=
  (auStart m (numAus m)).zip (auSize size (auStart m (numAus m)))

theorem processSuperframe_units (decodeRs : List UInt8 → List UInt8) (s : Nat) (size : Int)
    (m : Nat → UInt8) : processSuperframe decodeRs s size m =
      accessUnits (streamParms (correct decodeRs s m 2)) (auUnits size (correct decodeRs s m))
        (correct decodeRs s m) := rfl

def collected (s : Nat) (ibuf : Nat → Nat → UInt8) (sfbuf : Nat → UInt8) : Nat → UInt8 :=
  loop 5 (fun k m => copy m (24 * s * k) (ibuf k) (24 * s)) sfbuf

/-- The fifth frame after an accepted one completes the superframe. -/
theorem decodeFrames_five (decodeRs : List UInt8 → List UInt8) (s : Nat) (ibuf : Nat → Nat → UInt8)
    (sfbuf : Nat → UInt8) (accepted : firecrccheck (ibuf 0) = true) :
    decodeFrames decodeRs (24 * s) (8 * s) ((List.range 5).map ibuf) ⟨0, sfbuf⟩ =
      (processSuperframe decodeRs s (110 * s : Nat) (collected s ibuf sfbuf)).map
        fun r => (⟨0, r.1⟩, r.2) := by
  have bitrate : 8 * s / 8 = s := by omega
  have size : ((24 * s : Nat) : Int) * 5 - (s : Int) * 10 = (110 * s : Nat) := by omega
  change decodeFrames decodeRs (24 * s) (8 * s) [ibuf 0, ibuf 1, ibuf 2, ibuf 3, ibuf 4] _ = _
  rw [decodeFrames_collect _ (wfdabplusdec_first accepted),
    decodeFrames_collect _ (wfdabplusdec_next (by decide) (by decide)),
    decodeFrames_collect _ (wfdabplusdec_next (by decide) (by decide)),
    decodeFrames_collect _ (wfdabplusdec_next (by decide) (by decide)),
    decodeFrames, wfdabplusdec_last, bitrate, size]
  change Option.bind (Option.map _ (processSuperframe decodeRs s _ (collected s ibuf sfbuf))) _ = _
  cases processSuperframe decodeRs s (110 * s : Nat) (collected s ibuf sfbuf) <;>
    simp [decodeFrames]

structure UnitInside (header size : Nat) (u : Nat × Int) : Prop where
  crc : 2 ≤ u.2
  behind : header ≤ u.1
  within : u.1 + u.2 ≤ size

/-- The starts in a header: fields of 12 bits from byte 3 on. -/
def headerStarts (m : Nat → UInt8) (units : Nat) : List Nat :=
  read (List.replicate (units - 1) 12) (byteBits (cells m 3 (headerLength units - 3)))

/-- From the end of the header to the end of the superframe, each start leaves room for a CRC. -/
def Spaced (size : Nat) (m : Nat → UInt8) : Prop :=
  (headerLength (numAus m) :: (headerStarts m (numAus m) ++ [size])).IsChain fun a b => a + 2 ≤ b

instance (size : Nat) (m : Nat → UInt8) : Decidable (Spaced size m) :=
  inferInstanceAs (Decidable (List.IsChain _ _))

theorem msbFirst_bits (b : UInt8) : msbFirst b.toBitVec = bits 8 b.toNat := by
  refine List.map_congr_left fun i member => ?_
  simp [BitVec.getMsbD_eq_getLsbD, List.mem_range.mp member, BitVec.getLsbD]

theorem bits_halves (b : UInt8) : bits 8 b.toNat = bits 4 (b.toNat / 16) ++ bits 4 (b.toNat % 16) := by
  have low : bits 4 (b.toNat % 16) = bits 4 b.toNat := bits_mod 4 _
  rw [low]
  exact bits_add 4 4 _

theorem startHigh_bits (a b : UInt8) : bits 8 a.toNat ++ bits 4 (b.toNat / 16) =
      bits 12 ((a.toNat <<< 4) + (b.toNat >>> 4)) ∧ (a.toNat <<< 4) + (b.toNat >>> 4) < 2 ^ 12 := by
  have first := a.toNat_lt
  have second := b.toNat_lt
  rw [Nat.shiftLeft_eq, Nat.shiftRight_eq_div_pow]
  have high : (a.toNat * 2 ^ 4 + b.toNat / 2 ^ 4) / 2 ^ 4 = a.toNat := by omega
  have low : (a.toNat * 2 ^ 4 + b.toNat / 2 ^ 4) % 2 ^ 4 = b.toNat / 16 := by omega
  refine ⟨?_, by omega⟩
  rw [bits_add 8 4, high, ← bits_mod 4 (_ + _), low]

theorem startLow_bits (b c : UInt8) : bits 4 (b.toNat % 16) ++ bits 8 c.toNat =
      bits 12 (((b.toNat &&& 0x0f) <<< 8) + c.toNat) ∧ ((b.toNat &&& 0x0f) <<< 8) + c.toNat < 2 ^ 12 := by
  have last := c.toNat_lt
  have mask : b.toNat &&& 0x0f = b.toNat % 16 := Nat.and_two_pow_sub_one_eq_mod _ 4
  rw [mask, Nat.shiftLeft_eq]
  have high : (b.toNat % 16 * 2 ^ 8 + c.toNat) / 2 ^ 8 = b.toNat % 16 := by omega
  have low : (b.toNat % 16 * 2 ^ 8 + c.toNat) % 2 ^ 8 = c.toNat := by omega
  refine ⟨?_, by omega⟩
  rw [bits_add 4 8, high, ← bits_mod 8 (_ + _), low]

/-- Two starts take three bytes. -/
theorem read_two_starts (widths : List Nat) (a b c : UInt8) (rest : List UInt8) :
    read (12 :: 12 :: widths) (byteBits (a :: b :: c :: rest)) =
      ((a.toNat <<< 4) + (b.toNat >>> 4)) :: (((b.toNat &&& 0x0f) <<< 8) + c.toNat) ::
        read widths (byteBits rest) := by
  obtain ⟨high, small⟩ := startHigh_bits a b
  obtain ⟨low, small'⟩ := startLow_bits b c
  have fields : byteBits (a :: b :: c :: rest) =
      write [(12, (a.toNat <<< 4) + (b.toNat >>> 4)), (12, ((b.toNat &&& 0x0f) <<< 8) + c.toNat)] ++
        byteBits rest := by
    simp only [byteBits, List.flatMap_cons, msbFirst_bits, write, List.flatMap_nil, ← high, ← low,
      bits_halves b, List.append_assoc, List.nil_append]
  rw [fields]
  refine read_write_append [(12, _), (12, _)] (fun f member => ?_) widths _
  rcases List.mem_cons.mp member with rfl | member
  · exact small
  · rw [List.mem_singleton.mp member]
    exact small'

theorem read_last_start (a b : UInt8) :
    read [12] (byteBits [a, b]) = [(a.toNat <<< 4) + (b.toNat >>> 4)] := by
  obtain ⟨high, small⟩ := startHigh_bits a b
  have fields : byteBits [a, b] =
      write [(12, (a.toNat <<< 4) + (b.toNat >>> 4))] ++ bits 4 (b.toNat % 16) := by
    simp only [byteBits, List.flatMap_cons, msbFirst_bits, write, List.flatMap_nil, ← high,
      bits_halves b, List.append_assoc, List.append_nil]
  rw [fields]
  refine read_write_append [(12, _)] (fun f member => ?_) [] _
  rw [List.mem_singleton.mp member]
  exact small

theorem numAus_cases (m : Nat → UInt8) : numAus m = 2 ∨ numAus m = 3 ∨ numAus m = 4 ∨ numAus m = 6 := by
  simp only [numAus, streamParms]
  split <;> split <;> decide

/-- The four layouts are the header's fields. -/
theorem auStart_header (m : Nat → UInt8) :
    auStart m (numAus m) = headerLength (numAus m) :: headerStarts m (numAus m) := by
  rcases numAus_cases m with units | units | units | units <;> rw [units]
  · exact congrArg _ (read_last_start _ _).symm
  · exact congrArg _ (read_two_starts [] _ _ _ []).symm
  · have starts : headerStarts m 4 = [startHigh m 3, startLow m 4, startHigh m 6] := by
      change read [12, 12, 12] (byteBits [m 3, m 4, m 5, m 6, m 7]) = _
      rw [read_two_starts, read_last_start]
      rfl
    rw [starts]
    rfl
  · have starts : headerStarts m 6 =
        [startHigh m 3, startLow m 4, startHigh m 6, startLow m 7, startHigh m 9] := by
      change read [12, 12, 12, 12, 12] (byteBits [m 3, m 4, m 5, m 6, m 7, m 8, m 9, m 10]) = _
      rw [read_two_starts, read_two_starts, read_last_start]
      rfl
    rw [starts]
    rfl

/-- Units whose sizes are the distances to the next start lie inside exactly when the starts are
spaced. -/
theorem units_inside_iff {header start : Nat} (behind : header ≤ start) (size : Nat)
    (starts : List Nat) :
    (∀ u ∈ (start :: starts).zip (auSize size (start :: starts)), UnitInside header size u) ↔
      (start :: (starts ++ [size])).IsChain fun a b => a + 2 ≤ b := by
  induction starts generalizing start with
  | nil =>
    rw [auSize, List.zip_cons_cons, List.zip_nil_left, List.forall_mem_singleton, List.nil_append,
      List.isChain_cons_cons]
    constructor
    · intro inside
      have crc : (2 : Int) ≤ (size : Int) - start := inside.crc
      exact ⟨by omega, .singleton size⟩
    · rintro ⟨room, -⟩
      exact ⟨by dsimp only; omega, behind, by dsimp only; omega⟩
  | cons next starts ih =>
    rw [auSize, List.zip_cons_cons, List.forall_mem_cons, List.cons_append, List.isChain_cons_cons]
    constructor
    · rintro ⟨first, rest⟩
      have crc : (2 : Int) ≤ (next : Int) - start := first.crc
      exact ⟨by omega, (ih (by omega)).mp rest⟩
    · rintro ⟨room, spaced⟩
      have rest := (ih (by omega)).mpr spaced
      have within : next ≤ size := by
        obtain ⟨len, more, sizes⟩ : ∃ len more, auSize size (next :: starts) = len :: more := by
          cases starts <;> exact ⟨_, _, rfl⟩
        rw [sizes] at rest
        have second := rest (next, len) List.mem_cons_self
        have crc := second.crc
        have last := second.within
        dsimp only at crc last
        omega
      exact ⟨⟨by dsimp only; omega, behind, by dsimp only; omega⟩, rest⟩

/-- Handling a unit that lies inside runs to its end and writes nothing outside. -/
theorem UnitInside.handled {header size : Nat} {u : Nat × Int} (inside : UnitInside header size u)
    (sp : StreamParms) (m : Nat → UInt8) :
    ∃ r, accessUnit sp m u.1 u.2 = some r ∧ ∀ a, size ≤ a → r.1 a = m a := by
  obtain ⟨start, len⟩ := u
  obtain ⟨crc, behind, within⟩ := inside
  dsimp only at crc behind within ⊢
  have enough : ¬(len < 0 ∨ (start : Int) + len < 2) := by omega
  have long : ¬len.toNat < 2 := by omega
  have kept (m : Nat → UInt8) (value value' : UInt8) (a : Nat) (outside : size ≤ a) :
      store (store m (start + len.toNat - 2) value) (start + len.toNat - 2 + 1) value' a = m a := by
    rw [store_other _ _ (by omega), store_other _ _ (by omega)]
  rw [accessUnit, if_neg enough]
  dsimp only
  rw [if_neg long]
  split <;> exact ⟨_, rfl, fun a outside => kept m _ _ a outside⟩

theorem units_handled {header size : Nat} {units : List (Nat × Int)}
    (inside : ∀ u ∈ units, UnitInside header size u) (sp : StreamParms) (m : Nat → UInt8) :
    ∃ r, accessUnits sp units m = some r ∧ ∀ a, size ≤ a → r.1 a = m a := by
  induction units generalizing m with
  | nil => exact ⟨_, rfl, fun a _ => rfl⟩
  | cons u units ih =>
    obtain ⟨r, first, kept⟩ := (inside u List.mem_cons_self).handled sp m
    obtain ⟨r', rest, kept'⟩ := ih (fun v member => inside v (List.mem_cons_of_mem _ member)) r.1
    refine ⟨(r'.1, r.2 ++ r'.2), by rw [accessUnits, first, Option.bind_some, rest, Option.map_some], ?_⟩
    exact fun a outside => (kept' a outside).trans (kept a outside)

/-- Every access unit of a superframe whose first logical frame was accepted lies inside it,
exactly when the starts in the corrected header are spaced. -/
theorem access_units_inside_iff (decodeRs : List UInt8 → List UInt8) (s : Nat)
    (ibuf : Nat → Nat → UInt8) (sfbuf : Nat → UInt8) (accepted : firecrccheck (ibuf 0) = true) :
    decodeFrames decodeRs (24 * s) (8 * s) ((List.range 5).map ibuf) ⟨0, sfbuf⟩ =
        (accessUnits (streamParms (correct decodeRs s (collected s ibuf sfbuf) 2))
          (auUnits (110 * s : Nat) (correct decodeRs s (collected s ibuf sfbuf)))
          (correct decodeRs s (collected s ibuf sfbuf))).map (fun r => (⟨0, r.1⟩, r.2)) ∧
      ((∀ u ∈ auUnits (110 * s : Nat) (correct decodeRs s (collected s ibuf sfbuf)),
          UnitInside (headerLength (numAus (correct decodeRs s (collected s ibuf sfbuf)))) (110 * s) u) ↔
        Spaced (110 * s) (correct decodeRs s (collected s ibuf sfbuf))) := by
  refine ⟨?_, ?_⟩
  · rw [decodeFrames_five decodeRs s ibuf sfbuf accepted, processSuperframe_units]
  · rw [auUnits, auStart_header]
    exact units_inside_iff (Nat.le_refl _) _ _

/-- The first frame of a superframe with two units, the second one at byte 60. -/
def twoUnitFrame : Nat → UInt8 := ofList [0x81, 0xe0, 0x20, 0x03, 0xc0] fun _ => 0

theorem access_units_inside_iff_two :
    auUnits (110 * 1 : Nat)
        (correct id 1 (collected 1 (fun k => if k = 0 then twoUnitFrame else fun _ => 0) fun _ => 0)) =
      [(5, 55), (60, 50)] ∧
    ∀ u ∈ auUnits (110 * 1 : Nat)
        (correct id 1 (collected 1 (fun k => if k = 0 then twoUnitFrame else fun _ => 0) fun _ => 0)),
      UnitInside (headerLength (numAus
        (correct id 1 (collected 1 (fun k => if k = 0 then twoUnitFrame else fun _ => 0) fun _ => 0))))
        (110 * 1) u :=
  ⟨by decide +kernel,
    (access_units_inside_iff id 1 (fun k => if k = 0 then twoUnitFrame else fun _ => 0) (fun _ => 0)
      (by decide +kernel)).2.mpr (by decide +kernel)⟩

/-- Frames of zeros are accepted and their first unit has a size of -8. -/
theorem zero_unit_negative : firecrccheck (fun _ => 0) = true ∧
    ¬∀ u ∈ auUnits (110 * 1 : Nat) (correct id 1 (collected 1 (fun _ _ => 0) fun _ => 0)),
      UnitInside (headerLength (numAus (correct id 1 (collected 1 (fun _ _ => 0) fun _ => 0))))
        (110 * 1) u := by
  refine ⟨by decide +kernel, fun inside => ?_⟩
  have first : ((8, -8) : Nat × Int) ∈
      auUnits (110 * 1 : Nat) (correct id 1 (collected 1 (fun _ _ => 0) fun _ => 0)) := by
    decide +kernel
  exact absurd (inside _ first).crc (by decide)

end OpenDab
