import OpenDab.FigProc

/-! What FIG 0/1 and FIG 0/2 do to the ensemble is the sequence of `add_subchannel` and
`add_service` calls they make. The sequence depends on the bytes of the FIG and, for two
fields of the descriptors, on what the uninitialised local held. -/
namespace OpenDab

open Buffers

theorem or_below (a b k : Nat) (below : b < 2 ^ k) : a * 2 ^ k ||| b = a * 2 ^ k + b := by
  rw [Nat.mul_comm, ← Nat.two_pow_add_eq_or_of_lt below]

theorem ipack_toNat (f : Nat → UInt8) : (ipack f).toNat =
    (f 0).toNat * 2 ^ 24 + (f 1).toNat * 2 ^ 16 + (f 2).toNat * 2 ^ 8 + (f 3).toNat := by
  have h0 := (f 0).toNat_lt
  have h1 := (f 1).toNat_lt
  have h2 := (f 2).toNat_lt
  have h3 := (f 3).toNat_lt
  simp only [ipack, UInt32.toNat_or, UInt32.toNat_shiftLeft, UInt8.toNat_toUInt32,
    Nat.shiftLeft_eq]
  generalize (f 0).toNat = a at *
  generalize (f 1).toNat = b at *
  generalize (f 2).toNat = c at *
  generalize (f 3).toNat = d at *
  have first : a * 2 ^ 24 ||| b * 2 ^ 16 = (a * 2 ^ 8 + b) * 2 ^ 16 := by
    rw [or_below _ _ 24 (by omega)]
    omega
  have second : (a * 2 ^ 8 + b) * 2 ^ 16 ||| c * 2 ^ 8 = ((a * 2 ^ 8 + b) * 2 ^ 8 + c) * 2 ^ 8 := by
    rw [or_below _ _ 16 (by omega)]
    omega
  have third := or_below ((a * 2 ^ 8 + b) * 2 ^ 8 + c) d 8 (by omega)
  have small : a * 2 ^ 24 % 2 ^ 32 = a * 2 ^ 24 ∧ b * 2 ^ 16 % 2 ^ 32 = b * 2 ^ 16 ∧
      c * 2 ^ 8 % 2 ^ 32 = c * 2 ^ 8 := by omega
  simp only [show UInt32.toNat 24 % 32 = 24 from rfl, show UInt32.toNat 16 % 32 = 16 from rfl,
    show UInt32.toNat 8 % 32 = 8 from rfl, small, first, second, third]
  omega

theorem spack_toNat (f : Nat → UInt8) : (spack f).toNat = (f 0).toNat * 2 ^ 8 + (f 1).toNat := by
  have h0 := (f 0).toNat_lt
  have h1 := (f 1).toNat_lt
  simp only [spack, UInt16.toNat_or, UInt16.toNat_shiftLeft, UInt8.toNat_toUInt16,
    Nat.shiftLeft_eq]
  rw [show UInt16.toNat 8 % 16 = 8 from rfl, Nat.mod_eq_of_lt (by omega)]
  exact or_below _ _ 8 (by omega)

def fig01Calls : Nat → Nat → (Nat → UInt8) → Subch → Option (List EnsCall)
  | 0, _, _, _ => some []
  | fuel + 1, j, fig, s =>
    if j > 0 then
      (fig01Entry s fig).bind fun r =>
        (fig01Calls fuel (j - r.2) (shift fig r.2) r.1).map (.subchannel r.1 :: ·)
    else some []

/-- The component at `fig`, if it is streamed audio. -/
def componentCall (sid : UInt32) (fig : Nat → UInt8) : List EnsCall :=
  let ac := Mscstau.ofBits (spack fig).toNat
  if ac.tmId = 0 then [.service ac sid] else []

def fig02Calls : Nat → Nat → Nat → (Nat → UInt8) → List EnsCall
  | 0, _, _, _ => []
  | fuel + 1, pd, j, fig =>
    if j > 0 then
      let sid := if pd ≠ 0 then ipack fig else (spack fig).toUInt32
      let n := if pd ≠ 0 then 4 else 2
      let scmp := bitField (fig n).toNat 0 4
      (List.range scmp).flatMap (fun k => componentCall sid (shift fig (n + 1 + 2 * k))) ++
        fig02Calls fuel pd (j - n - 1 - 2 * scmp) (shift fig (n + 1 + 2 * scmp))
    else []

theorem fig01Loop_calls (fuel j : Nat) (fig : Nat → UInt8) (s : Subch) (e : EnsInfo) :
    fig01Loop fuel j fig s e = (fig01Calls fuel j fig s).map (List.foldl EnsCall.run e) := by
  induction fuel generalizing j fig s e with
  | zero => rfl
  | succ fuel ih =>
    rw [fig01Loop, fig01Calls]
    split
    · cases fig01Entry s fig with
      | none => rfl
      | some r => simp [ih, Function.comp_def, EnsCall.run]
    · rfl

theorem fig02Components_calls (scmp : Nat) (sid : UInt32) (fig : Nat → UInt8) (e : EnsInfo) :
    fig02Components scmp sid fig e =
      ((List.range scmp).flatMap fun k => componentCall sid (shift fig (2 * k))).foldl
        EnsCall.run e := by
  unfold fig02Components
  induction scmp with
  | zero => rfl
  | succ scmp ih =>
    rw [loop_succ, ih, List.range_succ, List.flatMap_append, List.foldl_append]
    simp only [List.flatMap_singleton, componentCall]
    split <;> rfl

theorem fig02Loop_calls (fuel pd j : Nat) (fig : Nat → UInt8) (e : EnsInfo) :
    fig02Loop fuel pd j fig e = (fig02Calls fuel pd j fig).foldl EnsCall.run e := by
  induction fuel generalizing j fig e with
  | zero => rfl
  | succ fuel ih =>
    rw [fig02Loop, fig02Calls]
    split
    · simp only [ih, fig02Components_calls, List.foldl_append]
      rfl
    · rfl

theorem fig01Entry_some {s : Subch} {fig : Nat → UInt8} {r : Subch × Nat}
    (entry : fig01Entry s fig = some r) : r.1.subchid < 64 ∧ r.1.dabplus = s.dabplus := by
  have small : bitField (ipack fig).toNat 26 6 < 64 := Nat.mod_lt _ (by decide)
  simp only [fig01Entry] at entry
  split at entry
  all_goals
    obtain ⟨p, -, rfl⟩ := Option.map_eq_some_iff.mp entry
    exact ⟨small, rfl⟩

theorem componentCall_service {sid : UInt32} {fig : Nat → UInt8} {call : EnsCall}
    (member : call ∈ componentCall sid fig) : ∃ ac, call = .service ac sid := by
  simp only [componentCall] at member
  split at member
  · exact ⟨_, List.mem_singleton.mp member⟩
  · simp at member

theorem fig02Calls_service (fuel pd j : Nat) (fig : Nat → UInt8) :
    ∀ call ∈ fig02Calls fuel pd j fig, ∃ ac sid, call = EnsCall.service ac sid := by
  induction fuel generalizing j fig with
  | zero => simp [fig02Calls]
  | succ fuel ih =>
    rw [fig02Calls]
    split
    · intro call member
      rcases List.mem_append.mp member with here | later
      · obtain ⟨k, -, found⟩ := List.mem_flatMap.mp here
        obtain ⟨ac, same⟩ := componentCall_service found
        exact ⟨ac, _, same⟩
      · exact ih _ _ call later
    · simp

end OpenDab
