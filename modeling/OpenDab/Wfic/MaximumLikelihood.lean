import OpenDab.Wfic.Erasure
import Mathlib.Data.Finset.Max
import Mathlib.Data.Finset.Prod

/-! The decoder against the encoder: of all messages of `nbits` bits it returns one whose
code bits match the received symbols best. -/
namespace OpenDab

open Buffers

/-- Code bits of a message given one bit a cell: `encode` from state 0 with a zero tail. -/
def encodeBits (symbols message : Nat → UInt8) (nbits : Nat) : Nat → UInt8 :=
  let e := loop nbits (fun i => Encoder.push (message i).toUInt32) (⟨0, symbols, 0⟩ : Encoder)
  (loop 6 (fun _ => Encoder.push 0) e).symbols

def Message (nbits : Nat) (message : Nat → UInt8) : Prop :=
  ∀ i < nbits, message i = 0 ∨ message i = 1

def inputBits (message : Nat → UInt8) (nbits i : Nat) : Bool :=
  decide (i < nbits) && decide (message i = 1)

theorem inputBits_late (message : Nat → UInt8) {nbits i : Nat} (late : nbits ≤ i) :
    inputBits message nbits i = false := by
  rw [inputBits, decide_eq_false (by omega), Bool.false_and]

theorem inputBits_toNat {message : Nat → UInt8} {nbits i : Nat} (bits : Message nbits message)
    (inside : i < nbits) : (inputBits message nbits i).toNat = (message i).toNat := by
  rw [inputBits, decide_eq_true inside, Bool.true_and]
  rcases bits i inside with zero | one
  · rw [zero]
    rfl
  · rw [one]
    rfl

theorem encodeBits_codeword (symbols : Nat → UInt8) {message : Nat → UInt8} {nbits : Nat}
    (bits : Message nbits message) {p : Nat} (inside : p < 4 * (nbits + 6)) :
    encodeBits symbols message nbits p = codeword (inputBits message nbits) p := by
  have start : Encoder.Holds (inputBits message nbits) 0 ⟨0, symbols, 0⟩ :=
    ⟨rfl, rfl, fun p before => absurd before (by omega)⟩
  have sent : Encoder.Holds (inputBits message nbits) nbits
      (loop nbits (fun i => Encoder.push (message i).toUInt32) ⟨0, symbols, 0⟩) := by
    refine loop_invariant (Encoder.Holds (inputBits message nbits)) start fun i low e before => ?_
    refine before.push ?_
    rw [inputBits_toNat bits low]
    rfl
  have flushed : Encoder.Holds (inputBits message nbits) (nbits + 6)
      (loop 6 (fun _ => Encoder.push 0)
        (loop nbits (fun i => Encoder.push (message i).toUInt32) ⟨0, symbols, 0⟩)) := by
    refine loop_invariant (fun t e => Encoder.Holds (inputBits message nbits) (nbits + t) e) sent
      fun t _ e before => ?_
    refine before.push ?_
    rw [inputBits_late message (by omega)]
    rfl
  exact flushed.symbols p inside

/-- `encode` on bytes sends the bits of each byte, highest first. -/
theorem encode_bits (symbols data : Nat → UInt8) (nbytes : Nat) {p : Nat}
    (inside : p < 4 * (8 * nbytes + 6)) :
    encode symbols data nbytes 0 0 p =
      encodeBits symbols (fun i => bitAt (data (i / 8)) (7 - i % 8)) (8 * nbytes) p := by
  have bits : Message (8 * nbytes) fun i => bitAt (data (i / 8)) (7 - i % 8) :=
    fun i _ => bitAt_cases _ _ (by omega)
  rw [encode_codeword symbols data nbytes inside, encodeBits_codeword symbols bits inside]
  rfl

theorem pathMetric_congr (mettab : Nat → Nat → Int) (symbols : Nat → UInt8) {c c' : Nat → UInt8}
    {n : Nat} (same : ∀ p < n, c p = c' p) :
    pathMetric mettab symbols c n = pathMetric mettab symbols c' n := by
  induction n with
  | zero => rfl
  | succ n ih =>
    rw [pathMetric, pathMetric, ih fun p before => same p (by omega), same n (by omega)]

def Narrow (mettab : Nat → Nat → Int) : Prop :=
  ∀ b < 2, ∀ s < 256, ∀ b' < 2, ∀ s' < 256, 24 * (mettab b s - mettab b' s') < 999999

theorem Narrow.bounded {mettab : Nat → Nat → Int} (narrow : Narrow mettab) (symbols : Nat → UInt8) :
    ∃ lo hi, Bounded mettab symbols lo hi ∧ 24 * (hi - lo) < 999999 := by
  have entries : (Finset.range 2 ×ˢ Finset.range 256).Nonempty := ⟨(0, 0), by decide⟩
  obtain ⟨⟨b, s⟩, least, low⟩ := Finset.exists_min_image _ (fun e => mettab e.1 e.2) entries
  obtain ⟨⟨b', s'⟩, most, high⟩ := Finset.exists_max_image _ (fun e => mettab e.1 e.2) entries
  simp only [Finset.mem_product, Finset.mem_range, Prod.forall] at least most low high
  exact ⟨mettab b s, mettab b' s',
    fun c bit p _ => ⟨low c _ ⟨bit, (symbols p).toNat_lt⟩, high c _ ⟨bit, (symbols p).toNat_lt⟩⟩,
    narrow b' most.1 s' most.2 b least.1 s least.2⟩

def messageMetric (mettab : Nat → Nat → Int) (symbols message : Nat → UInt8) (nbits : Nat) : Int :=
  pathMetric mettab symbols (encodeBits (fun _ => 0) message nbits) (4 * (nbits + 6))

/-- The decoder returns a message of the largest metric, and that metric as an unsigned word. -/
theorem kViterbi_maximum {T : Target} (native : T.Native) {mettab : Nat → Nat → Int}
    (narrow : Narrow mettab) (nbits : Nat) (symbols data : Nat → UInt8) :
    ∃ r, kViterbi T data symbols nbits mettab 0 0 = some r ∧ Message nbits r.data ∧
      (∀ message, Message nbits message →
        messageMetric mettab symbols message nbits ≤ messageMetric mettab symbols r.data nbits) ∧
      (r.metric : Int) = messageMetric mettab symbols r.data nbits % 2 ^ 32 := by
  obtain ⟨lo, hi, bounded, close⟩ := narrow.bounded symbols
  obtain ⟨r, run, read, metric⟩ := kViterbi_decoded bounded close native nbits data
  have bits : Message nbits r.data := by
    intro i inside
    rw [read, if_pos inside]
    cases decoded mettab symbols nbits i
    · exact .inl rfl
    · exact .inr rfl
  have inputs : inputBits r.data nbits = decoded mettab symbols nbits := by
    funext i
    by_cases inside : i < nbits
    · rw [inputBits, decide_eq_true inside, Bool.true_and, read, if_pos inside]
      cases decoded mettab symbols nbits i <;> rfl
    · rw [inputBits_late _ (by omega), decoded_tail bounded close (by omega)]
  have metrics (message : Nat → UInt8) (valid : Message nbits message) :
      messageMetric mettab symbols message nbits =
        pathMetric mettab symbols (codeword (inputBits message nbits)) (4 * (nbits + 6)) :=
    pathMetric_congr _ _ fun p inside => encodeBits_codeword _ valid inside
  refine ⟨r, run, bits, fun message valid => ?_, ?_⟩
  · rw [metrics message valid, metrics r.data bits, inputs]
    exact decoded_best bounded close nbits fun t late => inputBits_late message late
  · rw [metrics r.data bits, inputs, metric]

theorem unitMettab_narrow : Narrow unitMettab := by
  intro b _ s _ b' _ s' _
  have high := (unitMettab_bounds b s).2
  have low := (unitMettab_bounds b' s').1
  omega

/-- The symbols sent for 0 1 0 1 0 1 0 1, with the first three of them erased. -/
def alternatingSymbols (p : Nat) : UInt8 :=
  if p < 3 then 128 else soft (encodeBits (fun _ => 0) (fun i => UInt8.ofNat (i % 2)) 8 p)

theorem kViterbi_maximum_alternating : ∃ r,
    kViterbi .x86_64 (fun _ => 0) alternatingSymbols 8 unitMettab 0 0 = some r ∧ Message 8 r.data ∧
    (∀ message, Message 8 message → messageMetric unitMettab alternatingSymbols message 8 ≤
      messageMetric unitMettab alternatingSymbols r.data 8) ∧
    (r.metric : Int) = messageMetric unitMettab alternatingSymbols r.data 8 % 2 ^ 32 :=
  kViterbi_maximum (T := .x86_64) rfl unitMettab_narrow 8 _ _

end OpenDab
