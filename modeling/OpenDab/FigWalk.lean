import OpenDab.FigProc

/-! The walk of `process_fic` as its calls of `unpickfig`, and what these write. The handlers
share the buffer of the decoded FIBs with the walk; one of them stores a NUL in it. -/
namespace OpenDab

open Buffers

def flen (mem : Nat → UInt8) (fig : Nat) : Nat := bitField (mem fig).toNat 0 5

structure FigCall where
  fig : Nat
  state : FigState

def FigCall.handle (stack : Nat → Subch) (c : FigCall) : Option FigState :=
  unpickfig (stack c.fig) c.fig (flen c.state.mem c.fig) c.state

def fibCalls (stack : Nat → Subch) (fib : Nat) : Nat → Nat → FigState → List FigCall
  | 0, _, _ => []
  | fuel + 1, j, s =>
    if j < 30 ∧ s.mem (fib + j) ≠ 0xff then
      ⟨fib + j, s⟩ :: (FigCall.handle stack ⟨fib + j, s⟩).elim []
        (fibCalls stack fib fuel (j + flen s.mem (fib + j) + 1))
    else []

def ficCalls (stack : Nat → Subch) : List Nat → FigState → List FigCall
  | [], _ => []
  | i :: fibs, s => fibCalls stack (30 * i) 30 0 s ++
      (fibLoop stack (30 * i) 30 0 s).elim [] (ficCalls stack fibs)

theorem fibLoop_succ (stack : Nat → Subch) (fib fuel j : Nat) (s : FigState) :
    fibLoop stack fib (fuel + 1) j s =
      if j < 30 ∧ s.mem (fib + j) ≠ 0xff then
        (FigCall.handle stack ⟨fib + j, s⟩).bind
          (fibLoop stack fib fuel (j + flen s.mem (fib + j) + 1))
      else some s := rfl

/-- Making the calls of a walk one after the other is the walk. -/
theorem fibCalls_run (stack : Nat → Subch) (fib fuel j : Nat) (s : FigState) :
    (fibCalls stack fib fuel j s).foldlM (fun t c => FigCall.handle stack ⟨c.fig, t⟩) s =
      fibLoop stack fib fuel j s := by
  induction fuel generalizing j s with
  | zero => rfl
  | succ fuel ih =>
    rw [fibCalls, fibLoop_succ]
    split
    · rw [List.foldlM_cons]
      cases FigCall.handle stack ⟨fib + j, s⟩ with
      | none => rfl
      | some t => exact ih _ t
    · rfl

theorem ficCalls_run (stack : Nat → Subch) (numbers : List Nat) (s : FigState) :
    (ficCalls stack numbers s).foldlM (fun t c => FigCall.handle stack ⟨c.fig, t⟩) s =
      numbers.foldlM (fun s i => fibLoop stack (30 * i) 30 0 s) s := by
  induction numbers generalizing s with
  | nil => rfl
  | cons i numbers ih =>
    rw [ficCalls, List.foldlM_append, fibCalls_run, List.foldlM_cons]
    cases fibLoop stack (30 * i) 30 0 s with
    | none => rfl
    | some t => exact ih t

theorem processFibs_calls (stack : Nat → Subch) (fibs : Nat) (s : FigState) :
    processFibs stack fibs s = (ficCalls stack (List.range fibs) s).foldlM
      (fun t c => FigCall.handle stack ⟨c.fig, t⟩) s :=
  (ficCalls_run stack (List.range fibs) s).symm

def IsDataLabel (mem : Nat → UInt8) (fig : Nat) : Prop :=
  bitField (mem fig).toNat 5 3 = 1 ∧ bitField (mem (fig + 1)).toNat 0 3 = 5

instance (mem : Nat → UInt8) (fig : Nat) : Decidable (IsDataLabel mem fig) :=
  inferInstanceAs (Decidable (_ ∧ _))

def FigCall.written (c : FigCall) : Nat → UInt8 :=
  if IsDataLabel c.state.mem c.fig then store c.state.mem (c.fig + 22) 0 else c.state.mem

theorem fig0_mem {stack : Subch} {figlen fig : Nat} {s s' : FigState}
    (handled : fig0 stack figlen fig s = some s') : s'.mem = s.mem := by
  simp only [fig0] at handled
  split at handled
  · cases handled
    rfl
  · obtain ⟨e, -, rfl⟩ := Option.map_eq_some_iff.mp handled
    rfl
  · cases handled
    rfl
  · cases handled
    rfl

theorem fig1_mem (fig : Nat) (s : FigState) : (fig1 fig s).mem =
    if bitField (s.mem fig).toNat 0 3 = 5 then store s.mem (fig + 21) 0 else s.mem := by
  simp only [fig1]
  split
  · next extension => rw [extension]; rfl
  · next extension => rw [extension]; rfl
  · next extension => rw [if_pos extension, fig15, Nat.add_assoc]
  · next other => rw [if_neg other]

/-- The only byte a handler writes is the NUL of a data service label. -/
theorem FigCall.handle_mem {stack : Nat → Subch} {c : FigCall} {s : FigState}
    (handled : c.handle stack = some s) : s.mem = c.written := by
  unfold FigCall.handle unpickfig at handled
  unfold FigCall.written
  split at handled
  · next type =>
    rw [fig0_mem handled, if_neg]
    intro kind
    have label := kind.1
    rw [type] at label
    exact absurd label (by decide)
  · next type =>
    cases handled
    rw [fig1_mem]
    by_cases extension : bitField (c.state.mem (c.fig + 1)).toNat 0 3 = 5
    · rw [if_pos extension, if_pos ⟨type, extension⟩]
    · rw [if_neg extension, if_neg fun kind => extension kind.2]
  · next labelled =>
    cases handled
    rw [if_neg fun kind => labelled kind.1]

theorem FigCall.handle_dataLabel (stack : Nat → Subch) {c : FigCall}
    (kind : IsDataLabel c.state.mem c.fig) : ∃ s, c.handle stack = some s := by
  unfold FigCall.handle unpickfig
  rw [kind.1]
  exact ⟨_, rfl⟩

/-- Address `x` is in the FIG: behind its header, within its length and within its FIB. -/
def Inside (mem : Nat → UInt8) (fig x : Nat) : Prop :=
  fig ≤ x ∧ x ≤ fig + flen mem fig ∧ x < 30 * (fig / 30) + 30

/-- A call that finds everything from its FIG on as received, and leaves alone what is outside
the FIG. -/
structure DataKept (stack : Nat → Subch) (fibs : Nat) (received : Nat → UInt8) (c : FigCall) :
    Prop where
  dispatched : ∀ x, c.fig ≤ x → x < 30 * fibs → c.state.mem x = received x
  outside : ∀ s, c.handle stack = some s → ∀ x < 30 * fibs, ¬ Inside c.state.mem c.fig x →
    s.mem x = c.state.mem x

/-- The NUL of a data service label falls into the label's own FIG, or where there is one
already. -/
def TerminatorInside (fibs : Nat) (c : FigCall) : Prop :=
  IsDataLabel c.state.mem c.fig → c.fig + 22 < 30 * fibs →
    Inside c.state.mem c.fig (c.fig + 22) ∨ c.state.mem (c.fig + 22) = 0

theorem outside_iff (stack : Nat → Subch) (fibs : Nat) (c : FigCall) :
    (∀ s, c.handle stack = some s → ∀ x < 30 * fibs, ¬ Inside c.state.mem c.fig x →
      s.mem x = c.state.mem x) ↔ TerminatorInside fibs c := by
  constructor
  · intro kept kind within
    obtain ⟨s, handled⟩ := FigCall.handle_dataLabel stack kind
    by_cases own : Inside c.state.mem c.fig (c.fig + 22)
    · exact .inl own
    · right
      rw [← kept s handled _ within own, FigCall.handle_mem handled, FigCall.written, if_pos kind,
        store_same]
  · intro terminator s handled x within apart
    rw [FigCall.handle_mem handled, FigCall.written]
    split
    · next kind =>
      by_cases here : x = c.fig + 22
      · rw [here] at within apart ⊢
        rw [store_same, (terminator kind within).resolve_left apart]
      · exact store_other _ _ here
    · rfl

def Untouched (fibs : Nat) (received : Nat → UInt8) (fib j : Nat) (s : FigState) : Prop :=
  ∀ x < 30 * fibs, fib + j ≤ x ∨ fib + 30 ≤ x → s.mem x = received x

section Walk

variable {stack : Nat → Subch} {fibs : Nat} {received : Nat → UInt8}

theorem Untouched.step {i j : Nat} {s s' : FigState} (before : Untouched fibs received (30 * i) j s)
    (inside : j < 30) (terminator : TerminatorInside fibs ⟨30 * i + j, s⟩)
    (handled : FigCall.handle stack ⟨30 * i + j, s⟩ = some s') :
    Untouched fibs received (30 * i) (j + flen s.mem (30 * i + j) + 1) s' := by
  intro x within later
  have apart : ¬ Inside s.mem (30 * i + j) x := by
    unfold Inside
    omega
  rw [(outside_iff stack fibs _).mpr terminator s' handled x within apart]
  exact before x within (by omega)

theorem Untouched.dispatched {i j : Nat} {s : FigState}
    (before : Untouched fibs received (30 * i) j s) (terminator : TerminatorInside fibs ⟨30 * i + j, s⟩) :
    DataKept stack fibs received ⟨30 * i + j, s⟩ where
  dispatched x after within := before x within (.inl after)
  outside := (outside_iff stack fibs _).mpr terminator

theorem Untouched.fib {i j fuel : Nat} {s : FigState} (before : Untouched fibs received (30 * i) j s)
    (terminators : ∀ c ∈ fibCalls stack (30 * i) fuel j s, TerminatorInside fibs c) :
    (∀ c ∈ fibCalls stack (30 * i) fuel j s, DataKept stack fibs received c) ∧
      ∀ s', fibLoop stack (30 * i) fuel j s = some s' → Untouched fibs received (30 * i) 30 s' := by
  induction fuel generalizing j s with
  | zero =>
    refine ⟨by simp [fibCalls], ?_⟩
    rintro s' walked
    cases walked
    exact fun x within later => before x within (by omega)
  | succ fuel ih =>
    rw [fibCalls] at terminators ⊢
    rw [fibLoop_succ]
    split
    · next more =>
      rw [if_pos more] at terminators
      have here := terminators _ List.mem_cons_self
      refine ⟨fun c member => ?_, fun s' walked => ?_⟩
      · rcases List.mem_cons.mp member with rfl | later
        · exact before.dispatched here
        · cases handled : FigCall.handle stack ⟨30 * i + j, s⟩ with
          | none =>
            rw [handled] at later
            cases later
          | some t =>
            rw [handled] at terminators later
            exact (ih (before.step more.1 here handled)
              fun d inner => terminators d (List.mem_cons_of_mem _ inner)).1 c later
      · obtain ⟨t, handled, rest⟩ := Option.bind_eq_some_iff.mp walked
        rw [handled] at terminators
        exact (ih (before.step more.1 here handled)
          fun d inner => terminators d (List.mem_cons_of_mem _ inner)).2 s' rest
    · refine ⟨by simp, ?_⟩
      rintro s' walked
      cases walked
      exact fun x within later => before x within (by omega)

theorem Untouched.fic {i n : Nat} {s : FigState} (before : Untouched fibs received (30 * i) 0 s)
    (terminators : ∀ c ∈ ficCalls stack (List.range' i n) s, TerminatorInside fibs c) :
    ∀ c ∈ ficCalls stack (List.range' i n) s, DataKept stack fibs received c := by
  induction n generalizing i s with
  | zero => simp [ficCalls]
  | succ n ih =>
    rw [List.range'_succ, ficCalls] at terminators ⊢
    obtain ⟨first, rest⟩ := List.forall_mem_append.mp terminators
    obtain ⟨kept, next⟩ := before.fib first
    refine List.forall_mem_append.mpr ⟨kept, ?_⟩
    cases walked : fibLoop stack (30 * i) 30 0 s with
    | none => simp
    | some t =>
      rw [walked] at rest
      exact ih (fun x within later => next t walked x within (by omega)) rest

end Walk

/-- Every call finds what was received and leaves alone what is outside its FIG, exactly when the
NUL of every data service label that is handled falls into its FIG or onto a zero. -/
theorem fib_data_kept_iff (stack : Nat → Subch) (fibs : Nat) (e : EnsInfo) (received : Nat → UInt8) :
    (∀ c ∈ ficCalls stack (List.range fibs) ⟨e, received⟩, DataKept stack fibs received c) ↔
      ∀ c ∈ ficCalls stack (List.range fibs) ⟨e, received⟩, TerminatorInside fibs c := by
  constructor
  · intro kept c member
    exact (outside_iff stack fibs c).mp (kept c member).outside
  · intro terminators
    rw [List.range_eq_range'] at terminators ⊢
    exact Untouched.fic (fun x _ _ => rfl) terminators

/-- A data service label of one byte, a FIG of type 2 and 20 bytes, and FIG 0/2 at offset 22. -/
def shortLabelFib : Nat → UInt8 :=
  ofList ([0x21, 0x05, 0x53] ++ List.replicate 19 0 ++ [0x06, 0x02, 0xc2, 0x21, 0x01, 0x00, 0x0e, 0xff])
    fun _ => 0xff

/-- The short label overwrites the header of the FIG at offset 22. -/
theorem short_label_overwrites : ¬ ∀ c ∈ ficCalls (fun _ => ⟨0, 0, 0, 0, 0, 0, 0, 0⟩) (List.range 1)
    ⟨einf, shortLabelFib⟩, DataKept (fun _ => ⟨0, 0, 0, 0, 0, 0, 0, 0⟩) 1 shortLabelFib c := by
  intro kept
  have first := kept ⟨0, einf, shortLabelFib⟩ List.mem_cons_self
  have header : (0 : UInt8) = 0x06 := first.outside _ rfl 22 (by decide) fun own => absurd own.2.1 (by decide)
  exact absurd header (by decide)

end OpenDab
