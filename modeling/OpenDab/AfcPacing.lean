import OpenDab.Afc

/-! When `wf_afc` sends a message. The time of every call is kept, whether it sends or not, so a
call is measured against the call before it and not against the last message. What an undefined
conversion gives is left open: it does not matter for the pacing. -/
namespace OpenDab

/-- One call, where `convert` is `(int)`. -/
def wfAfcWith (convert : ℚ → Int) (st : AfcState) (c : AfcCall) : AfcState × Option (BitVec 16) :=
  if st.Due c then
    let a := afcOffset st.offset c.afcv
    (⟨a, c.cmsec⟩, some (afcVal (convert (a * 65535))))
  else ({ st with lmsec := c.cmsec }, none)

/-- Where the conversions are defined the two are the same. -/
theorem wfAfc_with {convert : ℚ → Int} (converts : ∀ q i, toInt q = some i → convert q = i)
    {st : AfcState} {c : AfcCall} {r : AfcState × Option (BitVec 16)} (defined : wfAfc st c = some r) :
    wfAfcWith convert st c = r := by
  unfold wfAfc at defined
  unfold wfAfcWith
  by_cases due : st.Due c
  · rw [if_pos due] at defined ⊢
    obtain ⟨i, value, same⟩ := Option.bind_eq_some_iff.mp defined
    dsimp only at same ⊢
    rw [converts _ i value]
    exact Option.some.inj same
  · rw [if_neg due] at defined ⊢
    exact Option.some.inj defined

structure AfcPacer where
  st : AfcState
  lastSent : Option Int

section Pacing

variable (convert : ℚ → Int)

def AfcPacer.step (r : AfcPacer) (c : AfcCall) : AfcPacer :=
  let call := wfAfcWith convert r.st c
  ⟨call.1, if call.2.isSome then some c.cmsec else r.lastSent⟩

def afcPacer (calls : List AfcCall) : AfcPacer :=
  calls.foldl (AfcPacer.step convert) ⟨AfcState.initial, none⟩

def Sends (earlier : List AfcCall) (c : AfcCall) : Prop :=
  (wfAfcWith convert (afcPacer convert earlier).st c).2.isSome = true

/-- Milliseconds since the call before, or since the origin of the clock. -/
def sinceCall (earlier : List AfcCall) (c : AfcCall) : Int :=
  c.cmsec - (earlier.getLast?.map AfcCall.cmsec).getD 0

/-- A large error that is reported more than 250 ms after the call before it. -/
def Isolated (earlier : List AfcCall) (c : AfcCall) : Prop :=
  75 < |c.afcv| ∧ 250 < sinceCall earlier c

theorem afcPacer_push (calls : List AfcCall) (c : AfcCall) :
    afcPacer convert (calls ++ [c]) = (afcPacer convert calls).step convert c := by
  simp [afcPacer]

@[simp] theorem wfAfcWith_lmsec (st : AfcState) (c : AfcCall) :
    (wfAfcWith convert st c).1.lmsec = c.cmsec := by
  unfold wfAfcWith
  split <;> rfl

theorem afcPacer_lmsec (calls : List AfcCall) :
    (afcPacer convert calls).st.lmsec = (calls.getLast?.map AfcCall.cmsec).getD 0 := by
  induction calls using List.reverseRecOn with
  | nil => rfl
  | append_singleton calls c _ =>
    rw [afcPacer_push]
    simp [AfcPacer.step]

/-- A call sends when its error is large and it is isolated from the call before. -/
theorem sends_iff (earlier : List AfcCall) (c : AfcCall) : Sends convert earlier c ↔ Isolated earlier c := by
  have due : (afcPacer convert earlier).st.Due c ↔ Isolated earlier c := by
    rw [AfcState.Due, Isolated, sinceCall, afcPacer_lmsec, lt_abs, lt_neg, and_comm]
  rw [← due, Sends, wfAfcWith]
  split <;> simp_all

theorem lastSent_push (earlier : List AfcCall) (c : AfcCall) :
    (Isolated earlier c ∧ (afcPacer convert (earlier ++ [c])).lastSent = some c.cmsec) ∨
      (¬Isolated earlier c ∧
        (afcPacer convert (earlier ++ [c])).lastSent = (afcPacer convert earlier).lastSent) := by
  rw [← sends_iff convert, afcPacer_push, AfcPacer.step, Sends]
  by_cases sent : (wfAfcWith convert (afcPacer convert earlier).st c).2.isSome = true
  · exact .inl ⟨sent, if_pos sent⟩
  · exact .inr ⟨sent, if_neg sent⟩

/-- A time that is kept is the time of an earlier call that sent. -/
theorem lastSent_isolated {earlier : List AfcCall} {t : Int}
    (last : (afcPacer convert earlier).lastSent = some t) :
    ∃ before s, before ++ [s] <+: earlier ∧ Isolated before s ∧ s.cmsec = t := by
  induction earlier using List.reverseRecOn with
  | nil => cases last
  | append_singleton earlier c ih =>
    rcases lastSent_push convert earlier c with ⟨isolated, sent⟩ | ⟨-, kept⟩
    · exact ⟨earlier, c, List.prefix_rfl, isolated, Option.some.inj (sent.symm.trans last)⟩
    · obtain ⟨before, s, inside, isolated, time⟩ := ih (kept.symm.trans last)
      exact ⟨before, s, inside.trans (List.prefix_append _ _), isolated, time⟩

/-- The time that is kept is not earlier than that of any call that sent. -/
theorem isolated_lastSent {earlier before : List AfcCall} {s : AfcCall}
    (order : earlier.Pairwise fun a b => a.cmsec ≤ b.cmsec) (inside : before ++ [s] <+: earlier)
    (isolated : Isolated before s) : ∃ t, (afcPacer convert earlier).lastSent = some t ∧ s.cmsec ≤ t := by
  induction earlier using List.reverseRecOn with
  | nil => simp at inside
  | append_singleton earlier c ih =>
    obtain ⟨ordered, -, last⟩ := List.pairwise_append.mp order
    rcases Steps.inside_push inside with ⟨rfl, rfl⟩ | shorter
    · rcases lastSent_push convert before s with ⟨-, sent⟩ | ⟨near, -⟩
      · exact ⟨_, sent, le_refl _⟩
      · exact absurd isolated near
    · rcases lastSent_push convert earlier c with ⟨-, sent⟩ | ⟨-, kept⟩
      · exact ⟨_, sent, last s (Steps.mem_of_inside shorter) c (List.mem_singleton_self c)⟩
      · rw [kept]
        exact ih ordered shorter

theorem lastSent_le {earlier : List AfcCall} {c : AfcCall}
    (order : (earlier ++ [c]).Pairwise fun a b => a.cmsec ≤ b.cmsec) {t : Int}
    (last : (afcPacer convert earlier).lastSent = some t) :
    t ≤ (earlier.getLast?.map AfcCall.cmsec).getD 0 ∧ t ≤ c.cmsec := by
  obtain ⟨before, s, inside, -, rfl⟩ := lastSent_isolated convert last
  obtain ⟨ordered, -, latest⟩ := List.pairwise_append.mp order
  have member := Steps.mem_of_inside inside
  refine ⟨?_, latest s member c (List.mem_singleton_self c)⟩
  rcases List.eq_nil_or_concat earlier with rfl | ⟨front, l, rfl⟩
  · cases member
  · rw [List.concat_eq_append] at member ordered ⊢
    rw [List.getLast?_concat, Option.map_some, Option.getD_some]
    rcases List.mem_append.mp member with old | newest
    · exact (List.pairwise_append.mp ordered).2.2 s old l (List.mem_singleton_self l)
    · rw [List.mem_singleton.mp newest]

def PacingLaw (calls : List AfcCall) : Prop :=
  ∀ earlier c, earlier ++ [c] <+: calls → (Sends convert earlier c ↔
    75 < |c.afcv| ∧ ∀ t, (afcPacer convert earlier).lastSent = some t → 250 < c.cmsec - t)

structure Persistent (frames : List AfcCall) : Prop where
  large : ∀ f ∈ frames, 75 < |f.afcv|
  regular : frames.IsChain fun a b => b.cmsec - a.cmsec ≤ 100

/-- Where such an error lasts for more than 350 ms, a message is sent in the first 350 ms. -/
def Corrects (calls : List AfcCall) : Prop :=
  ∀ earlier c frames, earlier ++ c :: frames <+: calls → Persistent (c :: frames) →
    (∃ f ∈ c :: frames, 350 < f.cmsec - c.cmsec) →
    ∃ before s, before ++ [s] <+: c :: frames ∧ Sends convert (earlier ++ before) s ∧
      s.cmsec - c.cmsec ≤ 350

/-- The law for one stretch of frames: `start` is not before the last message. -/
theorem law_corrects_from {calls earlier frames : List AfcCall} {c : AfcCall} {start : Int}
    (law : PacingLaw convert calls) (inside : earlier ++ c :: frames <+: calls)
    (persistent : Persistent (c :: frames))
    (before : ∀ t, (afcPacer convert earlier).lastSent = some t → t ≤ start)
    (early : c.cmsec - start ≤ 350) (long : ∃ f ∈ c :: frames, 350 < f.cmsec - start) :
    ∃ before s, before ++ [s] <+: c :: frames ∧ Sends convert (earlier ++ before) s ∧
      s.cmsec - start ≤ 350 := by
  induction frames generalizing earlier c with
  | nil =>
    obtain ⟨f, member, late⟩ := long
    rw [List.mem_singleton.mp member] at late
    omega
  | cons next frames ih =>
    have split := List.append_cons earlier c (next :: frames)
    by_cases sent : Sends convert earlier c
    · refine ⟨[], c, ?_, ?_, early⟩
      · exact List.prefix_append [c] (next :: frames)
      · rwa [List.append_nil]
    · have here := Steps.inside_first inside
      have silent : ¬∀ t, (afcPacer convert earlier).lastSent = some t → 250 < c.cmsec - t :=
        fun quiet => sent ((law earlier c here).mpr ⟨persistent.large c (by simp), quiet⟩)
      push Not at silent
      obtain ⟨t, last, near⟩ := silent
      have recent := before t last
      obtain ⟨step, rest⟩ := List.isChain_cons_cons.mp persistent.regular
      have kept : (afcPacer convert (earlier ++ [c])).lastSent = (afcPacer convert earlier).lastSent := by
        rcases lastSent_push convert earlier c with ⟨isolated, -⟩ | ⟨-, kept⟩
        · exact absurd ((sends_iff convert earlier c).mpr isolated) sent
        · exact kept
      have later : ∃ f ∈ next :: frames, 350 < f.cmsec - start := by
        obtain ⟨f, member, late⟩ := long
        rcases List.mem_cons.mp member with rfl | member
        · omega
        · exact ⟨f, member, late⟩
      obtain ⟨others, s, found, sends, soon⟩ := ih (split ▸ inside)
        ⟨fun f member => persistent.large f (List.mem_cons_of_mem c member), rest⟩ (by rwa [kept])
        (by omega) later
      refine ⟨c :: others, s, (List.prefix_cons_inj c).mpr found, ?_, soon⟩
      rwa [List.append_assoc] at sends

structure AfcPaced (calls : List AfcCall) : Prop where
  law : PacingLaw convert calls
  corrects : Corrects convert calls

/-- A large error reported within 250 ms of the call before it comes within 250 ms of an earlier one
that was isolated. -/
def GapsFit (calls : List AfcCall) : Prop :=
  ∀ earlier c, earlier ++ [c] <+: calls → 75 < |c.afcv| → sinceCall earlier c ≤ 250 →
    ∃ before s, before ++ [s] <+: earlier ∧ Isolated before s ∧ c.cmsec - s.cmsec ≤ 250

theorem law_corrects {calls : List AfcCall} (order : calls.Pairwise fun a b => a.cmsec ≤ b.cmsec)
    (law : PacingLaw convert calls) : Corrects convert calls := by
  intro earlier c frames inside persistent long
  have here := Steps.inside_first inside
  refine law_corrects_from convert law inside persistent (fun t last => ?_) (by omega) long
  exact (lastSent_le convert (order.sublist here.sublist) last).2

structure Orderly (calls : List AfcCall) : Prop where
  clock : ∀ c ∈ calls, 0 ≤ c.tvSec ∧ 0 ≤ c.tvNsec ∧ c.tvNsec < 1000000000
  window : ∃ k, ∀ c ∈ calls, c.tvSec / 1000000 = k
  order : calls.Pairwise fun a b => a.tvSec < b.tvSec ∨ a.tvSec = b.tvSec ∧ a.tvNsec ≤ b.tvNsec

omit convert in
theorem Orderly.cmsec {calls : List AfcCall} (orderly : Orderly calls) :
    calls.Pairwise fun a b => a.cmsec ≤ b.cmsec := by
  obtain ⟨clock, ⟨k, window⟩, order⟩ := orderly
  refine order.imp_of_mem fun {a b} first second le => ?_
  obtain ⟨sec, nsec, small⟩ := clock a first
  obtain ⟨sec', nsec', small'⟩ := clock b second
  have same := window a first
  have same' := window b second
  unfold AfcCall.cmsec
  rw [Int.tmod_eq_emod_of_nonneg sec, Int.tmod_eq_emod_of_nonneg sec',
    Int.tdiv_eq_ediv_of_nonneg nsec, Int.tdiv_eq_ediv_of_nonneg nsec']
  omega

/-- Messages are paced by the last message exactly when no large error is measured against a call
that sent nothing. -/
theorem afc_paced_iff {calls : List AfcCall} (orderly : Orderly calls) :
    AfcPaced convert calls ↔ GapsFit calls := by
  have order := orderly.cmsec
  have paced : AfcPaced convert calls ↔ PacingLaw convert calls :=
    ⟨AfcPaced.law, fun law => ⟨law, law_corrects convert order law⟩⟩
  rw [paced]
  refine forall₃_congr fun earlier c inside => ?_
  have ordered := order.sublist inside.sublist
  rw [sends_iff]
  constructor
  · intro law large near
    by_contra alone
    push Not at alone
    have isolated := law.mpr ⟨large, fun t last => by
      obtain ⟨before, s, found, isolated, rfl⟩ := lastSent_isolated convert last
      exact alone before s found isolated⟩
    exact absurd near (by simpa using isolated.2)
  · intro fits
    constructor
    · rintro ⟨large, far⟩
      refine ⟨large, fun t last => ?_⟩
      have recent := (lastSent_le convert ordered last).1
      unfold sinceCall at far
      omega
    · rintro ⟨large, quiet⟩
      refine ⟨large, ?_⟩
      by_contra near
      obtain ⟨before, s, found, isolated, soon⟩ := fits large (by omega)
      obtain ⟨t, last, late⟩ := isolated_lastSent convert (List.pairwise_append.mp ordered).1 found isolated
      have far := quiet t last
      omega

/-- Calls that come within 250 ms of one another send nothing, whatever they report. -/
theorem crowded_silent {calls later : List AfcCall}
    (crowded : ∀ earlier c, earlier ++ [c] <+: later → sinceCall (calls ++ earlier) c ≤ 250) :
    (afcPacer convert (calls ++ later)).lastSent = (afcPacer convert calls).lastSent := by
  refine Steps.invariant (fun later => (afcPacer convert (calls ++ later)).lastSent =
    (afcPacer convert calls).lastSent) ?_ (fun earlier c same near => ?_) crowded
  · rw [List.append_nil]
  · rw [← List.append_assoc]
    rcases lastSent_push convert (calls ++ earlier) c with ⟨isolated, -⟩ | ⟨-, kept⟩
    · exact absurd near (by simpa using isolated.2)
    · rw [kept, same]

end Pacing

def reportAt (msec : Int) : AfcCall := ⟨1, msec * 1000000, 100⟩

theorem reportAt_large (msec : Int) : 75 < |(reportAt msec).afcv| := by
  norm_num [reportAt]

theorem afc_paced_iff_twice : AfcPaced trunc [reportAt 0, reportAt 300] := by
  have orderly : Orderly [reportAt 0, reportAt 300] :=
    ⟨by decide, ⟨0, by decide⟩, by decide⟩
  refine (afc_paced_iff trunc orderly).mpr ?_
  have calls : [reportAt 0, reportAt 300] = [] ++ [reportAt 0] ++ [reportAt 300] := rfl
  rw [GapsFit, calls, Steps.forall_push, Steps.forall_push]
  exact ⟨⟨Steps.forall_nil, fun _ near => absurd near (by decide)⟩,
    fun _ near => absurd near (by decide)⟩

/-- A large error in every frame of 96 ms: the fourth one should be answered, and is not. -/
theorem frames_not_corrected :
    Orderly [reportAt 0, reportAt 96, reportAt 192, reportAt 288] ∧
      ¬AfcPaced trunc [reportAt 0, reportAt 96, reportAt 192, reportAt 288] := by
  refine ⟨⟨by decide, ⟨0, by decide⟩, by decide⟩, fun paced => ?_⟩
  have crowded : ∀ earlier c, earlier ++ [c] <+: [] ++ [reportAt 96] ++ [reportAt 192] →
      sinceCall ([reportAt 0] ++ earlier) c ≤ 250 := by
    rw [Steps.forall_push, Steps.forall_push]
    exact ⟨⟨Steps.forall_nil, by decide⟩, by decide⟩
  have silent := crowded_silent trunc crowded
  have first : (afcPacer trunc [reportAt 0]).lastSent = some 1000 := by
    rcases lastSent_push trunc [] (reportAt 0) with ⟨-, sent⟩ | ⟨near, -⟩
    · exact sent
    · exact absurd ⟨reportAt_large 0, by decide⟩ near
  have last := (paced.law [reportAt 0, reportAt 96, reportAt 192] (reportAt 288)
    List.prefix_rfl).mpr ⟨reportAt_large 288, fun t sent => by
      obtain rfl : 1000 = t := Option.some.inj ((silent.trans first).symm.trans sent)
      decide⟩
  exact absurd ((sends_iff trunc _ _).mp last).2 (by decide)

end OpenDab
