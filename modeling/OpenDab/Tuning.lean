import OpenDab.MainLoop
import OpenDab.Sync

/-! The choice of a sub-channel in the packet loop: what a round does before the tuning, at it, and
after it. -/
namespace OpenDab

open Buffers Roster

/-- What one round of the loop meets: the packet, the readings of the clock if `wf_sync` is called, the
number that is read if the user is asked, and what an uninitialised local holds at each FIG. -/
structure Packet where
  rdbuf : Nat → UInt8
  tp : Timespec
  tpAfc : Timespec
  number : Int
  stack : Nat → Subch

def Packet.isPrs (p : Packet) : Bool := p.rdbuf 9 == 2

def Packet.round (p : Packet) (syncLocked : Bool) : Round := ⟨p.rdbuf, syncLocked, p.number, p.stack⟩

/-- The sub-channel and the symbols that `main` has tuned to, and the PRS packets since. -/
structure Tuning where
  c : Nat
  sub : Subch
  sr : Symrange
  prs : Nat

def Receiver.newTuning (before after : Receiver) : Option Tuning :=
  if before.selected = false ∧ after.selected = true then
    after.sel.sch.map fun c => ⟨c, after.einf.schan c, after.sel.sr, 0⟩
  else none

/-! What the rounds do to the choice of a sub-channel. -/

def Tuning.packet (p : Packet) (t : Tuning) : Tuning := if p.isPrs then { t with prs := t.prs + 1 } else t

theorem Tuning.packet_fields (p : Packet) (t : Tuning) :
    (t.packet p).c = t.c ∧ (t.packet p).sub = t.sub ∧ (t.packet p).sr = t.sr := by
  unfold Tuning.packet
  split <;> exact ⟨rfl, rfl, rfl⟩

structure Receiver.Untuned (m : Receiver) : Prop where
  selected : m.selected = false
  synccnt : m.synccnt = 0
  chosen : ∀ c, m.sel.sch = some c → c < 64 ∧ m.Stopped

/-- Nothing has described the sub-channel that was chosen, and nothing will. -/
def Receiver.Barred (m : Receiver) : Prop :=
  m.Stopped ∧ ∃ c, m.sel.sch = some c ∧ 64 ≤ (m.einf.schan c).subchid

structure Receiver.TunedTo (t : Tuning) (m : Receiver) : Prop where
  selected : m.selected = true
  synccnt : m.synccnt = 6 - t.prs
  sch : m.sel.sch = some t.c
  sr : m.sel.sr = t.sr
  sub : m.einf.schan t.c = t.sub
  stopped : m.Stopped
  small : t.c < 64
  described : t.sub.subchid < 64
  range : ∃ r, t.sr = startsym r t.sub

section Rounds

variable (ficDecode : (Nat → UInt8) → (Nat → UInt8) → Nat × (Nat → UInt8))

/-- Everything that one round can do. -/
theorem wfRound_cases {p : Round} {m m' : Receiver} {call : Option (Nat × Symrange)}
    (done : wfRound ficDecode p m = some (m', call)) :
    (p.syncLocked = false ∧ m' = m.resync p ∧ call = none) ∨
      (¬m.Stopped ∧ call = none ∧ (Sane m.einf → Sane m'.einf) ∧ m'.selected = m.selected ∧
        m'.synccnt = (m.resync p).synccnt ∧ m'.sel = m.sel ∧ m'.msc = m.msc) ∨
      (m.Stopped ∧ m.sel.sch = none ∧ call = none ∧
        m' = { m.resync p with
          enslistvisible := true
          rq := (userSelectService m.einf m.rq p.number m.sel).rq
          sel := (userSelectService m.einf m.rq p.number m.sel).sel }) ∨
      (p.syncLocked = true ∧ m.Stopped ∧ ∃ c, m.sel.sch = some c ∧ ∃ m₂,
        m₂ = ({ m.resync p with enslistvisible := true } : Receiver).tune c ∧
        (m₂.synccnt = 0 ∧ p.rdbuf 2 > 4 ∧ call = some (c, m₂.sel.sr) ∧
            m' = { m₂ with msc := (mscAssemble p.rdbuf m₂.sel.sr m₂.msc).1 } ∨
          ¬(m₂.synccnt = 0 ∧ p.rdbuf 2 > 4) ∧ call = none ∧ m' = m₂)) := by
  obtain ⟨n, counted⟩ := resync_synccnt p m
  simp only [wfRound, counted] at done
  rw [counted]
  by_cases locked : p.syncLocked = true
  · rw [if_pos locked] at done
    by_cases reading : m.fibcnt < maxfibs ∧ labelled m.einf = false
    · rw [if_pos reading] at done
      refine .inr (.inl ⟨fun stopped => stopped reading, ?_⟩)
      split at done
      · obtain ⟨m₂, handled, same⟩ := Option.map_eq_some_iff.mp done
        cases same
        split at handled
        · obtain ⟨s, fibs, rfl⟩ := Option.map_eq_some_iff.mp handled
          exact ⟨rfl, fun sane => sane.processFibs fibs, rfl, rfl, rfl, rfl⟩
        · cases handled
          exact ⟨rfl, id, rfl, rfl, rfl, rfl⟩
      · cases done
        exact ⟨rfl, id, rfl, rfl, rfl, rfl⟩
    · rw [if_neg reading] at done
      split at done
      · next unselected =>
        cases done
        exact .inr (.inr (.inl ⟨reading, unselected, rfl, rfl⟩))
      · next c chosen =>
        refine .inr (.inr (.inr ⟨locked, reading, c, chosen, _, rfl, ?_⟩))
        split at done
        · next due =>
          cases done
          exact .inl ⟨due.1, due.2, rfl, rfl⟩
        · next early =>
          cases done
          exact .inr ⟨early, rfl, rfl⟩
  · rw [if_neg locked] at done
    cases done
    exact .inl ⟨Bool.eq_false_of_not_eq_true locked, rfl, rfl⟩

theorem resync_idle {m : Receiver} (idle : m.synccnt = 0) (p : Round) : m.resync p = m := by
  rw [Receiver.resync, if_neg]
  rintro ⟨-, positive⟩
  omega

/-- A round before the tuning: nothing changes for the sub-channel, or the receiver is tuned to the one
that was chosen, or it is barred and remains so. -/
theorem Receiver.Untuned.round {m m' : Receiver} (untuned : m.Untuned) (sane : Sane m.einf) {p : Round}
    {call : Option (Nat × Symrange)} (done : wfRound ficDecode p m = some (m', call)) :
    Sane m'.einf ∧
      (m'.Untuned ∧ call = none ∧ m'.msc = m.msc ∧ m.newTuning m' = none ∧ (m.Barred → m'.Barred) ∨
        (∃ t, m.newTuning m' = some t ∧ t.prs = 0 ∧ m'.TunedTo t ∧ call = none ∧ m'.msc = m.msc ∧
          ¬m.Barred) ∨
        m.Barred ∧ m'.Barred ∧ m'.Untuned ∧ m.newTuning m' = none) := by
  obtain ⟨selected, synccnt, chosen⟩ := untuned
  have idle := resync_idle synccnt p
  have silent {m' : Receiver} (same : m'.selected = false) : m.newTuning m' = none := by
    rw [Receiver.newTuning, if_neg]
    rintro ⟨-, now⟩
    rw [same] at now
    cases now
  rcases wfRound_cases ficDecode done with ⟨-, rfl, rfl⟩ | ⟨reading, rfl, kept, still, count, sel, msc⟩ |
      ⟨stopped, free, rfl, rfl⟩ | ⟨-, stopped, c, sch, m₂, tuned, result⟩
  · rw [idle]
    exact ⟨sane, .inl ⟨⟨selected, synccnt, chosen⟩, rfl, rfl, silent selected, id⟩⟩
  · rw [idle] at count
    rw [selected] at still
    refine ⟨kept sane, .inl ⟨⟨still, count.trans synccnt, fun c sch => ?_⟩, rfl, msc, silent still,
      fun barred => absurd barred.1 reading⟩⟩
    exact absurd (chosen c (sel ▸ sch)).2 reading
  · rw [idle]
    refine ⟨sane, .inl ⟨⟨selected, synccnt, fun c sch => ⟨?_, stopped⟩⟩, rfl, rfl, silent selected, ?_⟩⟩
    rotate_left
    · rintro ⟨-, c, sch, -⟩
      rw [free] at sch
      cases sch
    obtain ⟨k, -, -, entry, found, present⟩ := userSelectService_sch _ _ _ _ free sch
    obtain ⟨q, listed, component⟩ := mem_pointers (List.mem_of_getElem? found) present
    exact sane.pointed q listed c component
  · have small := (chosen c sch).1
    rw [idle] at tuned
    by_cases described : (m.einf.schan c).subchid < 64
    · rw [Receiver.tune, if_pos ⟨selected, described⟩] at tuned
      subst tuned
      rcases result with ⟨due, -⟩ | ⟨-, rfl, rfl⟩
      · cases due
      · refine ⟨sane, .inr (.inl ⟨⟨c, m.einf.schan c, startsym m.sel.sr (m.einf.schan c), 0⟩, ?_, rfl, ?_,
          rfl, rfl, ?_⟩)⟩
        · rw [Receiver.newTuning, if_pos ⟨selected, rfl⟩]
          dsimp only
          rw [sch]
          rfl
        · exact ⟨rfl, rfl, sch, rfl, rfl, stopped, small, described, _, rfl⟩
        · rintro ⟨-, c', sch', undescribed⟩
          obtain rfl : c = c' := Option.some.inj (sch.symm.trans sch')
          omega
    · rw [Receiver.tune, if_neg (fun both => described both.2)] at tuned
      subst tuned
      have barred : m.Barred := ⟨stopped, c, sch, Nat.le_of_not_lt described⟩
      rcases result with ⟨-, -, rfl, rfl⟩ | ⟨-, rfl, rfl⟩
      · exact ⟨sane, .inr (.inr ⟨barred, barred, ⟨selected, synccnt, chosen⟩, silent selected⟩)⟩
      · exact ⟨sane, .inr (.inr ⟨barred, barred, ⟨selected, synccnt, chosen⟩, silent selected⟩)⟩

/-- A round after the tuning: six PRS packets are waited for, then every symbol of the MSC that is
received in step is passed on. -/
theorem Receiver.TunedTo.round {t : Tuning} {m m' : Receiver} (tuned : m.TunedTo t)
    (sane : Sane m.einf) {p : Packet} {syncLocked : Bool} {call : Option (Nat × Symrange)}
    (done : wfRound ficDecode (p.round syncLocked) m = some (m', call)) :
    Sane m'.einf ∧ m'.TunedTo (t.packet p) ∧
      call = (if syncLocked = true ∧ 6 ≤ (t.packet p).prs ∧ p.rdbuf 2 > 4 then some (t.c, t.sr) else none) ∧
      m'.msc = (if call.isSome then (mscAssemble p.rdbuf t.sr m.msc).1 else m.msc) := by
  obtain ⟨selected, synccnt, sch, sr, sub, stopped, small, described, range⟩ := tuned
  have waited : m.resync (p.round syncLocked) = { m with synccnt := 6 - (t.packet p).prs } := by
    rw [Receiver.resync, Tuning.packet, Packet.isPrs]
    by_cases prs : p.rdbuf 9 = 2
    · rw [if_pos (beq_iff_eq.mpr prs)]
      by_cases waits : m.synccnt > 0
      · have count : m.synccnt - 1 = 6 - (t.prs + 1) := by omega
        rw [if_pos ⟨prs, waits⟩, count]
      · have count : m.synccnt = 6 - (t.prs + 1) := by omega
        rw [if_neg (fun both => waits both.2), ← count]
    · rw [if_neg (fun both => prs both.1), if_neg (mt beq_iff_eq.mp prs), ← synccnt]
  obtain ⟨c, description, symbols⟩ := t.packet_fields p
  have stays (msc : MscState) (visible : Bool) : ({ m with
      synccnt := 6 - (t.packet p).prs, enslistvisible := visible, msc := msc } : Receiver).TunedTo
        (t.packet p) :=
    ⟨selected, rfl, c ▸ sch, symbols ▸ sr, by rw [c, description]; exact sub, stopped, c ▸ small,
      description ▸ described, by rw [symbols, description]; exact range⟩
  rcases wfRound_cases ficDecode done with ⟨out, rfl, rfl⟩ | ⟨reading, -⟩ | ⟨-, free, -⟩ |
      ⟨locked, -, c', chosen, m₂, still, result⟩
  · have unlocked : ¬(syncLocked = true ∧ 6 ≤ (t.packet p).prs ∧ p.rdbuf 2 > 4) := by
      rintro ⟨locked, -⟩
      exact absurd (locked.symm.trans out) (by decide)
    rw [waited, if_neg unlocked]
    exact ⟨sane, stays _ _, rfl, rfl⟩
  · exact absurd stopped reading
  · rw [sch] at free
    cases free
  · obtain rfl : t.c = c' := Option.some.inj (sch.symm.trans chosen)
    rw [waited, Receiver.tune, if_neg (fun both => by rw [selected] at both; cases both.1)] at still
    subst still
    dsimp only at result
    rw [sr] at result
    rcases result with ⟨waits, late, rfl, rfl⟩ | ⟨early, rfl, rfl⟩
    · rw [if_pos ⟨locked, by omega, late⟩]
      exact ⟨sane, stays _ _, rfl, rfl⟩
    · rw [if_neg (fun all => early ⟨by omega, all.2.2⟩)]
      exact ⟨sane, stays _ _, rfl, rfl⟩

end Rounds

end OpenDab
