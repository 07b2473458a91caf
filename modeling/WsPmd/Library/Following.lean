import WsPmd.Library.ByteMachine

/-!
# One machine read through another

A machine follows another when what it does on the strings the other can read is
what the other does: `reads` says which state of the other it stands for, and is
silent once the string has gone wrong. What a follower makes of a string that has
gone wrong is its own affair. It may find the fault at once, or bytes later, or
not at all, as long as it does not come back to life before its stream is over.
-/

namespace WsPmd.Library.ByteMachine

variable {S T : Type}

structure Follows (N : ByteMachine T) (M : ByteMachine S) (reads : T → Option S) : Prop where
  start : reads N.start = some M.start
  phase : ∀ {t s}, reads t = some s → N.phase t = M.phase s
  feed : ∀ {t s}, reads t = some s → M.phase s = .live → ∀ byte,
    M.phase (M.feed s byte).1 ≠ .invalid →
      reads (N.feed t byte).1 = some (M.feed s byte).1 ∧ (N.feed t byte).2 = (M.feed s byte).2
  fault : ∀ {t s}, reads t = some s → M.phase s = .live → ∀ byte,
    M.phase (M.feed s byte).1 = .invalid → reads (N.feed t byte).1 = none
  lost : ∀ {t}, reads t = none → ∀ byte, reads (N.feed t byte).1 = none

/-- A position of the follower, and the position of the other it stands for. -/
structure Shows (reads : T → Option S) (p : Position T) (q : Position S) : Prop where
  state : reads p.state = some q.state
  begun : p.begun = q.begun
  totalIn : p.totalIn = q.totalIn
  totalOut : p.totalOut = q.totalOut

namespace Follows

variable {N : ByteMachine T} {M : ByteMachine S} {reads : T → Option S}

theorem shows_fresh (h : N.Follows M reads) : Shows reads N.fresh M.fresh :=
  ⟨h.start, rfl, rfl, rfl⟩

theorem live (h : N.Follows M reads) {p : Position T} {q : Position S} (hp : Shows reads p q)
    (hq : M.Live q) : N.Live p :=
  (h.phase hp.state).trans hq

theorem readByte (h : N.Follows M reads) {p : Position T} {q q' : Position S}
    (hp : Shows reads p q) (hq : M.Live q) {byte : UInt8}
    (hread : (M.readByte q byte).position = some q') :
    ∃ p', N.readByte p byte = ⟨(M.readByte q byte).output, (M.readByte q byte).ended, some p'⟩ ∧
      Shows reads p' q' := by
  have hvalid : M.phase (M.feed q.state byte).1 ≠ .invalid := by
    intro hinvalid
    simp only [ByteMachine.readByte, hinvalid] at hread
    cases hread
  obtain ⟨hstate, houtput⟩ := h.feed hp.state hq byte hvalid
  have hphase := h.phase hstate
  unfold ByteMachine.readByte at hread ⊢
  cases hnext : M.phase (M.feed q.state byte).1 with
  | live =>
    simp only [hnext] at hread hphase ⊢
    obtain rfl := Option.some.inj hread
    simp only [hphase, houtput]
    refine ⟨_, rfl, hstate, rfl, ?_, ?_⟩
    · rw [hp.totalIn]
    · rw [hp.totalOut]
  | ended =>
    simp only [hnext] at hread hphase ⊢
    obtain rfl := Option.some.inj hread
    simp only [hphase, houtput]
    exact ⟨_, rfl, h.shows_fresh⟩
  | invalid => exact absurd hnext hvalid

/-- **What the other can read, a follower reads alike**, streams that end in it included. -/
theorem read (h : N.Follows M reads) {bytes : List UInt8} :
    ∀ {p : Position T} {q q' : Position S}, Shows reads p q → M.Live q →
      (M.read q bytes).position = some q' →
      ∃ p', N.read p bytes = ⟨(M.read q bytes).output, (M.read q bytes).ended, some p'⟩ ∧
        Shows reads p' q' := by
  induction bytes with
  | nil =>
    intro p q q' hp _ hread
    obtain rfl := Option.some.inj hread
    exact ⟨p, rfl, hp⟩
  | cons byte bytes ih =>
    intro p q q' hp hq hread
    rw [ByteMachine.read] at hread
    unfold Reading.andThen at hread
    cases hbyte : (M.readByte q byte).position with
    | none => simp only [hbyte] at hread; cases hread
    | some q1 =>
      simp only [hbyte] at hread
      obtain ⟨p1, hfirst, hp1⟩ := h.readByte hp hq hbyte
      obtain ⟨p', hrest, hp'⟩ := ih hp1 (Live.readByte M hbyte) hread
      refine ⟨p', ?_, hp'⟩
      rw [ByteMachine.read, ByteMachine.read, hfirst]
      simp only [Reading.andThen, hbyte, hrest]

/-- A follower that has not started over and still stands for something has read what the
other can read. -/
theorem read_back (h : N.Follows M reads) {bytes : List UInt8} :
    ∀ {p p' : Position T} {q' : Position S}, N.Live p →
      (N.read p bytes).position = some p' → (N.read p bytes).ended = false →
      Shows reads p' q' →
      ∃ q, Shows reads p q ∧ M.read q bytes = ⟨(N.read p bytes).output, false, some q'⟩ := by
  induction bytes with
  | nil =>
    intro p p' q' _ hread _ hp'
    obtain rfl := Option.some.inj hread
    exact ⟨q', hp', rfl⟩
  | cons byte bytes ih =>
    intro p p' q' hp hread hended hp'
    rw [ByteMachine.read, Reading.andThen] at hread hended
    cases hnext : N.phase (N.feed p.state byte).1 with
    | live =>
      have hbyte : N.readByte p byte = ⟨(N.feed p.state byte).2, false,
          some ⟨(N.feed p.state byte).1, true, p.totalIn + 1,
            p.totalOut + (N.feed p.state byte).2.length⟩⟩ := by
        simp only [ByteMachine.readByte, hnext]
      have hlive : N.Live ⟨(N.feed p.state byte).1, true, p.totalIn + 1,
          p.totalOut + (N.feed p.state byte).2.length⟩ := hnext
      simp only [hbyte, Bool.false_or] at hread hended
      obtain ⟨q1, hq1, hrest⟩ := ih hlive hread hended hp'
      -- what is behind the byte can be read, so what is in front of it could be
      cases hs : reads p.state with
      | none => cases (h.lost hs byte).symm.trans hq1.state
      | some s =>
        have hlive : M.phase s = .live := (h.phase hs).symm.trans hp
        have hvalid : M.phase (M.feed s byte).1 ≠ .invalid := by
          intro hinvalid
          have hfault := hq1.state
          rw [h.fault hs hlive byte hinvalid] at hfault
          cases hfault
        obtain ⟨hstate, houtput⟩ := h.feed hs hlive byte hvalid
        have hphase : M.phase (M.feed s byte).1 = .live := (h.phase hstate).symm.trans hnext
        have hq : q1 = ⟨(M.feed s byte).1, true, p.totalIn + 1,
            p.totalOut + (M.feed s byte).2.length⟩ := by
          have hq1state := Option.some.inj (hq1.state.symm.trans hstate)
          have hbegun := hq1.begun
          have hin := hq1.totalIn
          have hout := hq1.totalOut
          obtain ⟨state, begun, totalIn, totalOut⟩ := q1
          simp only at hq1state hbegun hin hout
          rw [hq1state, ← hbegun, ← hin, ← hout, houtput]
        refine ⟨⟨s, p.begun, p.totalIn, p.totalOut⟩, ⟨hs, rfl, rfl, rfl⟩, ?_⟩
        rw [hq] at hrest
        rw [ByteMachine.read, ByteMachine.read, hbyte]
        simp only [ByteMachine.readByte, hphase, Reading.andThen, hrest, houtput, Bool.or_false]
    | ended =>
      simp only [ByteMachine.readByte, hnext, Bool.true_or] at hended
      cases hended
    | invalid =>
      simp only [ByteMachine.readByte, hnext] at hread
      cases hread

end Follows

/-! ## Followers of any machine -/

/-- What a machine stands for as its own follower: itself, until it is invalid. -/
def unlessInvalid (M : ByteMachine S) (s : S) : Option S :=
  if M.phase s = .invalid then none else some s

/-- A machine that stays invalid follows itself, and reports every fault at once. -/
theorem follows_self {M : ByteMachine S}
    (hstuck : ∀ s byte, M.phase s = .invalid → M.phase (M.feed s byte).1 = .invalid) :
    M.Follows M M.unlessInvalid where
  start := if_neg (by rw [M.start_live]; exact nofun)
  phase := by
    intro t s ht
    unfold unlessInvalid at ht
    split at ht
    · cases ht
    · rw [Option.some.inj ht]
  feed := by
    intro t s ht _ byte hvalid
    unfold unlessInvalid at ht
    split at ht
    · cases ht
    · obtain rfl := Option.some.inj ht
      exact ⟨if_neg hvalid, rfl⟩
  fault := by
    intro t s ht _ byte hinvalid
    unfold unlessInvalid at ht
    split at ht
    · cases ht
    · obtain rfl := Option.some.inj ht
      exact if_pos hinvalid
  lost := by
    intro t ht byte
    unfold unlessInvalid at ht
    split at ht
    · next hinvalid => exact if_pos (hstuck t byte hinvalid)
    · cases ht

/-- The follower that never reports a fault: it takes what comes after one in silence. -/
def patient (M : ByteMachine S) : ByteMachine (Option S) where
  start := some M.start
  phase
    | none => .live
    | some s => M.phase s
  feed
    | none, _ => (none, [])
    | some s, byte =>
      if M.phase (M.feed s byte).1 = .invalid then (none, [])
      else (some (M.feed s byte).1, (M.feed s byte).2)
  start_live := M.start_live

theorem patient_follows (M : ByteMachine S) : M.patient.Follows M id where
  start := rfl
  phase := by
    intro t s ht
    obtain rfl : t = some s := ht
    rfl
  feed := by
    intro t s ht _ byte hvalid
    obtain rfl : t = some s := ht
    simp only [patient, if_neg hvalid, id_eq, and_self]
  fault := by
    intro t s ht _ byte hinvalid
    obtain rfl : t = some s := ht
    simp only [patient, if_pos hinvalid, id_eq]
  lost := by
    intro t ht byte
    obtain rfl : t = none := ht
    rfl

end WsPmd.Library.ByteMachine
