import Mathlib.Data.List.Induction
import WsPmd.Library.Deflate.Inflater

/-!
# What an empty length completes

The octets `00 00 ff ff` are the length of an empty stored block and its complement. Fed to
a machine in any state they leave it between two blocks in three cases only: the length was
due, or the last four bytes of stored data were, or they happen to be the rest of a coded
block. The argument goes back from the boundary bit by bit. A field that has taken as many
bits as were fed was there before them, and stored data that began among them would have
had to begin with a length which none of their bits spell.
-/

namespace WsPmd.Library.Deflate

open ByteMachine (Position)

variable {window : ℕ}

/-! ## What a value does -/

/-- The states a value can lead to, as far as stored data and the ends of blocks go. -/
inductive Acts (s : State) (value : ℕ) : State → Prop where
  | endOfBlock {lit dist : Code} :
      s.field = .symbol lit dist → value = 256 → Acts s value s.endBlock
  | noData :
      s.field = .storedLength → value % 2 ^ 16 = 0 → value / 2 ^ 16 + 1 = 2 ^ 16 →
      Acts s value s.endBlock
  | data :
      s.field = .storedLength → value % 2 ^ 16 ≠ 0 →
      value % 2 ^ 16 + value / 2 ^ 16 + 1 = 2 ^ 16 →
      Acts s value (s.goTo (.stored (value % 2 ^ 16)))
  | lastByte (byte : UInt8) : s.field = .stored 1 → Acts s value (s.emit [byte]).endBlock
  | byte {left : ℕ} (byte : UInt8) :
      s.field = .stored left → left ≠ 1 →
      Acts s value ((s.emit [byte]).goTo (.stored (left - 1)))
  | other {s' : State} {field : Field} :
      field ≠ .header → (∀ left, field ≠ .stored left) → Acts s value (s'.goTo field)

/-- Whatever a value leads to is entered with none of its bits taken. -/
theorem Acts.path {s s' : State} {value : ℕ} (h : Acts s value s') : s'.path = [] := by
  cases h <;> rfl

namespace State

variable (s : State) (value : ℕ)

theorem acts_openBlock : Acts s value (s.openBlock value) := by
  unfold openBlock
  split
  · refine .other ?_ fun left => ?_
    · split <;> exact nofun
    · split <;> exact nofun
  · exact .other nofun nofun
  · exact .other nofun nofun
  · exact .other nofun nofun

theorem acts_openStored (h : s.field = .storedLength) : Acts s value (s.openStored value) := by
  unfold openStored
  split
  · next hvalid =>
    split
    · next hzero => exact .noData h hzero (by omega)
    · next hdata => exact .data h hdata hvalid
  · exact .other nofun nofun

theorem acts_takeCounts : Acts s value (s.takeCounts value) := by
  unfold takeCounts
  simp only
  split <;> exact .other nofun nofun

theorem acts_takeSizes (counts : Counts) (sent : List ℕ) :
    Acts s value (s.takeSizes counts sent) := by
  unfold takeSizes
  split
  · exact .other nofun nofun
  · split <;> exact .other nofun nofun

theorem acts_takeWidths (counts : Counts) (code : Code) (known : List ℕ) :
    Acts s value (s.takeWidths counts code known) := by
  unfold takeWidths
  split
  · exact .other nofun nofun
  · split
    · split <;> exact .other nofun nofun
    · exact .other nofun nofun

theorem acts_takeWidth (counts : Counts) (code : Code) (known : List ℕ) :
    Acts s value (s.takeWidth counts code known value) := by
  unfold takeWidth
  split
  · exact s.acts_takeWidths value counts code _
  · split <;> exact .other nofun nofun

theorem acts_reference (lit dist : Code) (length distance : ℕ) :
    Acts s value (s.reference window lit dist length distance).1 := by
  unfold reference
  split <;> exact .other nofun nofun

theorem acts_takeDistance (lit dist : Code) (length : ℕ) :
    Acts s value (s.takeDistance window lit dist length value).1 := by
  unfold takeDistance
  split
  · exact .other nofun nofun
  · exact s.acts_reference value lit dist length _
  · exact .other nofun nofun

theorem acts_takeSymbol {lit dist : Code} (h : s.field = .symbol lit dist) :
    Acts s value (s.takeSymbol lit dist value).1 := by
  unfold takeSymbol
  split
  · exact .other nofun nofun
  · split
    · next hend => exact .endOfBlock h hend
    · split <;> exact .other nofun nofun

variable {s}

theorem acts (hlive : s.phase = .live) : Acts s value (s.act window value).1 := by
  unfold act
  cases hfield : s.field with
  | header => exact s.acts_openBlock value
  | padding width => exact .other nofun nofun
  | storedLength => exact s.acts_openStored value hfield
  | stored left =>
    simp only
    split
    · next hlast => exact .lastByte _ (hlast ▸ hfield)
    · next hmore => exact .byte _ hfield hmore
  | counts => exact s.acts_takeCounts value
  | size counts sent => exact s.acts_takeSizes value counts _
  | codeWidth counts code known => exact s.acts_takeWidth value counts code known
  | run counts code known extra base width => exact s.acts_takeWidths value counts code _
  | symbol lit dist => exact s.acts_takeSymbol value hfield
  | lengthExtra lit dist extra base => exact .other nofun nofun
  | distance lit dist length => exact s.acts_takeDistance value lit dist length
  | distanceExtra lit dist length extra base => exact s.acts_reference value lit dist length _
  | done =>
    unfold phase at hlive
    rw [hfield] at hlive
    cases hlive
  | invalid =>
    unfold phase at hlive
    rw [hfield] at hlive
    cases hlive

end State

/-! ## What a bit does -/

theorem answer_number {width n : ℕ} {path : List Bool}
    (h : (Need.number width).answer path = .value n) : path.length = width ∧ number path = n := by
  unfold Need.answer at h
  simp only at h
  split at h
  · next hlen => exact ⟨hlen, Answer.value.inj h⟩
  · cases h

theorem answer_codeword {code : Code} {n : ℕ} {path : List Bool}
    (h : (Need.codeword code).answer path = .value n) : code.lookup path = some n := by
  unfold Need.answer at h
  simp only at h
  split at h
  · next hhit => rw [hhit, Answer.value.inj h]
  · split at h <;> cases h

namespace State

variable {s : State} {bit : Bool}

/-- Three things can come of a bit. -/
inductive Feeds (s : State) (bit : Bool) : State → Prop where
  | more : Feeds s bit (s.push bit)
  | value {value : ℕ} {s' : State} :
      s.field.need.answer (s.path ++ [bit]) = .value value → Acts (s.push bit) value s' →
      Feeds s bit s'
  | broken : Feeds s bit ((s.push bit).goTo .invalid)

theorem feeds (window : ℕ) (s : State) (bit : Bool) :
    Feeds s bit (s.feedBit window bit).1 := by
  unfold feedBit
  simp only
  split
  · exact .more
  · next n hvalue =>
    have hlive : (s.push bit).phase = .live := by
      unfold phase
      cases hfield : (s.push bit).field with
      | done => rw [hfield] at hvalue; cases hvalue
      | invalid => rw [hfield] at hvalue; cases hvalue
      | _ => rfl
    exact .value hvalue (acts n hlive)
  · exact .broken

theorem endBlock_atBlockStart {s : State} : s.endBlock.AtBlockStart ↔ s.final = false := by
  unfold endBlock AtBlockStart goTo
  cases s.final <;> simp

theorem endBlock_not_stored {s : State} {left : ℕ} : s.endBlock.field ≠ .stored left := by
  unfold endBlock goTo
  cases s.final <;> exact nofun

/-! ## One bit back -/

/-- A field with a bit taken was there before that bit. -/
theorem push_of_path (h : (s.feedBit window bit).1.path ≠ []) :
    (s.feedBit window bit).1 = s.push bit := by
  have hfeeds := feeds window s bit
  generalize (s.feedBit window bit).1 = s' at h hfeeds ⊢
  cases hfeeds with
  | more => rfl
  | value _ hacts => exact absurd hacts.path h
  | broken => exact absurd rfl h

/-- Behind the length of a stored block, with this many bits of its data still due. -/
def DataDue (s : State) (due : ℕ) : Prop :=
  ∃ left, s.field = .stored left ∧ s.path.length < 8 ∧ due + s.path.length = 8 * left

/-- The length of a stored block with its last bit, which makes this many bits of data due. -/
structure Sized (word : List Bool) (due : ℕ) : Prop where
  length : word.length = 32
  complement : number word % 2 ^ 16 + number word / 2 ^ 16 + 1 = 2 ^ 16
  due : 8 * (number word % 2 ^ 16) = due

theorem dataDue_back {due : ℕ} (h : (s.feedBit window bit).1.DataDue due) (hdue : 0 < due) :
    (s.DataDue (due + 1) ∧ (s.feedBit window bit).1.final = s.final) ∨
      (s.field = .storedLength ∧ Sized (s.path ++ [bit]) due) := by
  have hfeeds := feeds window s bit
  generalize (s.feedBit window bit).1 = s' at h hfeeds ⊢
  obtain ⟨left, hfield, hpath, hleft⟩ := h
  cases hfeeds with
  | more =>
    left
    rw [push, List.length_append, List.length_singleton] at hpath hleft
    exact ⟨⟨left, hfield, by omega, by omega⟩, rfl⟩
  | value hvalue hacts =>
    cases hacts with
    | endOfBlock => exact absurd hfield endBlock_not_stored
    | noData => exact absurd hfield endBlock_not_stored
    | lastByte => exact absurd hfield endBlock_not_stored
    | data hlength hsome hvalid =>
      right
      obtain rfl := Field.stored.inj hfield
      rw [show s.field = .storedLength from hlength] at hvalue
      obtain ⟨hlen, rfl⟩ := answer_number hvalue
      exact ⟨hlength, hlen, hvalid, hleft.symm⟩
    | @byte left' byte hstored hmore =>
      left
      obtain rfl := Field.stored.inj hfield
      rw [show s.field = .stored left' from hstored] at hvalue
      obtain ⟨hlen, -⟩ := answer_number hvalue
      rw [List.length_append, List.length_singleton] at hlen
      change due + 0 = _ at hleft
      exact ⟨⟨left', hstored, by omega, by omega⟩, rfl⟩
    | other _ hnot => exact absurd hfield (hnot left)
  | broken => cases hfield

/-- What can bring a machine between two blocks. -/
theorem atBlockStart_back (h : (s.feedBit window bit).1.AtBlockStart) :
    s.final = false ∧
      ((∃ lit dist, s.field = .symbol lit dist ∧ lit.lookup (s.path ++ [bit]) = some 256) ∨
        (s.field = .storedLength ∧ s.path.length = 31) ∨ s.DataDue 1) := by
  have hfeeds := feeds window s bit
  generalize (s.feedBit window bit).1 = s' at h hfeeds
  cases hfeeds with
  | more =>
    have hpath : s.path ++ [bit] = [] := h.2
    exact absurd hpath (List.append_ne_nil_of_right_ne_nil _ (List.cons_ne_nil _ _))
  | value hvalue hacts =>
    cases hacts with
    | @endOfBlock lit dist hsymbol hend =>
      have hfield : s.field = .symbol lit dist := hsymbol
      rw [hfield] at hvalue
      exact ⟨endBlock_atBlockStart.mp h, .inl ⟨lit, dist, hfield, hend ▸ answer_codeword hvalue⟩⟩
    | noData hlength =>
      have hfield : s.field = .storedLength := hlength
      rw [hfield] at hvalue
      obtain ⟨hlen, -⟩ := answer_number hvalue
      rw [List.length_append, List.length_singleton] at hlen
      exact ⟨endBlock_atBlockStart.mp h, .inr (.inl ⟨hfield, by omega⟩)⟩
    | lastByte byte hlast =>
      have hfield : s.field = .stored 1 := hlast
      rw [hfield] at hvalue
      obtain ⟨hlen, -⟩ := answer_number hvalue
      rw [List.length_append, List.length_singleton] at hlen
      exact ⟨endBlock_atBlockStart.mp h, .inr (.inr ⟨1, hfield, by omega, by omega⟩)⟩
    | data => cases h.1
    | byte => cases h.1
    | other hnot => exact absurd h.1 hnot
  | broken => cases h.1

/-! ## Many bits back -/

/-- A field that has taken as many bits as were fed was there before them. -/
theorem field_of_path {xs : List Bool} (h : xs.length ≤ (s.feedBits window xs).1.path.length) :
    (s.feedBits window xs).1.field = s.field ∧ (s.feedBits window xs).1.path = s.path ++ xs ∧
      (s.feedBits window xs).1.final = s.final := by
  induction xs using List.reverseRecOn with
  | nil => exact ⟨rfl, (List.append_nil _).symm, rfl⟩
  | append_singleton xs x ih =>
    rw [feedBits_concat] at h ⊢
    rw [List.length_append, List.length_singleton] at h
    have hpush := push_of_path (List.ne_nil_of_length_pos (Nat.lt_of_lt_of_le (by omega) h))
    rw [hpush, push, List.length_append, List.length_singleton] at h
    obtain ⟨hfield, hpath, hfinal⟩ := ih (by omega)
    rw [hpush]
    refine ⟨hfield, ?_, hfinal⟩
    rw [push, hpath, List.append_assoc]

theorem dataDue_back_all {xs : List Bool} {due : ℕ} (hdue : 0 < due)
    (hshort : xs.length ≤ 32) (h : (s.feedBits window xs).1.DataDue due) :
    (s.DataDue (due + xs.length) ∧ (s.feedBits window xs).1.final = s.final) ∨
      ∃ front back, xs = front ++ back ∧ front ≠ [] ∧ s.field = .storedLength ∧
        Sized (s.path ++ front) (due + back.length) := by
  induction xs using List.reverseRecOn generalizing due with
  | nil => exact .inl ⟨h, rfl⟩
  | append_singleton xs x ih =>
    rw [List.length_append, List.length_singleton] at hshort ⊢
    rw [feedBits_concat] at h ⊢
    rcases dataDue_back h hdue with ⟨hback, hfinal⟩ | ⟨hlength, hsized⟩
    · rcases ih (Nat.succ_pos due) (by omega) hback with
        ⟨hall, hsame⟩ | ⟨front, back, rfl, hne, hfield, hs⟩
      · exact .inl ⟨by rwa [Nat.add_comm xs.length, ← Nat.add_assoc], hfinal.trans hsame⟩
      · refine .inr ⟨front, back ++ [x], by rw [List.append_assoc], hne, hfield, ?_⟩
        rwa [List.length_append, List.length_singleton, Nat.add_comm back.length, ← Nat.add_assoc]
    · have hlen := hsized.length
      rw [List.length_append, List.length_singleton] at hlen
      have hall : xs.length ≤ (s.feedBits window xs).1.path.length := by omega
      obtain ⟨hfield, hpath, -⟩ := field_of_path hall
      rw [hpath, List.append_assoc] at hsized
      exact .inr ⟨xs ++ [x], [], (List.append_nil _).symm, by simp, hfield.symm.trans hlength,
        hsized⟩

end State

/-! ## The octets -/

def emptyLength : Bytes := [0x00, 0x00, 0xff, 0xff]

/-- Their bits, but for the last one. -/
def allButLast : List Bool := .replicate 16 false ++ .replicate 15 true

theorem bits_emptyLength : bits emptyLength = allButLast ++ [true] := rfl

/-- The octets are the rest of the block at hand, and that block is not the last: the whole
length of a stored one, the last four bytes of one, or the rest of a coded one, which their
last bit ends. -/
inductive OctetsDue (window : ℕ) (s : State) : Prop where
  | length : s.field = .storedLength → s.path = [] → s.final = false → OctetsDue window s
  | data : s.field = .stored 4 → s.path = [] → s.final = false → OctetsDue window s
  | coded {lit dist : Code} :
      (s.feedBits window allButLast).1.field = .symbol lit dist →
      lit.lookup ((s.feedBits window allButLast).1.path ++ [true]) = some 256 →
      (s.feedBits window allButLast).1.final = false → OctetsDue window s

/-- No length that the octets complete makes just the rest of them data. -/
theorem not_sized {path front back : List Bool} (h : allButLast = front ++ back)
    (hne : front ≠ []) : ¬ State.Sized (path ++ front) (1 + back.length) := by
  intro ⟨hlen, hcomplement, hdue⟩
  have hcut := congrArg List.length h
  have htake : front = allButLast.take front.length := by rw [h, List.take_left]
  have hpos := List.length_pos_iff.mpr hne
  have hlt := number_lt path
  have hvalue := number_append path front
  rw [List.length_append] at hlen hcut
  change 31 = _ at hcut
  have height : path.length = 8 ∨ path.length = 16 ∨ path.length = 24 := by omega
  rcases height with hpath | hpath | hpath
  · have hfront : number front = 255 * 2 ^ 16 := by
      rw [htake, show front.length = 24 by omega]
      rfl
    rw [hpath] at hlt hvalue
    omega
  · have hfront : number front = 0 := by
      rw [htake, show front.length = 16 by omega]
      rfl
    rw [hpath] at hlt hvalue
    omega
  · have hfront : number front = 0 := by
      rw [htake, show front.length = 8 by omega]
      rfl
    rw [hpath] at hlt hvalue
    omega

theorem OctetsDue.runs {s : State} (h : OctetsDue window s) :
    (s.feedBits window (bits emptyLength)).1.AtBlockStart := by
  obtain ⟨field, path, taken, final, recent⟩ := s
  cases h with
  | length hfield hpath hfinal =>
    obtain rfl : field = .storedLength := hfield
    obtain rfl : path = [] := hpath
    obtain rfl : final = false := hfinal
    have hruns : Runs window ⟨.storedLength, [], taken, false, recent⟩
        (bits [0x00, 0x00] ++ (bits [0x00, 0x00]).map not) []
        ⟨.header, [], taken + 32, false, recent⟩ := stored_length_runs rfl rfl
    change (State.feedBits window _
      (bits [0x00, 0x00] ++ (bits [0x00, 0x00]).map not)).1.AtBlockStart
    rw [hruns]
    exact ⟨rfl, rfl⟩
  | data hfield hpath hfinal =>
    obtain rfl : field = .stored 4 := hfield
    obtain rfl : path = [] := hpath
    obtain rfl : final = false := hfinal
    have hruns : Runs window ⟨.stored emptyLength.length, [], taken, false, recent⟩
        (bits emptyLength) emptyLength _ := data_runs emptyLength (by decide) taken recent
    change (State.feedBits window
      ⟨.stored emptyLength.length, [], taken, false, recent⟩ _).1.AtBlockStart
    rw [hruns]
    exact ⟨rfl, rfl⟩
  | @coded lit dist hfield hlookup hfinal =>
    rw [bits_emptyLength, State.feedBits_concat]
    generalize (State.feedBits window _ allButLast).1 = t at hfield hlookup hfinal ⊢
    have hanswer : t.field.need.answer (t.path ++ [true]) = .value 256 := by
      rw [hfield]
      simp only [Field.need, Need.answer, hlookup]
    have hend : (t.feedBit window true).1 = (t.push true).endBlock := by
      unfold State.feedBit State.push
      simp only [hanswer]
      unfold State.act
      simp only [hfield]
      rfl
    rw [hend, State.endBlock_atBlockStart]
    exact hfinal

/-- **What the octets complete, exactly.** -/
theorem octetsDue_iff {s : State} :
    OctetsDue window s ↔ (s.feedBits window (bits emptyLength)).1.AtBlockStart := by
  refine ⟨OctetsDue.runs, fun h => ?_⟩
  rw [bits_emptyLength, State.feedBits_concat] at h
  obtain ⟨hfinal, ⟨lit, dist, hfield, hlookup⟩ | ⟨hfield, hpath⟩ | hdata⟩ :=
    State.atBlockStart_back h
  · exact .coded hfield hlookup hfinal
  · -- thirty-one bits of the length are the octets' own
    have hall : allButLast.length ≤ (s.feedBits window allButLast).1.path.length :=
      Nat.le_of_eq hpath.symm
    obtain ⟨hsame, htaken, hkept⟩ := State.field_of_path hall
    rw [htaken, List.length_append] at hpath
    change _ + 31 = 31 at hpath
    refine .length (hsame.symm.trans hfield) (List.length_eq_zero_iff.mp (by omega)) ?_
    rw [← hkept, hfinal]
  · rcases State.dataDue_back_all Nat.one_pos (by decide) hdata with
      ⟨⟨left, hfield, hpath, hleft⟩, hkept⟩ | ⟨front, back, hcut, hne, -, hsized⟩
    · change 1 + 31 + _ = _ at hleft
      obtain rfl : left = 4 := by omega
      refine .data hfield (List.length_eq_zero_iff.mp (by omega)) ?_
      rw [← hkept, hfinal]
    · exact absurd hsized (not_sized hcut hne)

/-! ## Bytes -/

/-- Bytes that end no stream are taken bit by bit. -/
theorem state_of_read {bytes : Bytes} :
    ∀ {p q : Position State}, ((machine window).read p bytes).position = some q →
      ((machine window).read p bytes).ended = false →
      q.state = (p.state.feedBits window (bits bytes)).1 := by
  induction bytes with
  | nil =>
    intro p q hread _
    obtain rfl := Option.some.inj hread
    rfl
  | cons byte bytes ih =>
    intro p q hread hended
    rw [ByteMachine.read] at hread hended
    rw [bits_cons, State.feedBits_append]
    unfold ByteMachine.Reading.andThen ByteMachine.readByte at hread hended
    cases hphase : (machine window).phase ((machine window).feed p.state byte).1 with
    | live =>
      simp only [hphase, Bool.false_or] at hread hended
      exact ih hread hended
    | ended => simp only [hphase, Bool.true_or] at hended; cases hended
    | invalid => simp only [hphase] at hread; cases hread

namespace Inflater

variable {T : Type} {I : Inflater window T}

/-- Where an inflater that takes the octets stands behind them. -/
theorem octets_complete {p q : Position T} (hp : I.machine.Live p)
    (hread : (I.machine.read p emptyLength).position = some q)
    (hended : (I.machine.read p emptyLength).ended = false) :
    (∃ s, I.reads q.state = some s ∧ s.AtBlockStart) ↔
      ∃ s, I.reads p.state = some s ∧ OctetsDue window s := by
  constructor
  · intro ⟨s, hs, hstart⟩
    obtain ⟨p', hp', hback⟩ := I.follows.read_back hp hread hended (shows_of_reads hs)
    have hstate := state_of_read (by rw [hback]) (by rw [hback])
    refine ⟨p'.state, hp'.state, octetsDue_iff.mpr ?_⟩
    rw [← hstate]
    exact hstart
  · intro ⟨s, hs, hdue⟩
    have hlive : s.phase = .live := (I.follows.phase hs).symm.trans hp
    have hstart := hdue.runs
    obtain ⟨s', out, hruns⟩ : ∃ s' out, Runs window s (bits emptyLength) out s' :=
      ⟨_, _, .feedBits s _⟩
    rw [hruns] at hstart
    have hnext : s'.phase = .live := by
      unfold State.phase
      rw [hstart.1]
    obtain ⟨q', hq', hshows⟩ := read_alike hs hlive
      (read_live (p := ⟨s, p.begun, p.totalIn, p.totalOut⟩) hruns hnext)
    rw [hq'] at hread
    obtain rfl := Option.some.inj hread
    exact ⟨_, hshows.state, hstart⟩

end Inflater

end WsPmd.Library.Deflate
