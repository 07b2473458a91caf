import WsPmd.Codec
import WsPmd.Library.Passage
import Mathlib.Tactic.Tauto

/-!
# What passes between the decoder and its backend

One turn of `inflate` makes one backend call, and the backend is arbitrary: it may move
its counters by anything, report any status and leave anything in the buffer. What the
turn does next is read off what the call reported: it fails with the one error the report
stands for, it leaves because nothing moved and nothing was left to feed, or it goes round
again on what is left. Whatever holds of a turn is read off these cases, and a feed is
the list of the calls its turns make.
-/

namespace WsPmd.Decoding

open Grammar (Bytes)
open Library

/-- One backend call, with the output the decoder held from its own call by then. -/
structure Exchange where
  held : ℕ
  input : Bytes
  room : ℕ
  consumed : ℕ
  produced : ℕ
  given : Bytes
  status : Option Status
  deriving DecidableEq

namespace Exchange

/-- The call reported the end of a stream. -/
def Ends (x : Exchange) : Prop := x.status = some .streamEnd

instance (x : Exchange) : Decidable x.Ends := decEq _ _

/-- What a step reads off the call. -/
def outcome (x : Exchange) : Except CodecError Step :=
  if x.status = none then .error .invalidStream
  else if x.consumed ≠ 0 ∨ x.produced ≠ 0 then
    .ok ⟨x.produced, some (x.input.drop x.consumed), x.Ends⟩
  else if x.input.drop x.consumed = [] then .ok ⟨x.produced, none, x.Ends⟩
  else .error .stalled

/-- The call answered, and moved or had nothing left to move. -/
structure Answers (x : Exchange) : Prop where
  status : x.status ≠ none
  moved : x.consumed ≠ 0 ∨ x.produced ≠ 0 ∨ x.input = []

/-- What a turn reports of a call it cannot go on from, once the message has come to this
size. -/
inductive Fails (limit : DecompressedLimit) (size : ℕ) (x : Exchange) : CodecError → Prop where
  | refused : x.status = none → Fails limit size x .invalidStream
  | stalled : x.status ≠ none → x.consumed = 0 → x.produced = 0 → x.input ≠ [] →
      Fails limit size x .stalled
  | tooLong : x.Answers → limit.bytes < size →
      Fails limit size x (.messageTooLong size limit.bytes)

/-- What passed. -/
def passage (x : Exchange) : Passage UInt8 := ⟨x.input.take x.consumed, x.given⟩

/-- The record is that of a call made on this inflater. -/
structure Records {σ : Type} (D : Decompress σ) (inflater : σ) (x : Exchange) : Prop where
  consumed : x.consumed = advance (D.totalIn inflater)
    (D.totalIn (D.decompress inflater x.input x.room).state) x.input.length
  produced : x.produced = advance (D.totalOut inflater)
    (D.totalOut (D.decompress inflater x.input x.room).state) x.room
  given : x.given = (D.decompress inflater x.input x.room).scratch.take x.produced
  status : x.status = (D.decompress inflater x.input x.room).status

end Exchange

section Turns

variable {σ : Type} (D : Decompress σ)

/-- The call a turn makes. -/
def exchange (limit : DecompressedLimit) (s : Inflate σ) : Exchange :=
  let x := s.decoder.inflater
  let room := Decoder.writable limit s
  let call := D.decompress x s.input room
  let produced := advance (D.totalOut x) (D.totalOut call.state) room
  { held := s.output.length
    input := s.input
    room
    consumed := advance (D.totalIn x) (D.totalIn call.state) s.input.length
    produced
    given := call.scratch.take produced
    status := call.status }

/-- What the call gave. -/
def given (limit : DecompressedLimit) (s : Inflate σ) : Bytes := (exchange D limit s).given

/-- The decoder behind the call. -/
def called (limit : DecompressedLimit) (s : Inflate σ) : Decoder σ :=
  { s.decoder with
    inflater := (D.decompress s.decoder.inflater s.input (Decoder.writable limit s)).state }

/-- The decoder once it stands where the call left the stream. -/
def positioned (limit : DecompressedLimit) (s : Inflate σ) : Decoder σ :=
  if (exchange D limit s).Ends then (called D limit s).reinitialise D
  else if 0 < (exchange D limit s).consumed then { called D limit s with streamOpen := true }
  else called D limit s

variable {D}

theorem writable_pos (limit : DecompressedLimit) (s : Inflate σ) :
    0 < Decoder.writable limit s := by
  have hscratch := scratchLen_pos
  unfold Decoder.writable saturatingAdd usizeMax
  simp only
  omega

theorem writable_le (limit : DecompressedLimit) (s : Inflate σ) :
    Decoder.writable limit s ≤ scratchLen := Nat.min_le_right _ _

theorem exchange_records (limit : DecompressedLimit) (s : Inflate σ) :
    (exchange D limit s).Records D s.decoder.inflater := ⟨rfl, rfl, rfl, rfl⟩

theorem consumed_le (limit : DecompressedLimit) (s : Inflate σ) :
    (exchange D limit s).consumed ≤ s.input.length := advance_le _ _ _

theorem produced_le (limit : DecompressedLimit) (s : Inflate σ) :
    (exchange D limit s).produced ≤ Decoder.writable limit s := advance_le _ _ _

theorem length_given (limit : DecompressedLimit) (s : Inflate σ) :
    (given D limit s).length = (exchange D limit s).produced := by
  show (List.take _ (D.decompress _ _ _).scratch).length = _
  rw [List.length_take, (D.decompress _ _ _).scratch_length]
  exact Nat.min_eq_left (produced_le limit s)

/-- What a turn does, by the call it makes. -/
inductive Turned (D : Decompress σ) (limit : DecompressedLimit) (s : Inflate σ) :
    Outcome σ Bool ⊕ Inflate σ → Prop where
  | refused : (exchange D limit s).status = none →
      Turned D limit s (.inl ⟨.error .invalidStream, called D limit s, s.output⟩)
  | stalled : (exchange D limit s).status ≠ none → (exchange D limit s).consumed = 0 →
      (exchange D limit s).produced = 0 → s.input ≠ [] →
      Turned D limit s (.inl ⟨.error .stalled, called D limit s, s.output⟩)
  | tooLong : (exchange D limit s).Answers →
      limit.bytes < saturatingAdd s.decoder.delivered (s.output ++ given D limit s).length →
      Turned D limit s (.inl ⟨.error (.messageTooLong
        (saturatingAdd s.decoder.delivered (s.output ++ given D limit s).length) limit.bytes),
        called D limit s, s.output ++ given D limit s⟩)
  | drained : (exchange D limit s).Answers → s.input = [] → (exchange D limit s).consumed = 0 →
      (exchange D limit s).produced = 0 →
      saturatingAdd s.decoder.delivered s.output.length ≤ limit.bytes →
      Turned D limit s (.inl ⟨.ok (s.endedAStream || decide (exchange D limit s).Ends),
        positioned D limit s, s.output⟩)
  | moved : (exchange D limit s).Answers →
      0 < (exchange D limit s).consumed + (exchange D limit s).produced →
      saturatingAdd s.decoder.delivered (s.output ++ given D limit s).length ≤ limit.bytes →
      Turned D limit s (.inr ⟨positioned D limit s,
        s.input.drop (exchange D limit s).consumed, s.output ++ given D limit s,
        s.endedAStream || decide (exchange D limit s).Ends⟩)

/-- The call read as a step, by what the exchange records of it. -/
theorem step_exchange (limit : DecompressedLimit) (s : Inflate σ) :
    step D s.decoder.inflater s.input (Decoder.writable limit s) =
      ((D.decompress s.decoder.inflater s.input (Decoder.writable limit s)).state,
        (D.decompress s.decoder.inflater s.input (Decoder.writable limit s)).scratch,
        (exchange D limit s).outcome) := by
  cases hstatus : (D.decompress s.decoder.inflater s.input (Decoder.writable limit s)).status with
  | none =>
    have hnone : (exchange D limit s).status = none := hstatus
    simp only [step, hstatus, Exchange.outcome, hnone, if_true]
  | some status =>
    have hsome : (exchange D limit s).status = some status := hstatus
    have hends : decide (exchange D limit s).Ends = decide (status = .streamEnd) := by
      simp only [Exchange.Ends, hsome, Option.some.injEq]
    simp only [step, hstatus, Exchange.outcome, hsome, hends, reduceCtorEq, if_false]
    split
    · next hmoved => exact Prod.ext rfl (Prod.ext rfl (if_pos hmoved).symm)
    · next hstill =>
      split
      · next hempty =>
        exact Prod.ext rfl (Prod.ext rfl ((if_neg hstill).trans (if_pos hempty)).symm)
      · next hleft =>
        exact Prod.ext rfl (Prod.ext rfl ((if_neg hstill).trans (if_neg hleft)).symm)

/-- A turn, by the call it makes. -/
theorem inflateTurn_exchange (limit : DecompressedLimit) (s : Inflate σ) :
    Decoder.inflateTurn D limit s = Decoder.resume D limit s
      ((D.decompress s.decoder.inflater s.input (Decoder.writable limit s)).state,
        (D.decompress s.decoder.inflater s.input (Decoder.writable limit s)).scratch,
        (exchange D limit s).outcome) := by
  rw [Decoder.inflateTurn, step_exchange]

/-- A call that moved leaves less of the input exactly where it took some. -/
theorem positioned_moved (limit : DecompressedLimit) (s : Inflate σ) :
    (if (decide (exchange D limit s).Ends) = true then (called D limit s).reinitialise D
      else if (some (s.input.drop (exchange D limit s).consumed)).any
          (·.length < s.input.length) = true then { called D limit s with streamOpen := true }
      else called D limit s) = positioned D limit s := by
  have hle := consumed_le (D := D) limit s
  have hless : (s.input.drop (exchange D limit s).consumed).length < s.input.length ↔
      0 < (exchange D limit s).consumed := by
    rw [List.length_drop]
    omega
  simp only [positioned, decide_eq_true_eq, Option.any_some, hless]

theorem positioned_still {limit : DecompressedLimit} {s : Inflate σ}
    (h : (exchange D limit s).consumed = 0) :
    (if (decide (exchange D limit s).Ends) = true then (called D limit s).reinitialise D
      else called D limit s) = positioned D limit s := by
  simp only [positioned, decide_eq_true_eq, h, Nat.lt_irrefl, if_false]

/-- **What a turn does.** -/
theorem inflateTurn_turned (limit : DecompressedLimit) (s : Inflate σ) :
    Turned D limit s (Decoder.inflateTurn D limit s) := by
  rw [inflateTurn_exchange, Exchange.outcome]
  by_cases hrefused : (exchange D limit s).status = none
  · rw [if_pos hrefused]
    exact .refused hrefused
  rw [if_neg hrefused]
  by_cases hmoved : (exchange D limit s).consumed ≠ 0 ∨ (exchange D limit s).produced ≠ 0
  · rw [if_pos hmoved]
    have hanswers : (exchange D limit s).Answers := ⟨hrefused, by tauto⟩
    simp only [Decoder.resume]
    split
    · next hsize => exact .tooLong hanswers hsize
    · next hsize =>
      have hturned := Turned.moved hanswers (by omega) (Nat.le_of_not_gt hsize)
      rw [← positioned_moved] at hturned
      exact hturned
  rw [if_neg hmoved]
  simp only [not_or, not_not] at hmoved
  obtain ⟨hconsumed, hproduced⟩ := hmoved
  rw [hconsumed, List.drop_zero]
  by_cases hleft : s.input = []
  · have hempty : (exchange D limit s).input = [] := hleft
    rw [if_pos hempty]
    have hanswers : (exchange D limit s).Answers := ⟨hrefused, Or.inr (Or.inr hleft)⟩
    simp only [Decoder.resume, hproduced, List.take_zero, List.append_nil]
    split
    · next hsize =>
      have hnone : given D limit s = [] := by
        rw [← List.length_eq_zero_iff, length_given, hproduced]
      have hpast : limit.bytes <
          saturatingAdd s.decoder.delivered (s.output ++ given D limit s).length := by
        rw [hnone, List.append_nil]
        exact hsize
      have hturned := Turned.tooLong hanswers hpast
      rw [hnone, List.append_nil] at hturned
      exact hturned
    · next hsize =>
      have hturned := Turned.drained hanswers hleft hconsumed hproduced (Nat.le_of_not_gt hsize)
      rw [← positioned_still hconsumed] at hturned
      exact hturned
  · have hmore : (exchange D limit s).input ≠ [] := hleft
    rw [if_neg hmore]
    exact .stalled hrefused hconsumed hproduced hleft

end Turns

/-! ## The calls of a feed -/

section Feeds

variable {σ : Type} (D : Decompress σ) (limit : DecompressedLimit)

/-- The one call a turn makes: what it hands its inflater, the record of what came back,
and the turn, which goes on from that call and nothing else. -/
structure Makes (s : Inflate σ) (x : Exchange) (answer : Outcome σ Bool ⊕ Inflate σ) : Prop where
  held : x.held = s.output.length
  input : x.input = s.input
  room : x.room = Decoder.writable limit s
  records : x.Records D s.decoder.inflater
  turned : Decoder.inflateTurn D limit s = answer
  resumed : answer = Decoder.resume D limit s
    ((D.decompress s.decoder.inflater x.input x.room).state,
      (D.decompress s.decoder.inflater x.input x.room).scratch, x.outcome)

/-- The calls of one feed, in order, up to the one it leaves behind. -/
inductive Feeds : Inflate σ → List Exchange → Outcome σ Bool → Prop where
  | leaves {s : Inflate σ} {x : Exchange} {r : Outcome σ Bool} :
      Makes D limit s x (.inl r) → Feeds s [x] r
  | again {s s' : Inflate σ} {x : Exchange} {exchanges : List Exchange} {r : Outcome σ Bool} :
      Makes D limit s x (.inr s') → Feeds s' exchanges r → Feeds s (x :: exchanges) r

variable {D limit}

theorem makes_exchange {s : Inflate σ} {answer : Outcome σ Bool ⊕ Inflate σ}
    (h : Decoder.inflateTurn D limit s = answer) :
    Makes D limit s (exchange D limit s) answer :=
  ⟨rfl, rfl, rfl, exchange_records limit s, h, h.symm.trans (inflateTurn_exchange limit s)⟩

theorem Makes.eq_exchange {s : Inflate σ} {x : Exchange} {answer : Outcome σ Bool ⊕ Inflate σ}
    (h : Makes D limit s x answer) : x = exchange D limit s := by
  obtain ⟨hheld, hinput, hroom, ⟨hconsumed, hproduced, hgiven, hstatus⟩, -, -⟩ := h
  obtain ⟨held, input, room, consumed, produced, given, status⟩ := x
  simp only at hheld hinput hroom hconsumed hproduced hgiven hstatus
  subst hheld hinput hroom hconsumed hproduced hgiven hstatus
  rfl

/-- Everything a call and its turn come to. -/
theorem Makes.cases {s : Inflate σ} {x : Exchange} {answer : Outcome σ Bool ⊕ Inflate σ}
    (h : Makes D limit s x answer) : x = exchange D limit s ∧ Turned D limit s answer :=
  ⟨h.eq_exchange, h.turned ▸ inflateTurn_turned limit s⟩

/-- `inflate` makes the calls of one feed, and no others. -/
theorem inflate_eq_some_iff {decoder : Decoder σ} {input output : Bytes} {r : Outcome σ Bool} :
    decoder.inflate D input limit output = some r ↔
      ∃ exchanges, Feeds D limit ⟨decoder, input, output, false⟩ exchanges r := by
  unfold Decoder.inflate
  generalize (⟨decoder, input, output, false⟩ : Inflate σ) = s
  rw [Loop.run_eq_some_iff]
  constructor
  · intro ⟨last, hreaches, hlast⟩
    induction hreaches using Relation.ReflTransGen.head_induction_on with
    | refl => exact ⟨_, .leaves (makes_exchange hlast)⟩
    | head hagain _ ih =>
      obtain ⟨exchanges, hfeeds⟩ := ih
      exact ⟨_, .again (makes_exchange hagain) hfeeds⟩
  · intro ⟨exchanges, hfeeds⟩
    induction hfeeds with
    | @leaves s x r hlast => exact ⟨s, .refl, hlast.turned⟩
    | again hagain _ ih =>
      obtain ⟨last, hreaches, hlast⟩ := ih
      exact ⟨last, .head hagain.turned hreaches, hlast⟩

end Feeds

end WsPmd.Decoding
