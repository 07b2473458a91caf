import WsPmd.Decoder.Instance

/-!
# Where the inflater stands in its stream

The backend says nothing of whether it is inside a stream, so the decoder keeps a flag
of its own. Over every run it is right between any two backend calls: the flag is set
exactly when the inflater at hand took a byte since it was last started. An inflater
that ended its stream is called no more, and the trailer only ever completes a stream
that a byte of the peer's opened.
-/

namespace WsPmd.Decoding

open Grammar (Bytes)
open Library

/-! ## What a log says of the inflater at hand -/

/-- What was asked of an inflater since it was last started. -/
structure Usage where
  consumed : ℕ
  ofPeer : ℕ
  ended : Bool

namespace Usage

def fresh : Usage := ⟨0, 0, false⟩

def after (u : Usage) : Event → Usage
  | .exchanged .peer x => ⟨u.consumed + x.consumed, u.ofPeer + x.consumed, u.ended || x.Ends⟩
  | .exchanged .trailer x => ⟨u.consumed + x.consumed, u.ofPeer, u.ended || x.Ends⟩
  | .started => fresh
  | _ => u

end Usage

/-- The inflater at hand behind a log. -/
def usage (log : List Event) : Usage := log.foldl Usage.after .fresh

/-- Whether a stream ended in the trailer of the call in progress. -/
def endedClosing (log : List Event) : Bool := log.foldl after false
where
  after (ended : Bool) : Event → Bool
    | .called _ => false
    | .exchanged .trailer x => ended || x.Ends
    | _ => ended

theorem usage_concat (log : List Event) (event : Event) :
    usage (log ++ [event]) = (usage log).after event := by
  simp only [usage, List.foldl_append, List.foldl_cons, List.foldl_nil]

theorem endedClosing_concat (log : List Event) (event : Event) :
    endedClosing (log ++ [event]) = endedClosing.after (endedClosing log) event := by
  simp only [endedClosing, List.foldl_append, List.foldl_cons, List.foldl_nil]

/-- What each event has to be, behind those before it: an inflater that ended its stream
is called no more; the trailer goes to one that took a byte of the peer's; and a call in
whose trailer a stream ended fails, as an invalid stream where the backend call before
the answer did not itself fail under the limit of the call in progress. -/
def Law (before : List Event) : Event → Prop
  | .exchanged _ _ => (usage before).ended = false
  | .closing => (usage before).ended = false ∧ 0 < (usage before).ofPeer
  | .answered result => endedClosing before = true → ∃ error, result = .error error ∧
      (error = .invalidStream ∨ ∃ log x call,
        before = log ++ [.exchanged .trailer x] ∧ (progress before).call = some call ∧
          x.Fails call.limit (progress before).size error)
  | _ => True

/-! ## The invariant -/

section Invariant

variable {σ : Type}

/-- The flag of a decoder says where its inflater stands. -/
structure Placed (log : List Event) (decoder : Decoder σ) : Prop where
  live : (usage log).ended = false
  open_iff : decoder.streamOpen = true ↔ 0 < (usage log).consumed

/-- What a feed has brought about so far. -/
def Begun (log : List Event) : Source → (endedAStream : Bool) → Prop
  | .peer, _ => (0 < (usage log).consumed → 0 < (usage log).ofPeer) ∧ endedClosing log = false
  | .trailer, endedAStream =>
    (endedAStream = false → 0 < (usage log).ofPeer) ∧ endedClosing log = endedAStream

/-- Where a decoder stands behind a log, unless it is poisoned. -/
def Stands (log : List Event) : Phase σ → Prop
  | .rest decoder => decoder.poisoned = false →
      Placed log decoder ∧ (0 < (usage log).consumed → 0 < (usage log).ofPeer)
  | .feeding source _ s => Placed log s.decoder ∧ Begun log source s.endedAStream

section Calls

variable {D : Decompress σ} {log : List Event} {s : Inflate σ} {limit : DecompressedLimit}

/-- What one backend call and the start behind it add to a log. -/
theorem position_cases {motive : List Event → Prop} (source : Source)
    (ended : (exchange D limit s).Ends →
      motive (log ++ [.exchanged source (exchange D limit s)] ++ [.started]))
    (going : ¬ (exchange D limit s).Ends →
      motive (log ++ [.exchanged source (exchange D limit s)])) :
    motive (log ++ .exchanged source (exchange D limit s) :: (position D limit s).1) := by
  rw [List.append_cons, position_fst]
  split
  · next hends => exact ended hends
  · next hgoes =>
    rw [List.append_nil]
    exact going hgoes

/-- The usage behind one backend call. -/
theorem usage_exchange (log : List Event) (s : Inflate σ) (limit : DecompressedLimit)
    (source : Source) :
    usage (log ++ .exchanged source (exchange D limit s) :: (position D limit s).1) =
      if (exchange D limit s).Ends then .fresh
      else ⟨(usage log).consumed + (exchange D limit s).consumed,
        (usage log).ofPeer + (if source = .peer then (exchange D limit s).consumed else 0),
        (usage log).ended⟩ := by
  refine position_cases source (motive := fun log' => usage log' = _) ?_ ?_
  · intro hends
    rw [if_pos hends, usage_concat]
    rfl
  · intro hgoes
    rw [if_neg hgoes, usage_concat]
    cases source <;> simp [Usage.after, hgoes]

theorem endedClosing_exchange (source : Source) :
    endedClosing (log ++ .exchanged source (exchange D limit s) :: (position D limit s).1) =
      (endedClosing log ||
        (decide (source = .trailer) && decide (exchange D limit s).Ends)) := by
  refine position_cases source (motive := fun log' => endedClosing log' = _) ?_ ?_
  · intro hends
    rw [endedClosing_concat, endedClosing_concat]
    cases source <;> simp [endedClosing.after, hends]
  · intro hgoes
    rw [endedClosing_concat]
    cases source <;> simp [endedClosing.after, hgoes]

theorem law_exchange (s : Inflate σ) (limit : DecompressedLimit) (hlaw : Each Law log)
    (hlive : (usage log).ended = false) (source : Source) :
    Each Law (log ++ .exchanged source (exchange D limit s) :: (position D limit s).1) := by
  have hexchanged : Each Law (log ++ [.exchanged source (exchange D limit s)]) :=
    each_concat.mpr ⟨hlaw, hlive⟩
  refine position_cases source (motive := Each Law) ?_ ?_
  · exact fun _ => each_concat.mpr ⟨hexchanged, trivial⟩
  · exact fun _ => hexchanged

end Calls

theorem positioned_streamOpen (D : Decompress σ) (limit : DecompressedLimit) (s : Inflate σ) :
    (positioned D limit s).streamOpen = if (exchange D limit s).Ends then false
      else s.decoder.streamOpen || decide (0 < (exchange D limit s).consumed) := by
  unfold positioned
  split
  · rfl
  split
  · next htook => simp [htook]
  · next hnone => simp [hnone, called]

/-- The flag behind one backend call. -/
theorem Placed.positioned {D : Decompress σ} {log : List Event} {s : Inflate σ}
    (h : Placed log s.decoder) (source : Source) (limit : DecompressedLimit) :
    Placed (log ++ .exchanged source (exchange D limit s) :: (position D limit s).1)
      (positioned D limit s) := by
  have husage := usage_exchange (D := D) log s limit source
  have hopen := positioned_streamOpen D limit s
  by_cases hends : (exchange D limit s).Ends
  · rw [if_pos hends] at hopen husage
    constructor
    · rw [husage]
      rfl
    · rw [husage, hopen]
      simp [Usage.fresh]
  · rw [if_neg hends] at hopen husage
    constructor
    · rw [husage]
      exact h.live
    · rw [husage, hopen, Bool.or_eq_true, h.open_iff, decide_eq_true_iff]
      simp only
      omega

theorem Begun.exchange {D : Decompress σ} {log : List Event} {source : Source} {ended : Bool}
    (h : Begun log source ended) (limit : DecompressedLimit) (s : Inflate σ) :
    Begun (log ++ .exchanged source (Decoding.exchange D limit s) :: (position D limit s).1) source
      (ended || decide (Decoding.exchange D limit s).Ends) := by
  cases source with
  | peer =>
    obtain ⟨hpeer, hclosing⟩ := h
    refine ⟨?_, by rw [endedClosing_exchange, hclosing]; rfl⟩
    rw [usage_exchange]
    split
    · exact fun hpos => absurd hpos (Nat.lt_irrefl 0)
    · simp only [if_true]
      omega
  | trailer =>
    obtain ⟨hpeer, hclosing⟩ := h
    refine ⟨fun hnone => ?_, by rw [endedClosing_exchange, hclosing]; simp⟩
    obtain ⟨hended, hends⟩ := Bool.or_eq_false_iff.mp hnone
    rw [usage_exchange, if_neg (of_decide_eq_false hends)]
    exact hpeer hended

theorem Placed.of_usage {log log' : List Event} {before after : Decoder σ}
    (h : Placed log before) (husage : usage log' = usage log)
    (hopen : after.streamOpen = before.streamOpen) : Placed log' after := by
  constructor
  · rw [husage]
    exact h.live
  · rw [husage, hopen]
    exact h.open_iff

/-- Nothing of the backend's, and no stream ended in a trailer. -/
theorem law_answered {log : List Event} (hlaw : Each Law log) (hclosing : endedClosing log = false)
    (result : Except CodecError Bytes) : Each Law (log ++ [.answered result]) := by
  refine each_concat.mpr ⟨hlaw, fun htrue => ?_⟩
  rw [hclosing] at htrue
  cases htrue

theorem stands_poisoned (log : List Event) (decoder : Decoder σ) :
    Stands log (.poisoned decoder) := by
  intro hlive
  cases hlive

/-- **What a feed that answered leaves.** -/
theorem settle_stands (D : Decompress σ) {log : List Event} {source : Source} {ended : Bool}
    (call : Call) {fed : Outcome σ Bool} (hlaw : Each Law log) (hplaced : Placed log fed.decoder)
    (hbegun : Begun log source ended) :
    Each Law (log ++ (settle D source call fed ended).1) ∧
      Stands (log ++ (settle D source call fed ended).1) (settle D source call fed ended).2 := by
  have hanswered (result : Except CodecError Bytes) :
      usage (log ++ [.answered result]) = usage log := usage_concat _ _
  cases source with
  | peer =>
    obtain ⟨hpeer, hclosing⟩ := hbegun
    simp only [settle]
    split
    · split
      · next hopen =>
        have hpos := hpeer (hplaced.open_iff.mp hopen)
        have husage : usage (log ++ [.closing]) = usage log := usage_concat _ _
        refine ⟨each_concat.mpr ⟨hlaw, hplaced.live, hpos⟩, hplaced.of_usage husage rfl, ?_, ?_⟩
        · rw [husage]
          exact fun _ => hpos
        · rw [endedClosing_concat, hclosing]
          rfl
      · exact ⟨law_answered hlaw hclosing _, stands_poisoned _ _⟩
    · refine ⟨law_answered hlaw hclosing _, fun _ => ⟨hplaced.of_usage (hanswered _) rfl, ?_⟩⟩
      rw [hanswered]
      exact hpeer
  | trailer =>
    obtain ⟨hpeer, hclosing⟩ := hbegun
    simp only [settle]
    split
    · exact ⟨each_concat.mpr ⟨hlaw, fun _ => ⟨_, rfl, Or.inl rfl⟩⟩, stands_poisoned _ _⟩
    · next hended =>
      rw [Bool.not_eq_true] at hended
      rw [hended] at hclosing
      split
      · -- The inflater starts over between messages, behind a trailer that ended no stream.
        have hstarted : usage (log ++ [.started] ++ [.answered (.ok fed.output)]) = .fresh := by
          rw [usage_concat, usage_concat]
          rfl
        have hclosed : endedClosing (log ++ [.started]) = false := by
          rw [endedClosing_concat, hclosing]
          rfl
        have hlaw' : Each Law (log ++ [.started]) := each_concat.mpr ⟨hlaw, trivial⟩
        simp only [startOver, ← List.append_assoc]
        refine ⟨law_answered hlaw' hclosed _, fun _ => ⟨⟨?_, ?_⟩, ?_⟩⟩
        · rw [hstarted]
          rfl
        · rw [hstarted]
          exact ⟨fun hopen => absurd hopen Bool.false_ne_true,
            fun hpos => absurd hpos (Nat.lt_irrefl 0)⟩
        · rw [hstarted]
          exact fun hpos => absurd hpos (Nat.lt_irrefl 0)
      · refine ⟨law_answered hlaw hclosing _, fun _ => ⟨hplaced.of_usage (hanswered _) rfl, ?_⟩⟩
        rw [hanswered]
        exact fun _ => hpeer hended

/-- A call that fails with its last exchange. -/
theorem law_failed {D : Decompress σ} {log : List Event} {source : Source} {call : Call}
    {s : Inflate σ} {error : CodecError} (hlaw : Each Law log) (hlive : (usage log).ended = false)
    (hbegun : Begun log source s.endedAStream) (hproceeds : Proceeds log source call s)
    (hfails : (exchange D call.limit s).Fails call.limit
      (saturatingAdd s.decoder.delivered (s.output ++ given D call.limit s).length) error) :
    Each Law (log ++ [.exchanged source (exchange D call.limit s), .answered (.error error)]) := by
  rw [List.append_cons]
  refine each_concat.mpr ⟨each_concat.mpr ⟨hlaw, hlive⟩, fun hclosing => ?_⟩
  cases source with
  | peer =>
    rw [endedClosing_concat, hbegun.2] at hclosing
    cases hclosing
  | trailer =>
    refine ⟨_, rfl, Or.inr ⟨log, _, call, rfl, ?_, ?_⟩⟩
    · rw [progress_concat]
      exact hproceeds.calling
    · rwa [hproceeds.size_eq]

/-- **What a turn leaves.** -/
theorem turn_stands (D : Decompress σ) {log : List Event} {source : Source} (call : Call)
    {s : Inflate σ} (hlaw : Each Law log) (hproceeds : Proceeds log source call s)
    (hplaced : Placed log s.decoder) (hbegun : Begun log source s.endedAStream) :
    Each Law (log ++ (turn D source call s).1) ∧
      Stands (log ++ (turn D source call s).1) (turn D source call s).2 := by
  have hexchange := law_exchange (D := D) s call.limit hlaw hplaced.live source
  have hpositioned := hplaced.positioned (D := D) source call.limit
  have hbegun' := hbegun.exchange (D := D) call.limit s
  have hturns := turn_turns (D := D) source call s
  generalize (turn D source call s).1 = events, (turn D source call s).2 = phase at hturns
  cases hturns with
  | failed hfails =>
    exact ⟨law_failed hlaw hplaced.live hbegun hproceeds hfails, stands_poisoned _ _⟩
  | settled _ hdecoder _ hended =>
    rw [← hdecoder] at hpositioned
    rw [← hended] at hbegun'
    rw [← List.append_assoc]
    exact settle_stands D call hexchange hpositioned hbegun'
  | again hdecoder _ hended =>
    rw [← hdecoder] at hpositioned
    rw [← hended] at hbegun'
    exact ⟨hexchange, hpositioned, hbegun'⟩

/-- **What a step leaves.** -/
theorem advances_stands {D : Decompress σ} {log events : List Event} {before after : Phase σ}
    (hcounts : Counts log before) (hlaw : Each Law log) (h : Stands log before)
    (hstep : Advances D before events after) :
    Each Law (log ++ events) ∧ Stands (log ++ events) after := by
  cases hstep with
  | @called decoder call hlive =>
    have husage : usage (log ++ [.called call]) = usage log := usage_concat _ _
    obtain ⟨hplaced, hpeer⟩ := h hlive
    refine ⟨each_concat.mpr ⟨hlaw, trivial⟩, hplaced.of_usage husage rfl, ?_, ?_⟩
    · rw [husage]
      exact hpeer
    · rw [endedClosing_concat]
      rfl
  | @refused decoder call hpoisoned =>
    have hlaw' : Each Law (log ++ [.called call]) := each_concat.mpr ⟨hlaw, trivial⟩
    rw [List.append_cons]
    refine ⟨law_answered hlaw' ?_ _, fun hlive => ?_⟩
    · rw [endedClosing_concat]
      rfl
    · rw [hpoisoned] at hlive
      cases hlive
  | turned source call s => exact turn_stands D call hlaw hcounts h.1 h.2

/-- What holds of every trace from a decoder just minted. -/
structure Keeps (D : Decompress σ) (config : InflaterConfig) (log : List Event)
    (phase : Phase σ) : Prop where
  recorded : Each (Recorded D config) log
  atHand : AtHand D config log phase.decoder
  counts : Counts log phase
  law : Each Law log
  stands : Stands log phase

theorem trace_keeps {D : Decompress σ} {bits : ℕ} {takeover : Bool} {log : List Event}
    {phase : Phase σ}
    (h : Trace (Advances D) (.rest (Decoder.forPeer D bits takeover)) log phase) :
    Keeps D (.forPeerWindow bits) log phase := by
  refine h.invariant (Keeps D (.forPeerWindow bits)) ?_ ?_
  · refine ⟨each_nil _, ⟨rfl, rfl⟩, fun _ => rfl, each_nil _, fun _ => ⟨⟨rfl, nofun, ?_⟩, ?_⟩⟩
    · exact fun hpos => absurd hpos (Nat.lt_irrefl 0)
    · exact fun hpos => absurd hpos (Nat.lt_irrefl 0)
  · intro log before events after h hstep
    obtain ⟨hrecorded, hatHand⟩ := advances_atHand h.recorded h.atHand hstep
    obtain ⟨hlaw, hstands⟩ := advances_stands h.counts h.law h.stands hstep
    exact ⟨hrecorded, hatHand, advances_counts h.counts hstep, hlaw, hstands⟩

end Invariant

/-- **The decoder knows where its inflater stands.** Every run is a trace, and at any
point of any trace, a call that never returns included, the inflater is the one the log
tells of: built once, moved by the calls the log records, and reset or rebuilt wherever it
says that one was started. Unless the decoder is poisoned, its flag says whether the
inflater at hand took a byte since it was last started and has not ended its stream. An
inflater that ended its stream is called no more. The trailer is fed from an inflater on
that took a byte of the peer's. And a call in whose trailer a stream ends fails, as an
invalid stream unless its last backend call failed by itself: refused, stalled, or past
the limit of this very call with the message at the size the log comes to. -/
theorem stream_position {σ : Type} (D : Decompress σ) (peerMaxWindowBits : ℕ)
    (peerNoContextTakeover : Bool) :
    (∀ calls results last,
      run D (Decoder.forPeer D peerMaxWindowBits peerNoContextTakeover) calls =
        some (results, last) →
      ∃ log, Trace (Advances D)
          (.rest (Decoder.forPeer D peerMaxWindowBits peerNoContextTakeover)) log (.rest last) ∧
        asked log = calls ∧ answers log = results) ∧
    ∀ log phase, Trace (Advances D)
        (.rest (Decoder.forPeer D peerMaxWindowBits peerNoContextTakeover)) log phase →
      phase.decoder.inflater = inflaterAfter D (.forPeerWindow peerMaxWindowBits) log ∧
      (phase.Live → (phase.decoder.streamOpen = true ↔
        0 < (usage log).consumed ∧ (usage log).ended = false)) ∧
      (∀ before source x after, log = before ++ .exchanged source x :: after →
        x.Records D (inflaterAfter D (.forPeerWindow peerMaxWindowBits) before) ∧
          (usage before).ended = false) ∧
      (∀ before after, log = before ++ .closing :: after →
        (usage before).ended = false ∧ 0 < (usage before).ofPeer) ∧
      ∀ before result after, log = before ++ .answered result :: after →
        endedClosing before = true → ∃ error, result = .error error ∧
          (error = .invalidStream ∨ ∃ earlier x call,
            before = earlier ++ [.exchanged .trailer x] ∧ (progress before).call = some call ∧
              x.Fails call.limit (progress before).size error) := by
  refine ⟨fun calls results last h => trace_of_run h, fun log phase h => ?_⟩
  obtain ⟨hrecorded, hatHand, -, hlaw, hstands⟩ := trace_keeps h
  refine ⟨hatHand.inflater, fun hlive => ?_,
    fun before source x after he => ⟨hrecorded _ _ _ he, hlaw _ _ _ he⟩,
    fun before after he => hlaw _ _ _ he, fun before result after he => hlaw _ _ _ he⟩
  have hplaced : Placed log phase.decoder := by
    cases phase with
    | rest decoder => exact (hstands hlive).1
    | feeding source call s => exact hstands.1
  rw [hplaced.open_iff]
  exact ⟨fun hpos => ⟨hpos, hplaced.live⟩, fun h => h.1⟩

/-- One byte in a fragment that is not the last, over the backend that copies. -/
theorem stream_position_copy :
    ∃ log last, Trace (Advances copyDecompress)
        (.rest (Decoder.forPeer copyDecompress 15 false)) log (.rest last) ∧
      asked log = [⟨[7], false, ⟨1, by decide⟩⟩] ∧
      last.inflater = inflaterAfter copyDecompress (.forPeerWindow 15) log ∧
      (last.poisoned = false → (last.streamOpen = true ↔
        0 < (usage log).consumed ∧ (usage log).ended = false)) := by
  have hfit : 1 < usizeMax := by decide
  have hreturns : ∃ r, (Decoder.forPeer copyDecompress 15 false).decompress copyDecompress [7]
      false ⟨1, hfit.le⟩ = some r := decompress_returns hfit _ _ _
  obtain ⟨⟨result, next⟩, hcall⟩ := hreturns
  have hrun : run copyDecompress (Decoder.forPeer copyDecompress 15 false)
      [⟨[7], false, ⟨1, hfit.le⟩⟩] = some ([result], next) := run_cons hcall (run_nil _ _)
  obtain ⟨hruns, htraces⟩ := stream_position copyDecompress 15 false
  obtain ⟨log, htrace, hasked, -⟩ := hruns _ _ _ hrun
  obtain ⟨hinflater, hopen, -⟩ := htraces log _ htrace
  exact ⟨log, next, htrace, hasked, hinflater, hopen⟩

/-- A backend that copies its input, and reports the end of a stream at an `ff`. -/
def endingDecompress : Decompress (ℕ × ℕ) where
  newWithWindowBits := copyDecompress.newWithWindowBits
  reset := copyDecompress.reset
  totalIn := copyDecompress.totalIn
  totalOut := copyDecompress.totalOut
  decompress := fun totals input room =>
    { copyDecompress.decompress totals input room with
      status := if input.contains 0xff then some .streamEnd else some .ok }

/-- One byte in a final fragment, under a ceiling of three. -/
def overrun : Call := ⟨[7], true, ⟨3, by decide⟩⟩

/-- The decoder behind that byte. -/
def overrunOpened : Decoder (ℕ × ℕ) :=
  { Decoder.forPeer endingDecompress 15 false with inflater := (1, 1), streamOpen := true }

theorem overrun_fed : Decoder.inflateTurn endingDecompress overrun.limit
    ⟨Decoder.forPeer endingDecompress 15 false, overrun.input, [], false⟩ =
      .inr ⟨overrunOpened, [], [7], false⟩ := by
  rfl

theorem overrun_drained : Decoder.inflateTurn endingDecompress overrun.limit
    ⟨overrunOpened, [], [7], false⟩ = .inl ⟨.ok false, overrunOpened, [7]⟩ := by
  rfl

theorem overrun_fails : Decoder.inflateTurn endingDecompress overrun.limit
    ⟨overrunOpened, trailer, [7], false⟩ =
      .inl ⟨.error (.messageTooLong 4 3), { overrunOpened with inflater := (4, 4) },
        [7, 0, 0, 0xff]⟩ := by
  rfl

/-- The stream ends in the turn of the trailer that runs past the ceiling, and the call
says that instead. -/
theorem stream_position_tooLong :
    ∃ before last, run endingDecompress (Decoder.forPeer endingDecompress 15 false)
        [overrun] = some ([.error (.messageTooLong 4 3)], last) ∧
      Trace (Advances endingDecompress) (.rest (Decoder.forPeer endingDecompress 15 false))
        (before ++ [.answered (.error (.messageTooLong 4 3))]) (.rest last) ∧
      endedClosing before = true := by
  have hpeer : turn endingDecompress .peer overrun
      ⟨Decoder.forPeer endingDecompress 15 false, overrun.input, [], false⟩ =
      ([.exchanged .peer ⟨0, [7], 4, 1, 1, [7], some .ok⟩],
        .feeding .peer overrun ⟨overrunOpened, [], [7], false⟩) := by
    simp only [turn, overrun_fed]
    rfl
  have hdrained : turn endingDecompress .peer overrun ⟨overrunOpened, [], [7], false⟩ =
      ([.exchanged .peer ⟨1, [], 3, 0, 0, [], some .ok⟩, .closing],
        .feeding .trailer overrun ⟨overrunOpened, trailer, [7], false⟩) := by
    simp only [turn, overrun_drained]
    rfl
  have hfails : turn endingDecompress .trailer overrun ⟨overrunOpened, trailer, [7], false⟩ =
      ([.exchanged .trailer ⟨1, trailer, 3, 3, 3, [0, 0, 0xff], some .streamEnd⟩,
        .answered (.error (.messageTooLong 4 3))],
        .poisoned { overrunOpened with inflater := (4, 4) }) := by
    simp only [turn, overrun_fails]
    rfl
  have hcalled : Advances endingDecompress (.rest (Decoder.forPeer endingDecompress 15 false))
      [.called overrun] (.ofCall _ overrun) := .called _ rfl
  have htrace := Trace.head hcalled (.head (advances_of_turn hpeer)
    (.head (advances_of_turn hdrained) (.single (advances_of_turn hfails))))
  have hfed : (Decoder.forPeer endingDecompress 15 false).inflate endingDecompress overrun.input
      overrun.limit [] = some ⟨.ok false, overrunOpened, [7]⟩ :=
    (Loop.run_again overrun_fed).trans (Loop.run_stop overrun_drained)
  have hover : overrunOpened.inflate endingDecompress trailer overrun.limit [7] = _ :=
    Loop.run_stop overrun_fails
  refine ⟨[.called overrun, .exchanged .peer ⟨0, [7], 4, 1, 1, [7], some .ok⟩,
    .exchanged .peer ⟨1, [], 3, 0, 0, [], some .ok⟩, .closing,
    .exchanged .trailer ⟨1, trailer, 3, 3, 3, [0, 0, 0xff], some .streamEnd⟩], _,
    run_cons ?_ (run_nil _ _), htrace, rfl⟩
  have hdecode : (Decoder.forPeer endingDecompress 15 false).decode endingDecompress overrun.input
      overrun.finalFragment overrun.limit [] = some ⟨.error (.messageTooLong 4 3),
        { overrunOpened with inflater := (4, 4) }, [7, 0, 0, 0xff]⟩ := by
    simp only [Decoder.decode, hfed, Option.bind_eq_bind, Option.bind_some]
    exact Option.bind_eq_some_iff.mpr ⟨_, hover, rfl⟩
  unfold Decoder.decompress
  exact Option.bind_eq_some_iff.mpr ⟨_, hdecode, rfl⟩

end WsPmd.Decoding
