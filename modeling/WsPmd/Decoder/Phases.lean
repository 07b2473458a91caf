import WsPmd.Decoder.Ceiling
import WsPmd.Library.Trace

/-!
# The decoder from one backend call to the next

Between two calls of the host a decoder is at rest. A call of the host is a feed of its
bytes and, for a final fragment, a feed of the trailer behind it; within a feed the
decoder is about to make a backend call, and one turn makes it. Every step reports what
happened: what the host called and what it was answered, what was asked of the backend,
where the trailer begins and where an inflater starts over. Every run of the decoder is
a trace of these steps.
-/

namespace WsPmd.Decoding

open Grammar (Bytes)
open Library

/-- Whose bytes a feed is of. -/
inductive Source where
  | peer
  | trailer
  deriving DecidableEq

inductive Event where
  | called (call : Call)
  | exchanged (source : Source) (x : Exchange)
  /-- The inflater is started over, in place or rebuilt. -/
  | started
  /-- The trailer is fed from here on. -/
  | closing
  | answered (result : Except CodecError Bytes)

/-- What the host called, in order. -/
def asked (log : List Event) : List Call :=
  log.filterMap fun
    | .called call => some call
    | _ => none

/-- What it was answered, in order. -/
def answers (log : List Event) : List (Except CodecError Bytes) :=
  log.filterMap fun
    | .answered result => some result
    | _ => none

@[simp] theorem asked_append (log log' : List Event) :
    asked (log ++ log') = asked log ++ asked log' := List.filterMap_append

@[simp] theorem answers_append (log log' : List Event) :
    answers (log ++ log') = answers log ++ answers log' := List.filterMap_append

inductive Phase (σ : Type) where
  | rest (decoder : Decoder σ)
  | feeding (source : Source) (call : Call) (s : Inflate σ)

namespace Phase

variable {σ : Type}

def decoder : Phase σ → Decoder σ
  | .rest decoder => decoder
  | .feeding _ _ s => s.decoder

/-- A decoder in a call, or at rest and not poisoned. -/
def Live : Phase σ → Prop
  | .rest decoder => decoder.poisoned = false
  | .feeding _ _ _ => True

/-- Where a call of the host begins. -/
def ofCall (decoder : Decoder σ) (call : Call) : Phase σ :=
  .feeding .peer call ⟨decoder, call.input, [], false⟩

/-- Where the feed of the trailer begins. -/
def ofTrailer (call : Call) (fed : Outcome σ Bool) : Phase σ :=
  .feeding .trailer call ⟨fed.decoder, trailer, fed.output, false⟩

/-- Where a call that failed ends. -/
def poisoned (decoder : Decoder σ) : Phase σ := .rest { decoder with poisoned := true }

/-- Where a call that answered ends. -/
def delivered (decoder : Decoder σ) (delivered : ℕ) : Phase σ := .rest { decoder with delivered }

end Phase

section Steps

variable {σ : Type} (D : Decompress σ)

/-- Start the inflater over, and say so. -/
def startOver (decoder : Decoder σ) : List Event × Decoder σ :=
  ([.started], decoder.reinitialise D)

/-- Where a turn's call leaves the stream: ended and started over, begun, or as it was. -/
def position (limit : DecompressedLimit) (s : Inflate σ) : List Event × Decoder σ :=
  if (exchange D limit s).Ends then startOver D (called D limit s)
  else if 0 < (exchange D limit s).consumed then ([], { called D limit s with streamOpen := true })
  else ([], called D limit s)

/-- What becomes of a call once one of its feeds has answered. -/
def settle (source : Source) (call : Call) (fed : Outcome σ Bool) (ended : Bool) :
    List Event × Phase σ :=
  match source with
  | .peer =>
    if call.finalFragment then
      if fed.decoder.streamOpen then ([.closing], .ofTrailer call fed)
      else ([.answered (.error .invalidStream)], .poisoned fed.decoder)
    else ([.answered (.ok fed.output)],
      .delivered fed.decoder (saturatingAdd fed.decoder.delivered fed.output.length))
  | .trailer =>
    if ended then ([.answered (.error .invalidStream)], .poisoned fed.decoder)
    else if fed.decoder.resetBetweenMessages then
      let (events, decoder) := startOver D fed.decoder
      (events ++ [.answered (.ok fed.output)], .delivered decoder 0)
    else ([.answered (.ok fed.output)], .delivered fed.decoder 0)

/-- One turn of a feed: one backend call, and what the decoder makes of it. -/
def turn (source : Source) (call : Call) (s : Inflate σ) : List Event × Phase σ :=
  let x := exchange D call.limit s
  match Decoder.inflateTurn D call.limit s with
  | .inr s' =>
    let (events, decoder) := position D call.limit s
    (.exchanged source x :: events, .feeding source call { s' with decoder })
  | .inl fed =>
    match fed.result with
    | .error error =>
      ([.exchanged source x, .answered (.error error)], .poisoned fed.decoder)
    | .ok ended =>
      let (events, decoder) := position D call.limit s
      let (events', phase) := settle D source call { fed with decoder } ended
      (.exchanged source x :: events ++ events', phase)

/-- The host makes a call on a decoder at rest, or the decoder makes one on its backend. -/
inductive Advances : Phase σ → List Event → Phase σ → Prop where
  | called {decoder : Decoder σ} (call : Call) : decoder.poisoned = false →
      Advances (.rest decoder) [.called call] (.ofCall decoder call)
  | refused {decoder : Decoder σ} (call : Call) : decoder.poisoned = true →
      Advances (.rest decoder) [.called call, .answered (.error .poisoned)] (.rest decoder)
  | turned (source : Source) (call : Call) (s : Inflate σ) :
      Advances (.feeding source call s) (turn D source call s).1 (turn D source call s).2

end Steps

/-! ## Every run is a trace -/

section Runs

variable {σ : Type} {D : Decompress σ} {call : Call}

theorem position_snd (limit : DecompressedLimit) (s : Inflate σ) :
    (position D limit s).2 = positioned D limit s := by
  unfold position positioned
  split
  · rfl
  split <;> rfl

/-- The inflater is started over where the call ended its stream, and nowhere else. -/
theorem position_fst (limit : DecompressedLimit) (s : Inflate σ) :
    (position D limit s).1 = if (exchange D limit s).Ends then [.started] else [] := by
  unfold position
  split
  · rfl
  split <;> rfl

theorem turn_inr {source : Source} {s s' : Inflate σ}
    (h : Decoder.inflateTurn D call.limit s = .inr s') :
    turn D source call s =
      (.exchanged source (exchange D call.limit s) :: (position D call.limit s).1,
        .feeding source call s') := by
  have hturned := inflateTurn_turned (D := D) call.limit s
  rw [h] at hturned
  cases hturned with
  | moved _ _ _ => simp only [turn, h, position_snd]

theorem turn_inl {source : Source} {s : Inflate σ} {fed : Outcome σ Bool} {ended : Bool}
    (h : Decoder.inflateTurn D call.limit s = .inl fed) (hok : fed.result = .ok ended) :
    turn D source call s =
      (.exchanged source (exchange D call.limit s) :: (position D call.limit s).1 ++
          (settle D source call fed ended).1, (settle D source call fed ended).2) := by
  have hturned := inflateTurn_turned (D := D) call.limit s
  rw [h] at hturned
  cases hturned with
  | refused _ => cases hok
  | stalled _ _ _ _ => cases hok
  | tooLong _ _ => cases hok
  | drained _ _ _ _ _ =>
    obtain rfl := Except.ok.inj hok
    simp only [turn, h, position_snd]

/-- What a turn reports, and the phase it leaves. -/
inductive Turns (D : Decompress σ) (source : Source) (call : Call) (s : Inflate σ) :
    List Event → Phase σ → Prop where
  | failed {error : CodecError} :
      (exchange D call.limit s).Fails call.limit
        (saturatingAdd s.decoder.delivered (s.output ++ given D call.limit s).length) error →
      Turns D source call s
        [.exchanged source (exchange D call.limit s), .answered (.error error)]
        (.poisoned (called D call.limit s))
  | settled {fed : Outcome σ Bool} {ended : Bool} :
      (exchange D call.limit s).produced = 0 →
      fed.decoder = positioned D call.limit s → fed.output = s.output →
      ended = (s.endedAStream || decide (exchange D call.limit s).Ends) →
      Turns D source call s
        (.exchanged source (exchange D call.limit s) :: (position D call.limit s).1 ++
          (settle D source call fed ended).1)
        (settle D source call fed ended).2
  | again {s' : Inflate σ} :
      s'.decoder = positioned D call.limit s → s'.output = s.output ++ given D call.limit s →
      s'.endedAStream = (s.endedAStream || decide (exchange D call.limit s).Ends) →
      Turns D source call s
        (.exchanged source (exchange D call.limit s) :: (position D call.limit s).1)
        (.feeding source call s')

/-- **Everything a turn of a feed can do.** -/
theorem turn_turns (source : Source) (call : Call) (s : Inflate σ) :
    Turns D source call s (turn D source call s).1 (turn D source call s).2 := by
  have hturned := inflateTurn_turned (D := D) call.limit s
  generalize hturn : Decoder.inflateTurn D call.limit s = answer at hturned
  cases hturned with
  | refused hrefused =>
    simp only [turn, hturn]
    exact .failed (.refused hrefused)
  | stalled hstatus hconsumed hproduced hleft =>
    simp only [turn, hturn]
    exact .failed (.stalled hstatus hconsumed hproduced hleft)
  | tooLong hanswers hsize =>
    simp only [turn, hturn]
    exact .failed (.tooLong hanswers hsize)
  | drained _ _ _ hproduced _ =>
    rw [turn_inl hturn rfl]
    exact .settled hproduced rfl rfl rfl
  | moved _ _ _ =>
    rw [turn_inr hturn]
    exact .again rfl rfl rfl

/-- One turn, as a step. -/
theorem advances_of_turn {source : Source} {s : Inflate σ} {events : List Event} {phase : Phase σ}
    (h : turn D source call s = (events, phase)) :
    Advances D (.feeding source call s) events phase := by
  have hturned := Advances.turned (D := D) source call s
  rwa [h] at hturned

/-- Events the host does not see. -/
structure Unseen (log : List Event) : Prop where
  asked_eq : asked log = []
  answers_eq : answers log = []

theorem Unseen.append {log log' : List Event} (h : Unseen log) (h' : Unseen log') :
    Unseen (log ++ log') := by
  constructor
  · rw [asked_append, h.asked_eq, h'.asked_eq, List.append_nil]
  · rw [answers_append, h.answers_eq, h'.answers_eq, List.append_nil]

theorem unseen_exchange (source : Source) (limit : DecompressedLimit) (s : Inflate σ) :
    Unseen (.exchanged source (exchange D limit s) :: (position D limit s).1) := by
  rw [position_fst]
  split
  · exact ⟨rfl, rfl⟩
  · exact ⟨rfl, rfl⟩

/-- The turns of a feed, up to the one it leaves with. -/
theorem trace_of_reaches (source : Source) {s s' : Inflate σ}
    (h : Loop.Reaches (Decoder.inflateTurn D call.limit) s s') :
    ∃ log, Unseen log ∧
      Trace (Advances D) (.feeding source call s) log (.feeding source call s') := by
  induction h with
  | refl => exact ⟨[], ⟨rfl, rfl⟩, .refl _⟩
  | @tail s' s'' _ hagain ih =>
    obtain ⟨log, hunseen, htrace⟩ := ih
    exact ⟨_, hunseen.append (unseen_exchange (D := D) source call.limit s'),
      .tail htrace (advances_of_turn (turn_inr hagain))⟩

/-- A feed that fails. -/
theorem trace_of_failed (source : Source) {s : Inflate σ} {fed : Outcome σ Bool}
    {error : CodecError} (h : Loop.run (Decoder.inflateTurn D call.limit) s = some fed)
    (herror : fed.result = .error error) :
    ∃ log, Unseen log ∧ Trace (Advances D) (.feeding source call s)
      (log ++ [.answered (.error error)]) (.poisoned fed.decoder) := by
  obtain ⟨last, hreaches, hlast⟩ := Loop.run_eq_some_iff.mp h
  obtain ⟨log, hunseen, htrace⟩ := trace_of_reaches source hreaches
  have hmove := Advances.turned (D := D) source call last
  unfold turn at hmove
  simp only [hlast, herror] at hmove
  refine ⟨log ++ [.exchanged source (exchange D call.limit last)],
    hunseen.append ⟨rfl, rfl⟩, ?_⟩
  rw [List.append_assoc]
  exact .tail htrace hmove

/-- A feed that answers. -/
theorem trace_of_fed (source : Source) {s : Inflate σ} {fed : Outcome σ Bool} {ended : Bool}
    (h : Loop.run (Decoder.inflateTurn D call.limit) s = some fed)
    (hok : fed.result = .ok ended) :
    ∃ log, Unseen log ∧ Trace (Advances D) (.feeding source call s)
      (log ++ (settle D source call fed ended).1) (settle D source call fed ended).2 := by
  obtain ⟨last, hreaches, hlast⟩ := Loop.run_eq_some_iff.mp h
  obtain ⟨log, hunseen, htrace⟩ := trace_of_reaches source hreaches
  refine ⟨_, hunseen.append (unseen_exchange (D := D) source call.limit last), ?_⟩
  rw [List.append_assoc]
  exact .tail htrace (advances_of_turn (turn_inl hlast hok))

/-- A feed of the trailer that ended no stream. -/
theorem trace_of_closed {fed closed : Outcome σ Bool}
    (h : fed.decoder.inflate D trailer call.limit fed.output = some closed)
    (hok : closed.result = .ok false) :
    ∃ log, Unseen log ∧ Trace (Advances D) (.ofTrailer call fed)
      (log ++ [.answered (.ok closed.output)])
      (.delivered (if closed.decoder.resetBetweenMessages then closed.decoder.reinitialise D
        else closed.decoder) 0) := by
  obtain ⟨log, hunseen, htrace⟩ := trace_of_fed .trailer h hok
  simp only [settle, Bool.false_eq_true, if_false] at htrace
  split
  · next hreset =>
    rw [if_pos hreset] at htrace
    have hstarted : Unseen [Event.started] := ⟨rfl, rfl⟩
    refine ⟨_, hunseen.append hstarted, ?_⟩
    rw [List.append_assoc]
    exact htrace
  · next hkeeps =>
    rw [if_neg hkeeps] at htrace
    exact ⟨log, hunseen, htrace⟩

/-- The feed of the peer's bytes, where the trailer is fed behind it. -/
theorem trace_of_opened {decoder : Decoder σ} {fed : Outcome σ Bool} {ended : Bool}
    (hfed : decoder.inflate D call.input call.limit [] = some fed) (hok : fed.result = .ok ended)
    (hfinal : call.finalFragment = true) (hopen : fed.decoder.streamOpen = true) :
    ∃ log, Unseen log ∧ Trace (Advances D) (.ofCall decoder call) log (.ofTrailer call fed) := by
  obtain ⟨log, hunseen, htrace⟩ := trace_of_fed .peer hfed hok
  simp only [settle, hfinal, hopen, if_true] at htrace
  exact ⟨_, hunseen.append ⟨rfl, rfl⟩, htrace⟩

theorem Unseen.behind {log : List Event} {result : Except CodecError Bytes} {p q r : Phase σ}
    (hunseen : Unseen log) (htrace : Trace (Advances D) p log q)
    (hrest : ∃ log', Unseen log' ∧ Trace (Advances D) q (log' ++ [.answered result]) r) :
    ∃ log, Unseen log ∧ Trace (Advances D) p (log ++ [.answered result]) r := by
  obtain ⟨log', hunseen', htrace'⟩ := hrest
  refine ⟨_, hunseen.append hunseen', ?_⟩
  rw [List.append_assoc]
  exact htrace.trans htrace'

/-- **One call is a trace**, and the last thing it does is to answer. -/
theorem trace_of_decompress {decoder next : Decoder σ} (hlive : decoder.poisoned = false)
    {result : Except CodecError Bytes}
    (h : decoder.decompress D call.input call.finalFragment call.limit = some (result, next)) :
    ∃ log, Unseen log ∧
      Trace (Advances D) (.ofCall decoder call) (log ++ [.answered result]) (.rest next) := by
  cases decompress_settled hlive h with
  | failed hdecoded herror =>
    cases hdecoded with
    | failed hfed hfailed =>
      obtain rfl := Except.error.inj herror
      exact trace_of_failed .peer hfed hfailed
    | more _ _ _ => cases herror
    | unopened hfed hok hfinal hopen =>
      obtain rfl := Except.error.inj herror
      obtain ⟨log, hunseen, htrace⟩ := trace_of_fed .peer hfed hok
      simp only [settle, hfinal, hopen, Bool.false_eq_true, if_true, if_false] at htrace
      exact ⟨log, hunseen, htrace⟩
    | closingFailed hfed hok hfinal hopen hclosed hfailed =>
      obtain rfl := Except.error.inj herror
      obtain ⟨log, hunseen, htrace⟩ := trace_of_opened hfed hok hfinal hopen
      exact hunseen.behind htrace (trace_of_failed .trailer hclosed hfailed)
    | endedClosing hfed hok hfinal hopen hclosed hended =>
      obtain rfl := Except.error.inj herror
      obtain ⟨log, hunseen, htrace⟩ := trace_of_opened hfed hok hfinal hopen
      exact hunseen.behind htrace (trace_of_fed .trailer hclosed hended)
    | closed _ _ _ _ _ _ => cases herror
  | answered hdecoded hok =>
    cases hdecoded with
    | failed _ _ => cases hok
    | more hfed hok' hmore =>
      obtain ⟨log, hunseen, htrace⟩ := trace_of_fed .peer hfed hok'
      simp only [settle, hmore, Bool.false_eq_true, if_false] at htrace ⊢
      exact ⟨log, hunseen, htrace⟩
    | unopened _ _ _ _ => cases hok
    | closingFailed _ _ _ _ _ _ => cases hok
    | endedClosing _ _ _ _ _ _ => cases hok
    | closed hfed hok' hfinal hopen hclosed hended =>
      obtain ⟨log, hunseen, htrace⟩ := trace_of_opened hfed hok' hfinal hopen
      rw [if_pos hfinal]
      exact hunseen.behind htrace (trace_of_closed hclosed hended)

/-- **Every run is a trace**, of the calls the host made and the answers it was given. -/
theorem trace_of_run {calls : List Call} :
    ∀ {decoder last : Decoder σ} {results : List (Except CodecError Bytes)},
      run D decoder calls = some (results, last) →
      ∃ log, Trace (Advances D) (.rest decoder) log (.rest last) ∧
        asked log = calls ∧ answers log = results := by
  induction calls with
  | nil =>
    intro decoder last results h
    obtain ⟨rfl, rfl⟩ := Prod.mk.inj (Option.some.inj h)
    exact ⟨[], .refl _, rfl, rfl⟩
  | cons call calls ih =>
    intro decoder last results h
    simp only [run, Option.bind_eq_bind, Option.bind_eq_some_iff] at h
    obtain ⟨⟨result, next⟩, hcall, ⟨more, last'⟩, hrest, he⟩ := h
    obtain ⟨rfl, rfl⟩ := Prod.mk.inj (Option.some.inj he)
    obtain ⟨log, htrace, hasked, hanswers⟩ := ih hrest
    cases hlive : decoder.poisoned with
    | true =>
      rw [decompress_poisoned D hlive] at hcall
      obtain ⟨rfl, rfl⟩ := Prod.mk.inj (Option.some.inj hcall)
      exact ⟨_, .head (.refused call hlive) htrace, congrArg _ hasked, congrArg _ hanswers⟩
    | false =>
      obtain ⟨log', hunseen, htrace'⟩ := trace_of_decompress hlive hcall
      refine ⟨_, .head (.called call hlive) (htrace'.trans htrace), ?_, ?_⟩
      · simp only [asked_append, hunseen.asked_eq, hasked]
        rfl
      · simp only [answers_append, hunseen.answers_eq, hanswers]
        rfl

end Runs

end WsPmd.Decoding
