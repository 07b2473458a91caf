import WsPmd.Decoder.Phases

/-!
# What a log says of the decoder

The events of a trace are enough to tell which inflater is at hand and how far the message
has come. The inflater is built once, moved by every call on it, and started over where the
log says so: reset in place at the width a reset leaves, rebuilt at any other. The message
is what its earlier calls were answered, and what the call in progress was given.
-/

namespace WsPmd.Decoding

open Grammar (Bytes)
open Library

/-! ## The inflater at hand -/

section Inflater

variable {σ : Type} (D : Decompress σ) (config : InflaterConfig)

/-- The inflater behind a log. -/
def inflaterAfter (log : List Event) : σ :=
  log.foldl after (D.newWithWindowBits config.zlibHeader config.windowBits)
where
  after (inflater : σ) : Event → σ
    | .exchanged _ x => (D.decompress inflater x.input x.room).state
    | .started =>
      if config.windowBits = defaultInflaterWindowBits then D.reset inflater config.zlibHeader
      else D.newWithWindowBits config.zlibHeader config.windowBits
    | _ => inflater

/-- What a log records of a backend call is what that call did to the inflater at hand. -/
def Recorded (before : List Event) : Event → Prop
  | .exchanged _ x => x.Records D (inflaterAfter D config before)
  | _ => True

/-- A decoder with the inflater its log leaves it. -/
structure AtHand (log : List Event) (decoder : Decoder σ) : Prop where
  setting : decoder.config = config
  inflater : decoder.inflater = inflaterAfter D config log

variable {D config} {log : List Event} {decoder : Decoder σ}

theorem inflaterAfter_concat (log : List Event) (event : Event) :
    inflaterAfter D config (log ++ [event]) =
      inflaterAfter.after D config (inflaterAfter D config log) event := by
  simp only [inflaterAfter, List.foldl_append, List.foldl_cons, List.foldl_nil]

/-- The inflater of one decoder is that of another. -/
theorem AtHand.of_eq {decoder' : Decoder σ} (h : AtHand D config log decoder)
    (hconfig : decoder'.config = decoder.config)
    (hinflater : decoder'.inflater = decoder.inflater) :
    AtHand D config log decoder' := ⟨hconfig.trans h.setting, hinflater.trans h.inflater⟩

theorem AtHand.started (h : AtHand D config log decoder) :
    AtHand D config (log ++ [.started]) (decoder.reinitialise D) := by
  refine ⟨h.setting, ?_⟩
  rw [inflaterAfter_concat, ← h.inflater]
  unfold Decoder.reinitialise InflaterConfig.reinitialise InflaterConfig.resetsInPlace
  rw [h.setting]
  simp only [decide_eq_true_eq]
  rfl

theorem AtHand.called {s : Inflate σ} (h : AtHand D config log s.decoder) (source : Source)
    (limit : DecompressedLimit) :
    AtHand D config (log ++ [.exchanged source (exchange D limit s)]) (called D limit s) := by
  refine ⟨h.setting, ?_⟩
  rw [inflaterAfter_concat, ← h.inflater]
  rfl

theorem AtHand.positioned {s : Inflate σ} (h : AtHand D config log s.decoder) (source : Source)
    (limit : DecompressedLimit) :
    AtHand D config
      (log ++ .exchanged source (exchange D limit s) :: (position D limit s).1)
      (positioned D limit s) := by
  have hcalled := h.called source limit
  rw [List.append_cons, ← position_snd]
  unfold position
  split
  · exact hcalled.started
  split
  · rw [List.append_nil]
    exact hcalled.of_eq rfl rfl
  · rwa [List.append_nil]

/-- An event between two backend calls. -/
theorem AtHand.quiet {event : Event} (h : AtHand D config log decoder)
    (hquiet : ∀ inflater, inflaterAfter.after D config inflater event = inflater) :
    AtHand D config (log ++ [event]) decoder := by
  refine ⟨h.setting, ?_⟩
  rw [inflaterAfter_concat, hquiet]
  exact h.inflater

theorem AtHand.settle {source : Source} {call : Call} {fed : Outcome σ Bool} {ended : Bool}
    (h : AtHand D config log fed.decoder) :
    AtHand D config (log ++ (settle D source call fed ended).1)
      (settle D source call fed ended).2.decoder := by
  unfold Decoding.settle
  cases source with
  | peer =>
    simp only
    split
    · split
      · exact h.quiet fun _ => rfl
      · exact (h.quiet fun _ => rfl).of_eq rfl rfl
    · exact (h.quiet fun _ => rfl).of_eq rfl rfl
  | trailer =>
    simp only
    split
    · exact (h.quiet fun _ => rfl).of_eq rfl rfl
    split
    · simp only [startOver, ← List.append_assoc]
      exact (h.started.quiet fun _ => rfl).of_eq rfl rfl
    · exact (h.quiet fun _ => rfl).of_eq rfl rfl

theorem recorded_exchange {s : Inflate σ} (hlog : Each (Recorded D config) log)
    (h : AtHand D config log s.decoder) (source : Source) (limit : DecompressedLimit) :
    Each (Recorded D config) (log ++ [.exchanged source (exchange D limit s)]) := by
  have hrecords := exchange_records (D := D) limit s
  rw [h.inflater] at hrecords
  exact each_concat.mpr ⟨hlog, hrecords⟩

theorem recorded_position {s : Inflate σ} (hlog : Each (Recorded D config) log)
    (h : AtHand D config log s.decoder) (source : Source) (limit : DecompressedLimit) :
    Each (Recorded D config)
      (log ++ .exchanged source (exchange D limit s) :: (position D limit s).1) := by
  have hexchanged := recorded_exchange hlog h source limit
  rw [List.append_cons, position_fst]
  split
  · exact each_concat.mpr ⟨hexchanged, trivial⟩
  · rwa [List.append_nil]

/-- What settles a call makes no call of the backend's. -/
theorem recorded_settle {source : Source} {call : Call} {fed : Outcome σ Bool} {ended : Bool}
    (hlog : Each (Recorded D config) log) :
    Each (Recorded D config) (log ++ (settle D source call fed ended).1) := by
  unfold settle
  cases source with
  | peer =>
    simp only
    split
    · split
      · exact each_concat.mpr ⟨hlog, trivial⟩
      · exact each_concat.mpr ⟨hlog, trivial⟩
    · exact each_concat.mpr ⟨hlog, trivial⟩
  | trailer =>
    simp only
    split
    · exact each_concat.mpr ⟨hlog, trivial⟩
    split
    · simp only [startOver, ← List.append_assoc]
      exact each_concat.mpr ⟨each_concat.mpr ⟨hlog, trivial⟩, trivial⟩
    · exact each_concat.mpr ⟨hlog, trivial⟩

/-- **A step leaves the inflater its events tell of.** -/
theorem advances_atHand {before after : Phase σ} {events : List Event}
    (hlog : Each (Recorded D config) log) (h : AtHand D config log before.decoder)
    (hstep : Advances D before events after) :
    Each (Recorded D config) (log ++ events) ∧ AtHand D config (log ++ events) after.decoder := by
  cases hstep with
  | called call _ =>
    exact ⟨each_concat.mpr ⟨hlog, trivial⟩, h.quiet fun _ => rfl⟩
  | refused call _ =>
    rw [List.append_cons]
    exact ⟨each_concat.mpr ⟨each_concat.mpr ⟨hlog, trivial⟩, trivial⟩,
      (h.quiet fun _ => rfl).quiet fun _ => rfl⟩
  | turned source call s =>
    have hs : AtHand D config log s.decoder := h
    have hturns := turn_turns (D := D) source call s
    generalize (turn D source call s).1 = events, (turn D source call s).2 = phase at hturns
    cases hturns with
    | failed _ =>
      rw [List.append_cons]
      exact ⟨each_concat.mpr ⟨recorded_exchange hlog hs source call.limit, trivial⟩,
        ((hs.called source call.limit).quiet fun _ => rfl).of_eq rfl rfl⟩
    | settled _ hdecoder _ _ =>
      have hpositioned := hs.positioned source call.limit
      rw [← hdecoder] at hpositioned
      rw [← List.append_assoc]
      exact ⟨recorded_settle (recorded_position hlog hs source call.limit), hpositioned.settle⟩
    | again hdecoder _ _ =>
      have hpositioned := hs.positioned source call.limit
      rw [← hdecoder] at hpositioned
      exact ⟨recorded_position hlog hs source call.limit, hpositioned⟩

end Inflater

/-! ## The message in progress -/

/-- How far a message has come: the call in progress, the size its earlier calls delivered,
and how much the call in progress was given. -/
structure Progress where
  call : Option Call
  delivered : ℕ
  given : ℕ

namespace Progress

/-- The size of the message, with what the call in progress was given. -/
def size (p : Progress) : ℕ := saturatingAdd p.delivered p.given

def after (p : Progress) : Event → Progress
  | .called call => { p with call := some call, given := 0 }
  | .exchanged _ x => { p with given := p.given + x.produced }
  | .answered (.ok out) =>
    { p with
      call := none
      delivered :=
        if p.call.any Call.finalFragment then 0 else saturatingAdd p.delivered out.length }
  | .answered (.error _) => { p with call := none }
  | _ => p

end Progress

/-- The message in progress behind a log. -/
def progress (log : List Event) : Progress := log.foldl Progress.after ⟨none, 0, 0⟩

theorem progress_concat (log : List Event) (event : Event) :
    progress (log ++ [event]) = (progress log).after event := by
  simp only [progress, List.foldl_append, List.foldl_cons, List.foldl_nil]

section Message

variable {σ : Type} {D : Decompress σ} {log : List Event}

/-- A feed stands where its log says. -/
structure Proceeds (log : List Event) (source : Source) (call : Call) (s : Inflate σ) : Prop where
  calling : (progress log).call = some call
  delivered_eq : (progress log).delivered = s.decoder.delivered
  given_eq : (progress log).given = s.output.length
  final : source = .trailer → call.finalFragment = true

/-- So does a decoder at rest, unless it is poisoned. -/
def Counts (log : List Event) : Phase σ → Prop
  | .rest decoder => decoder.poisoned = false → (progress log).delivered = decoder.delivered
  | .feeding source call s => Proceeds log source call s

theorem progress_position (log : List Event) (limit : DecompressedLimit) (s : Inflate σ)
    (source : Source) :
    progress (log ++ .exchanged source (exchange D limit s) :: (position D limit s).1) =
      (progress log).after (.exchanged source (exchange D limit s)) := by
  rw [List.append_cons, position_fst]
  split
  · rw [progress_concat, progress_concat]
    rfl
  · rw [List.append_nil, progress_concat]

/-- The size a turn that fails reports. -/
theorem Proceeds.size_eq {source : Source} {call : Call} {s : Inflate σ}
    (h : Proceeds log source call s) (limit : DecompressedLimit) :
    (progress (log ++ [.exchanged source (exchange D limit s)])).size =
      saturatingAdd s.decoder.delivered (s.output ++ given D limit s).length := by
  rw [progress_concat, List.length_append, length_given, ← h.delivered_eq, ← h.given_eq]
  rfl

theorem Proceeds.settle {source : Source} {call : Call} {fed : Outcome σ Bool} {ended : Bool}
    {s : Inflate σ} (h : Proceeds log source call s)
    (hdelivered : fed.decoder.delivered = s.decoder.delivered)
    (houtput : fed.output = s.output) :
    Counts (log ++ (settle D source call fed ended).1) (settle D source call fed ended).2 := by
  have hanswered (log' : List Event) (hlog : progress log' = progress log) :
      (progress (log' ++ [.answered (.ok fed.output)])).delivered =
        if call.finalFragment then 0
        else saturatingAdd fed.decoder.delivered fed.output.length := by
    rw [progress_concat, hlog, hdelivered, ← h.delivered_eq]
    simp only [Progress.after, h.calling, Option.any_some]
  unfold Decoding.settle
  cases source with
  | peer =>
    simp only
    split
    · next hfinal =>
      split
      · refine ⟨?_, ?_, ?_, fun _ => hfinal⟩
        · rw [progress_concat]
          exact h.calling
        · rw [progress_concat]
          exact h.delivered_eq.trans hdelivered.symm
        · rw [progress_concat]
          exact h.given_eq.trans (congrArg _ houtput.symm)
      · exact fun hlive => nomatch hlive
    · next hmore =>
      refine fun _ => (hanswered log rfl).trans ?_
      rw [if_neg hmore]
  | trailer =>
    have hfinal := h.final rfl
    simp only
    split
    · exact fun hlive => nomatch hlive
    split
    · simp only [startOver, ← List.append_assoc]
      refine fun _ => (hanswered _ (progress_concat log .started)).trans ?_
      rw [if_pos hfinal]
    · refine fun _ => (hanswered log rfl).trans ?_
      rw [if_pos hfinal]

/-- **A step keeps the count.** -/
theorem advances_counts {before after : Phase σ} {events : List Event} (h : Counts log before)
    (hstep : Advances D before events after) : Counts (log ++ events) after := by
  cases hstep with
  | @called decoder call hlive =>
    refine ⟨?_, ?_, ?_, nofun⟩
    · rw [progress_concat]
      rfl
    · rw [progress_concat]
      exact h hlive
    · rw [progress_concat]
      rfl
  | refused call hpoisoned =>
    intro hlive
    rw [hpoisoned] at hlive
    cases hlive
  | turned source call s =>
    have hs : Proceeds log source call s := h
    have hposition := progress_position (D := D) log call.limit s source
    have hkept := (kept_positioned (D := D) call.limit s).delivered
    have hgiven := length_given (D := D) call.limit s
    have hturns := turn_turns (D := D) source call s
    generalize (turn D source call s).1 = events, (turn D source call s).2 = phase at hturns
    cases hturns with
    | failed _ => exact fun hlive => nomatch hlive
    | settled hproduced hdecoder houtput _ =>
      rw [← List.append_assoc]
      have hstill : Proceeds (log ++ .exchanged source (exchange D call.limit s) ::
          (position D call.limit s).1) source call s := by
        refine ⟨?_, ?_, ?_, hs.final⟩
        · rw [hposition]
          exact hs.calling
        · rw [hposition]
          exact hs.delivered_eq
        · rw [hposition]
          simp only [Progress.after, hproduced, Nat.add_zero]
          exact hs.given_eq
      exact hstill.settle ((congrArg Decoder.delivered hdecoder).trans hkept) houtput
    | again hdecoder houtput _ =>
      refine ⟨?_, ?_, ?_, hs.final⟩
      · rw [hposition]
        exact hs.calling
      · rw [hposition, hdecoder, hkept]
        exact hs.delivered_eq
      · rw [hposition, houtput, List.length_append, hgiven, ← hs.given_eq]
        rfl

end Message

end WsPmd.Decoding
