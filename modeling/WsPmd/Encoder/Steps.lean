import WsPmd.Encoder.Ledger

/-!
# What a call does

Every call of the encoder and its guards, told once by what it does: whether it was
answered or refused, and what it leaves. What is said of a step of the machine is said
case by case of this.
-/

namespace WsPmd.Encoding

open Grammar (Bytes)
open Library

variable {σ : Type}

/-- A call, its reply and what it leaves. -/
inductive Stepped (C : Compress σ) (A : Allocator) :
    World σ → Action → Reply → World σ → Prop where
  | prepareMessage {encoder : Encoder σ} {x x' : σ} {payload bytes : Bytes} :
      encoder.compressor = some x → produce C A x payload = some (.ok (x', bytes)) →
      Stepped C A (.idle encoder) (.prepareMessage payload) .guard
        (.prepared ⟨encoder.vacated, x', bytes⟩)
  | refuseMessage {encoder : Encoder σ} {x : σ} {payload : Bytes} {error : CodecError} :
      encoder.compressor = some x → produce C A x payload = some (.error error) →
      Stepped C A (.idle encoder) (.prepareMessage payload) (.refused error)
        (.idle encoder.vacated)
  | vacantMessage {encoder : Encoder σ} {payload : Bytes} : encoder.compressor = none →
      Stepped C A (.idle encoder) (.prepareMessage payload) (.refused .poisoned) (.idle encoder)
  | beginStreamingMessage {encoder : Encoder σ} {x : σ} : encoder.compressor = some x →
      Stepped C A (.idle encoder) .beginStreamingMessage .guard (.streaming ⟨encoder.vacated, x⟩)
  | vacantStream {encoder : Encoder σ} : encoder.compressor = none →
      Stepped C A (.idle encoder) .beginStreamingMessage (.refused .poisoned) (.idle encoder)
  | prepareNonFinalFragment {stream : StreamingMessage σ} {x' : σ} {payload bytes : Bytes} :
      produceNonFinal C A stream.compressor payload = some (.ok (x', bytes)) →
      Stepped C A (.streaming stream) (.prepareNonFinalFragment payload) .guard
        (.nonFinal ⟨stream.encoder, x', bytes⟩)
  | refuseNonFinalFragment {stream : StreamingMessage σ} {payload : Bytes}
      {error : CodecError} :
      produceNonFinal C A stream.compressor payload = some (.error error) →
      Stepped C A (.streaming stream) (.prepareNonFinalFragment payload) (.refused error)
        (.idle stream.encoder)
  | prepareFinalFragment {stream : StreamingMessage σ} {x' : σ} {payload bytes : Bytes} :
      produce C A stream.compressor payload = some (.ok (x', bytes)) →
      Stepped C A (.streaming stream) (.prepareFinalFragment payload) .guard
        (.final ⟨stream.encoder, x', bytes⟩)
  | refuseFinalFragment {stream : StreamingMessage σ} {payload : Bytes} {error : CodecError} :
      produce C A stream.compressor payload = some (.error error) →
      Stepped C A (.streaming stream) (.prepareFinalFragment payload) (.refused error)
        (.idle stream.encoder)
  | commitMessage {guard : PreparedMessage σ} :
      Stepped C A (.prepared guard) .commit (.message guard.bytes)
        (.idle (guard.encoder.restore C guard.compressor))
  | commitNonFinal {fragment : PreparedNonFinalFragment σ} :
      Stepped C A (.nonFinal fragment) .commit (.fragment fragment.bytes)
        (.streaming ⟨fragment.encoder, fragment.compressor⟩)
  | commitFinal {fragment : PreparedFinalFragment σ} :
      Stepped C A (.final fragment) .commit (.message fragment.bytes)
        (.idle (fragment.encoder.restore C fragment.compressor))
  | resetToPlain {guard : PreparedMessage σ} :
      Stepped C A (.prepared guard) .resetToPlain .released
        (.idle { guard.encoder with compressor := some (C.reset guard.compressor) })
  | drop {world : World σ} {encoder : Encoder σ} : world.borrowed = some encoder →
      Stepped C A world .drop .released (.idle encoder)
  | leak {world : World σ} {encoder : Encoder σ} : world.borrowed = some encoder →
      Stepped C A world .leak .released (.idle encoder)

variable {C : Compress σ} {A : Allocator} {world next : World σ} {action : Action} {reply : Reply}

theorem Stepped.step (h : Stepped C A world action reply next) :
    step C A world action = some (reply, next) := by
  cases h with
  | prepareMessage hheld hproduce =>
    simp only [Encoding.step, Encoder.prepareMessage, hheld, hproduce, Option.bind_eq_bind,
      Option.bind_some]
  | refuseMessage hheld hproduce =>
    simp only [Encoding.step, Encoder.prepareMessage, hheld, hproduce, Option.bind_eq_bind,
      Option.bind_some]
  | vacantMessage hvacant => simp only [Encoding.step, Encoder.prepareMessage, hvacant]
  | beginStreamingMessage hheld =>
    simp only [Encoding.step, Encoder.beginStreamingMessage, hheld]
  | vacantStream hvacant => simp only [Encoding.step, Encoder.beginStreamingMessage, hvacant]
  | prepareNonFinalFragment hproduce =>
    simp only [Encoding.step, StreamingMessage.prepareNonFinalFragment, hproduce,
      Option.bind_eq_bind, Option.bind_some]
  | refuseNonFinalFragment hproduce =>
    simp only [Encoding.step, StreamingMessage.prepareNonFinalFragment, hproduce,
      Option.bind_eq_bind, Option.bind_some]
  | prepareFinalFragment hproduce =>
    simp only [Encoding.step, StreamingMessage.prepareFinalFragment, hproduce,
      Option.bind_eq_bind, Option.bind_some]
  | refuseFinalFragment hproduce =>
    simp only [Encoding.step, StreamingMessage.prepareFinalFragment, hproduce,
      Option.bind_eq_bind, Option.bind_some]
  | drop hborrowed =>
    rw [step_drop, hborrowed]
    rfl
  | leak hborrowed =>
    rw [step_leak, hborrowed]
    rfl
  | _ => rfl

/-- **A step is one of these.** -/
theorem stepped_of_step (h : step C A world action = some (reply, next)) :
    Stepped C A world action reply next := by
  cases action with
  | prepareMessage payload =>
    cases world with
    | idle encoder =>
      cases hheld : encoder.compressor with
      | none =>
        cases h.symm.trans (Stepped.vacantMessage hheld).step
        exact .vacantMessage hheld
      | some x =>
        rcases hproduce : produce C A x payload with _ | ⟨error | ⟨x', bytes⟩⟩
        · simp only [step, Encoder.prepareMessage, hheld, hproduce, Option.bind_eq_bind,
            Option.bind_none] at h
          cases h
        · cases h.symm.trans (Stepped.refuseMessage hheld hproduce).step
          exact .refuseMessage hheld hproduce
        · cases h.symm.trans (Stepped.prepareMessage hheld hproduce).step
          exact .prepareMessage hheld hproduce
    | _ => cases h
  | beginStreamingMessage =>
    cases world with
    | idle encoder =>
      cases hheld : encoder.compressor with
      | none =>
        cases h.symm.trans (Stepped.vacantStream hheld).step
        exact .vacantStream hheld
      | some x =>
        cases h.symm.trans (Stepped.beginStreamingMessage hheld).step
        exact .beginStreamingMessage hheld
    | _ => cases h
  | prepareNonFinalFragment payload =>
    cases world with
    | streaming stream =>
      rcases hproduce : produceNonFinal C A stream.compressor payload with
        _ | ⟨error | ⟨x', bytes⟩⟩
      · simp only [step, StreamingMessage.prepareNonFinalFragment, hproduce, Option.bind_eq_bind,
          Option.bind_none] at h
        cases h
      · cases h.symm.trans (Stepped.refuseNonFinalFragment hproduce).step
        exact .refuseNonFinalFragment hproduce
      · cases h.symm.trans (Stepped.prepareNonFinalFragment hproduce).step
        exact .prepareNonFinalFragment hproduce
    | _ => cases h
  | prepareFinalFragment payload =>
    cases world with
    | streaming stream =>
      rcases hproduce : produce C A stream.compressor payload with _ | ⟨error | ⟨x', bytes⟩⟩
      · simp only [step, StreamingMessage.prepareFinalFragment, hproduce, Option.bind_eq_bind,
          Option.bind_none] at h
        cases h
      · cases h.symm.trans (Stepped.refuseFinalFragment hproduce).step
        exact .refuseFinalFragment hproduce
      · cases h.symm.trans (Stepped.prepareFinalFragment hproduce).step
        exact .prepareFinalFragment hproduce
    | _ => cases h
  | commit =>
    cases world with
    | prepared guard =>
      cases h
      exact .commitMessage
    | nonFinal fragment =>
      cases h
      exact .commitNonFinal
    | final fragment =>
      cases h
      exact .commitFinal
    | _ => cases h
  | resetToPlain =>
    cases world with
    | prepared guard =>
      cases h
      exact .resetToPlain
    | _ => cases h
  | drop =>
    rw [step_drop] at h
    obtain ⟨encoder, hborrowed, he⟩ := Option.map_eq_some_iff.mp h
    cases he
    exact .drop hborrowed
  | leak =>
    rw [step_leak] at h
    obtain ⟨encoder, hborrowed, he⟩ := Option.map_eq_some_iff.mp h
    cases he
    exact .leak hborrowed

end WsPmd.Encoding
