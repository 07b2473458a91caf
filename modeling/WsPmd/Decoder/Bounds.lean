import WsPmd.Decoder.Turn

/-!
# The decoder, whatever bounds it

The loop offers its backend a buffer and refuses a message past its ceiling.
Both are parameters here: `Bounds.source` is what the crate does, for a scratch
buffer of any length, and `Bounds.unlimited` has no ceiling and any amount of
room. The crate's own functions are the instance at its own scratch length.
-/

namespace WsPmd.Decoding

open Grammar (Bytes)
open Library

/-- The room each turn offers the backend, and the sizes it refuses. -/
structure Bounds (σ : Type) where
  room : Inflate σ → ℕ
  room_pos : ∀ s, 0 < room s
  refuses : ℕ → Option CodecError
  refuses_mono : ∀ {n m : ℕ}, n ≤ m → refuses m = none → refuses n = none

/-- One byte past the allowance, as far as the scratch buffer goes. -/
def Bounds.source {σ : Type} (scratch : ℕ) (hscratch : 0 < scratch) (limit : DecompressedLimit) :
    Bounds σ where
  room := fun s => min
    (saturatingAdd (limit.bytes - saturatingAdd s.decoder.delivered s.output.length) 1) scratch
  room_pos := by
    have hmax : 1 ≤ usizeMax := by decide
    intro s
    unfold saturatingAdd
    omega
  refuses := fun size =>
    if size > limit.bytes then some (.messageTooLong size limit.bytes) else none
  refuses_mono := by
    intro n m hle hm
    rw [ite_eq_right_iff] at hm ⊢
    intro hn
    cases hm (Nat.lt_of_lt_of_le hn hle)

/-- As much room as one likes, and no ceiling. -/
def Bounds.unlimited {σ : Type} (room : Inflate σ → ℕ) (hroom : ∀ s, 0 < room s) : Bounds σ where
  room
  room_pos := hroom
  refuses := fun _ => none
  refuses_mono := fun _ _ => rfl

theorem Bounds.source_refuses {σ : Type} {scratch : ℕ} {hscratch : 0 < scratch}
    {limit : DecompressedLimit} {n : ℕ} :
    (Bounds.source (σ := σ) scratch hscratch limit).refuses n = none ↔ n ≤ limit.bytes := by
  show (if n > limit.bytes then _ else none) = none ↔ _
  by_cases h : n > limit.bytes
  · simp [h]
  · simp [h, Nat.le_of_not_gt h]

section Loops

variable {σ : Type} (D : Decompress σ) (b : Bounds σ)

def inflateTurnWithin (s : Inflate σ) : Outcome σ Bool ⊕ Inflate σ :=
  let (inflater, scratch, outcome) := step D s.decoder.inflater s.input (b.room s)
  let decoder := { s.decoder with inflater }
  match outcome with
  | .error error => .inl ⟨.error error, decoder, s.output⟩
  | .ok step =>
    let output := s.output ++ scratch.take step.produced
    match b.refuses (saturatingAdd decoder.delivered output.length) with
    | some error => .inl ⟨.error error, decoder, output⟩
    | none =>
      let endedAStream := s.endedAStream || step.streamEnded
      let decoder :=
        if step.streamEnded then decoder.reinitialise D
        else if step.remaining.any (·.length < s.input.length) then
          { decoder with streamOpen := true }
        else decoder
      match step.remaining with
      | some rest => .inr ⟨decoder, rest, output, endedAStream⟩
      | none => .inl ⟨.ok endedAStream, decoder, output⟩

def inflateWithin (decoder : Decoder σ) (input output : Bytes) : Option (Outcome σ Bool) :=
  Loop.run (inflateTurnWithin D b) ⟨decoder, input, output, false⟩

def decodeWithin (decoder : Decoder σ) (input : Bytes) (finalFragment : Bool) (output : Bytes) :
    Option (Outcome σ Unit) := do
  let fed ← inflateWithin D b decoder input output
  match fed.result with
  | .error error => some ⟨.error error, fed.decoder, fed.output⟩
  | .ok _ =>
    if finalFragment then
      if !fed.decoder.streamOpen then some ⟨.error .invalidStream, fed.decoder, fed.output⟩
      else
        let closed ← inflateWithin D b fed.decoder trailer fed.output
        match closed.result with
        | .error error => some ⟨.error error, closed.decoder, closed.output⟩
        | .ok true => some ⟨.error .invalidStream, closed.decoder, closed.output⟩
        | .ok false =>
          if closed.decoder.resetBetweenMessages then
            some ⟨.ok (), closed.decoder.reinitialise D, closed.output⟩
          else some ⟨.ok (), closed.decoder, closed.output⟩
    else some ⟨.ok (), fed.decoder, fed.output⟩

def decompressWithin (decoder : Decoder σ) (input : Bytes) (finalFragment : Bool) :
    Option (Except CodecError Bytes × Decoder σ) :=
  if decoder.poisoned then some (.error .poisoned, decoder)
  else do
    let decoded ← decodeWithin D b decoder input finalFragment []
    match decoded.result with
    | .ok () =>
      let delivered :=
        if finalFragment then 0
        else saturatingAdd decoded.decoder.delivered decoded.output.length
      some (.ok decoded.output, { decoded.decoder with delivered })
    | .error error => some (.error error, { decoded.decoder with poisoned := true })

end Loops

section Source

variable {σ : Type} (D : Decompress σ) (limit : DecompressedLimit)

/-- The bounds the crate's loop has. -/
abbrev sourceBounds : Bounds σ := .source scratchLen scratchLen_pos limit

theorem inflateTurn_eq_within :
    Decoder.inflateTurn D limit = inflateTurnWithin D (sourceBounds limit) := by
  funext s
  have hroom : Decoder.writable limit s = (sourceBounds (σ := σ) limit).room s := rfl
  unfold Decoder.inflateTurn inflateTurnWithin
  rw [hroom]
  generalize step D s.decoder.inflater s.input _ = answer
  obtain ⟨x, scratch, outcome⟩ := answer
  cases outcome with
  | error e => rfl
  | ok st =>
    simp only [Decoder.resume, Bounds.source]
    split <;> rfl

theorem inflate_eq_within (decoder : Decoder σ) (input output : Bytes) :
    decoder.inflate D input limit output =
      inflateWithin D (sourceBounds limit) decoder input output := by
  rw [Decoder.inflate, inflateWithin, inflateTurn_eq_within]

theorem decompress_eq_within (decoder : Decoder σ) (input : Bytes) (finalFragment : Bool) :
    decoder.decompress D input finalFragment limit =
      decompressWithin D (sourceBounds limit) decoder input finalFragment := by
  have hinflate : inflateWithin D (sourceBounds limit) =
      fun decoder input output => decoder.inflate D input limit output := by
    funext decoder input output
    exact (inflate_eq_within D limit decoder input output).symm
  have hdecode : decodeWithin D (sourceBounds limit) decoder input finalFragment [] =
      decoder.decode D input finalFragment limit [] := by
    unfold decodeWithin
    rw [hinflate]
    rfl
  unfold decompressWithin
  rw [hdecode]
  rfl

end Source

end WsPmd.Decoding
