import WsPmd.Decoder.Ceiling

/-!
# What a feed costs

The measure of a feed is what is left of its input together with what is left of the
message's allowance. A turn that goes round again lowers it by at least one: whatever
the backend reports, the decoder counts a move of one counter or of the other, no more
of the input than there was, and no output past the ceiling. So one call more than the
measure is enough, and what a feed ever holds is one byte past the allowance at most.
-/

namespace WsPmd.Decoding

open Grammar (Bytes)
open Library

/-- A call as it has to be made, and read, under an allowance: there is room for a byte,
the room is of the scratch buffer, what is cut off the input and what is copied out of
the buffer are no longer than these are, and the output stays one past the allowance. -/
structure Exchange.InBounds (allowance : ℕ) (x : Exchange) : Prop where
  room_pos : 0 < x.room
  room_le : x.room ≤ scratchLen
  consumed_le : x.consumed ≤ x.input.length
  produced_le : x.produced ≤ x.room
  held_le : x.held + x.produced ≤ allowance + 1

/-- What a feed of an input may cost under an allowance. -/
structure Affordable {σ : Type} (allowance : ℕ) (input : Bytes) (exchanges : List Exchange)
    (r : Outcome σ Bool) : Prop where
  calls_le : exchanges.length ≤ input.length + allowance + 1
  within : ∀ x ∈ exchanges, x.InBounds allowance
  output_le : r.output.length ≤ allowance + 1

section Bounds

variable {σ : Type} {D : Decompress σ} {limit : DecompressedLimit}

/-- What a feed may start on: nothing yet, or what the ceiling still admits. -/
def Admitted (limit : DecompressedLimit) (delivered : ℕ) (output : Bytes) : Prop :=
  output = [] ∨ delivered + output.length ≤ limit.bytes

/-- What is left of the message's allowance. -/
def allowanceLeft (limit : DecompressedLimit) (s : Inflate σ) : ℕ :=
  limit.bytes - (s.decoder.delivered + s.output.length)

theorem exchange_inBounds (hl : limit.bytes < usizeMax) {s : Inflate σ}
    (h : Admitted limit s.decoder.delivered s.output) :
    (exchange D limit s).InBounds (limit.bytes - s.decoder.delivered) := by
  refine ⟨writable_pos limit s, writable_le limit s, consumed_le limit s, produced_le limit s, ?_⟩
  have hproduced : (exchange D limit s).produced ≤
      saturatingAdd (limit.bytes - saturatingAdd s.decoder.delivered s.output.length) 1 :=
    (produced_le limit s).trans (Nat.min_le_left _ _)
  have hheld : (exchange D limit s).held = s.output.length := rfl
  unfold saturatingAdd at hproduced
  rcases h with hempty | hfit
  · rw [hempty, List.length_nil] at hproduced hheld
    omega
  · omega

/-- **The cost of a feed**, from any point of it on. -/
theorem feeds_affordable (hl : limit.bytes < usizeMax) (measure : ℕ) :
    ∀ s : Inflate σ, Admitted limit s.decoder.delivered s.output →
      s.input.length + allowanceLeft limit s = measure →
      ∃ exchanges r, Feeds D limit s exchanges r ∧ exchanges.length ≤ measure + 1 ∧
        (∀ x ∈ exchanges, x.InBounds (limit.bytes - s.decoder.delivered)) ∧
        r.output.length ≤ limit.bytes - s.decoder.delivered + 1 := by
  induction measure using Nat.strong_induction_on with
  | _ measure ih =>
    intro s hadmitted hmeasure
    have hbounds := exchange_inBounds (D := D) hl hadmitted
    have hleaves : ∀ r, Decoder.inflateTurn D limit s = .inl r →
        r.output.length ≤ s.output.length + (exchange D limit s).produced →
        ∃ exchanges r, Feeds D limit s exchanges r ∧ exchanges.length ≤ measure + 1 ∧
          (∀ x ∈ exchanges, x.InBounds (limit.bytes - s.decoder.delivered)) ∧
          r.output.length ≤ limit.bytes - s.decoder.delivered + 1 := by
      intro r hturn houtput
      refine ⟨_, r, .leaves (makes_exchange hturn), by simp, ?_, houtput.trans hbounds.held_le⟩
      exact List.forall_mem_singleton.mpr hbounds
    have hturned := inflateTurn_turned (D := D) limit s
    generalize hturn : Decoder.inflateTurn D limit s = turn at hturned
    cases hturned with
    | refused _ => exact hleaves _ hturn (Nat.le_add_right _ _)
    | stalled _ _ _ _ => exact hleaves _ hturn (Nat.le_add_right _ _)
    | tooLong _ _ => exact hleaves _ hturn (by rw [List.length_append, length_given])
    | drained _ _ _ _ _ => exact hleaves _ hturn (Nat.le_add_right _ _)
    | moved _ hmoved hsize =>
      have hdelivered := (kept_positioned (D := D) limit s).delivered
      obtain ⟨hfit, -⟩ := add_le_of_saturatingAdd hsize hl
      have hless : (s.input.drop (exchange D limit s).consumed).length +
          allowanceLeft limit ⟨positioned D limit s, s.input.drop (exchange D limit s).consumed,
            s.output ++ given D limit s,
            s.endedAStream || decide (exchange D limit s).Ends⟩ < measure := by
        have htook := consumed_le (D := D) limit s
        rw [List.length_append, length_given] at hfit
        simp only [allowanceLeft, hdelivered, List.length_append, length_given,
          List.length_drop] at hmeasure ⊢
        omega
      have hnext : Admitted limit (positioned D limit s).delivered
          (s.output ++ given D limit s) := Or.inr (hdelivered ▸ hfit)
      obtain ⟨exchanges, r, hfeeds, hcalls, hwithin, houtput⟩ := ih _ hless
        ⟨positioned D limit s, _, s.output ++ given D limit s, _⟩ hnext rfl
      rw [hdelivered] at hwithin houtput
      refine ⟨_, r, .again (makes_exchange hturn) hfeeds, ?_,
        List.forall_mem_cons.mpr ⟨hbounds, hwithin⟩, houtput⟩
      rw [List.length_cons]
      omega

theorem inflate_affordable (hl : limit.bytes < usizeMax) (decoder : Decoder σ) (input : Bytes)
    {output : Bytes} (h : Admitted limit decoder.delivered output) :
    ∃ exchanges r, decoder.inflate D input limit output = some r ∧
      Feeds D limit ⟨decoder, input, output, false⟩ exchanges r ∧
      Affordable (limit.bytes - decoder.delivered) input exchanges r := by
  obtain ⟨exchanges, r, hfeeds, hcalls, hwithin, houtput⟩ := feeds_affordable (D := D) hl _
    ⟨decoder, input, output, false⟩ h rfl
  refine ⟨exchanges, r, inflate_eq_some_iff.mpr ⟨_, hfeeds⟩, hfeeds, ?_, hwithin, houtput⟩
  refine hcalls.trans (Nat.succ_le_succ (Nat.add_le_add_left ?_ _))
  exact Nat.sub_le_sub_left (Nat.le_add_right _ _) _

/-- What a feed leaves is what the next may start on. -/
theorem inflate_admitted (hl : limit.bytes < usizeMax) {decoder : Decoder σ} {input : Bytes}
    {fed : Outcome σ Bool} (h : decoder.inflate D input limit [] = some fed) {ended : Bool}
    (hok : fed.result = .ok ended) :
    fed.decoder.delivered = decoder.delivered ∧
      Admitted limit decoder.delivered fed.output := by
  have hspec := inflate_spec h
  refine ⟨hspec.kept.delivered, Or.inr ?_⟩
  exact (add_le_of_saturatingAdd (hspec.within ended hok).2 hl).1

/-- **The inflate loop ends and stays in bounds.** Under any ceiling below `usize::MAX`,
over any backend, in any state: each feed returns within as many calls as its input and
the allowance have bytes, and one more; every call offers a byte of room at least, every
slice is within what it is cut from, and the output never has more than one byte past
the allowance, the feed of the trailer counted on top of the feed before it. So every
call on the decoder returns. -/
theorem inflate_ends_in_bounds (D : Decompress σ) (limit : DecompressedLimit)
    (hl : limit.bytes < usizeMax) (decoder : Decoder σ) (input : Bytes) :
    (∀ output, Admitted limit decoder.delivered output →
      ∃ exchanges r, decoder.inflate D input limit output = some r ∧
        Feeds D limit ⟨decoder, input, output, false⟩ exchanges r ∧
        Affordable (limit.bytes - decoder.delivered) input exchanges r) ∧
      (∀ fed ended, decoder.inflate D input limit [] = some fed → fed.result = .ok ended →
        ∃ exchanges r, fed.decoder.inflate D trailer limit fed.output = some r ∧
          Feeds D limit ⟨fed.decoder, trailer, fed.output, false⟩ exchanges r ∧
          Affordable (limit.bytes - decoder.delivered) trailer exchanges r) ∧
      ∀ finalFragment, ∃ answer,
        decoder.decompress D input finalFragment limit = some answer := by
  refine ⟨fun output h => inflate_affordable hl decoder input h, ?_,
    decompress_returns hl decoder input⟩
  intro fed ended hfed hok
  obtain ⟨hdelivered, hadmitted⟩ := inflate_admitted hl hfed hok
  rw [← hdelivered] at hadmitted ⊢
  exact inflate_affordable hl fed.decoder trailer hadmitted

/-- A ceiling of two over the backend that copies. -/
theorem inflate_ends_in_bounds_copy :
    ∃ exchanges r, (Decoder.forPeer copyDecompress 15 false).inflate copyDecompress [7, 8, 9]
        ⟨2, by decide⟩ [] = some r ∧
      Feeds copyDecompress ⟨2, by decide⟩
        ⟨Decoder.forPeer copyDecompress 15 false, [7, 8, 9], [], false⟩ exchanges r ∧
      Affordable 2 [7, 8, 9] exchanges r := by
  have hfit : 2 < usizeMax := by decide
  exact (inflate_ends_in_bounds copyDecompress ⟨2, hfit.le⟩ hfit
    (Decoder.forPeer copyDecompress 15 false) [7, 8, 9]).1 [] (Or.inl rfl)

end Bounds

end WsPmd.Decoding
