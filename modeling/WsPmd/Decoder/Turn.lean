import WsPmd.Decoder.Exchanges
import Mathlib.Tactic.Common

/-!
# What a call on the decoder can do

The backend is arbitrary here. A turn that goes round again has consumed or
produced something and stayed under the ceiling; a turn that leaves with an
answer has drained its input; nothing but the inflater and the open flag of the
decoder ever changes. From this follows what a feed answers, that it does, and
what a call of the host leaves behind.
-/

namespace WsPmd.Decoding

open Grammar (Bytes)
open Library

variable {σ : Type} {D : Decompress σ}

theorem saturatingAdd_assoc (a b c : ℕ) :
    saturatingAdd (saturatingAdd a b) c = saturatingAdd a (b + c) := by
  unfold saturatingAdd
  omega

/-- Below `usize::MAX` a saturating sum that fits a limit is the sum. -/
theorem add_le_of_saturatingAdd {a b limit : ℕ} (h : saturatingAdd a b ≤ limit)
    (hl : limit < usizeMax) : a + b ≤ limit ∧ saturatingAdd a b = a + b := by
  unfold saturatingAdd at *
  omega

/-- The fields of a decoder that no turn changes. -/
structure Kept (before after : Decoder σ) : Prop where
  config : after.config = before.config
  reset : after.resetBetweenMessages = before.resetBetweenMessages
  delivered : after.delivered = before.delivered
  poisoned : after.poisoned = before.poisoned

theorem Kept.refl (decoder : Decoder σ) : Kept decoder decoder := ⟨rfl, rfl, rfl, rfl⟩

theorem Kept.trans {a b c : Decoder σ} (h : Kept a b) (h' : Kept b c) : Kept a c :=
  ⟨h'.config.trans h.config, h'.reset.trans h.reset, h'.delivered.trans h.delivered,
    h'.poisoned.trans h.poisoned⟩

theorem Kept.reinitialise {a b : Decoder σ} (h : Kept a b) : Kept a (b.reinitialise D) :=
  ⟨h.config, h.reset, h.delivered, h.poisoned⟩

theorem kept_called (limit : DecompressedLimit) (s : Inflate σ) :
    Kept s.decoder (called D limit s) := ⟨rfl, rfl, rfl, rfl⟩

theorem kept_positioned (limit : DecompressedLimit) (s : Inflate σ) :
    Kept s.decoder (positioned D limit s) := by
  unfold positioned
  split
  · exact (kept_called limit s).reinitialise
  split
  · exact ⟨rfl, rfl, rfl, rfl⟩
  · exact kept_called limit s

/-- A turn that goes round again. -/
theorem turn_again {limit : DecompressedLimit} {s s' : Inflate σ}
    (h : Decoder.inflateTurn D limit s = .inr s') :
    Kept s.decoder s'.decoder ∧
      ∃ consumed more, consumed ≤ s.input.length ∧ s'.input = s.input.drop consumed ∧
        s'.output = s.output ++ more ∧ 0 < consumed + more.length ∧
        saturatingAdd s.decoder.delivered s'.output.length ≤ limit.bytes := by
  have hturned := inflateTurn_turned (D := D) limit s
  rw [h] at hturned
  cases hturned with
  | moved _ hmoved hsize =>
    rw [← length_given] at hmoved
    exact ⟨kept_positioned limit s, _, _, consumed_le limit s, rfl, rfl, hmoved, hsize⟩

/-- A turn that leaves. -/
theorem turn_stop {limit : DecompressedLimit} {s : Inflate σ} {r : Outcome σ Bool}
    (h : Decoder.inflateTurn D limit s = .inl r) :
    Kept s.decoder r.decoder ∧ (∀ e, r.result = .error e → e ≠ .poisoned) ∧
      ∀ ended, r.result = .ok ended → s.input = [] ∧ r.output = s.output ∧
        saturatingAdd s.decoder.delivered r.output.length ≤ limit.bytes := by
  have hturned := inflateTurn_turned (D := D) limit s
  rw [h] at hturned
  cases hturned with
  | refused _ => exact ⟨kept_called limit s, fun e he => Except.error.inj he ▸ nofun, nofun⟩
  | stalled _ _ _ _ => exact ⟨kept_called limit s, fun e he => Except.error.inj he ▸ nofun, nofun⟩
  | tooLong _ _ => exact ⟨kept_called limit s, fun e he => Except.error.inj he ▸ nofun, nofun⟩
  | drained _ hleft _ _ hsize =>
    exact ⟨kept_positioned limit s, nofun, fun ended _ => ⟨hleft, rfl, hsize⟩⟩

/-- What holds of whatever `inflate` answers. -/
structure Inflated (limit : DecompressedLimit) (decoder : Decoder σ) (output : Bytes)
    (r : Outcome σ Bool) : Prop where
  kept : Kept decoder r.decoder
  not_poisoned : ∀ e, r.result = .error e → e ≠ .poisoned
  within : ∀ ended, r.result = .ok ended →
    output <+: r.output ∧ saturatingAdd decoder.delivered r.output.length ≤ limit.bytes

theorem inflate_spec {limit : DecompressedLimit} {decoder : Decoder σ} {input output : Bytes}
    {r : Outcome σ Bool} (h : decoder.inflate D input limit output = some r) :
    Inflated limit decoder output r := by
  apply Loop.run_invariant (fun s => Kept decoder s.decoder ∧ output <+: s.output)
    (Inflated limit decoder output) _ _ ⟨Kept.refl decoder, List.prefix_refl output⟩ h
  · intro s r ⟨hk, hp⟩ hs
    obtain ⟨hk', hne, hok⟩ := turn_stop hs
    refine ⟨hk.trans hk', hne, fun ended he => ?_⟩
    obtain ⟨-, hout, hsize⟩ := hok ended he
    rw [hk.delivered] at hsize
    exact ⟨hout ▸ hp, hsize⟩
  · intro s s' ⟨hk, hp⟩ hs
    obtain ⟨hk', consumed, more, -, -, hout, -, -⟩ := turn_again hs
    exact ⟨hk.trans hk', hout ▸ hp.trans (List.prefix_append _ _)⟩

/-- **No backend keeps `inflate` from returning**, as long as the limit is below
`usize::MAX`: every further turn eats input or eats into the allowance. -/
theorem inflate_returns {limit : DecompressedLimit} (hl : limit.bytes < usizeMax)
    (decoder : Decoder σ) (input output : Bytes) :
    ∃ r, decoder.inflate D input limit output = some r := by
  let measure (s : Inflate σ) : ℕ :=
    s.input.length + (limit.bytes - (decoder.delivered + s.output.length))
  have hagain : ∀ s s', s.decoder.delivered = decoder.delivered →
      Decoder.inflateTurn D limit s = .inr s' →
      s'.decoder.delivered = decoder.delivered ∧ measure s' < measure s := by
    intro s s' hd hs
    obtain ⟨hk, consumed, more, hle, hinput, hout, hpos, hsize⟩ := turn_again hs
    obtain ⟨hfit, -⟩ := add_le_of_saturatingAdd hsize hl
    refine ⟨hk.delivered.trans hd, ?_⟩
    simp only [measure]
    rw [hinput, hout, List.length_drop, List.length_append]
    rw [hout, List.length_append, hd] at hfit
    omega
  obtain ⟨r, hr, -⟩ := Loop.run_total _ (fun _ => True) measure (fun _ _ _ _ => trivial) hagain
    (show (Inflate.mk decoder input output false).decoder.delivered = decoder.delivered from rfl)
  exact ⟨r, hr⟩

/-! ## One call -/

section Calls

variable {decoder : Decoder σ} {input : Bytes} {finalFragment : Bool} {limit : DecompressedLimit}

/-- What becomes of a fragment, by the feeds it comes to. -/
inductive Decoded (D : Decompress σ) (decoder : Decoder σ) (input : Bytes) (finalFragment : Bool)
    (limit : DecompressedLimit) : Outcome σ Unit → Prop where
  | failed {fed : Outcome σ Bool} {error : CodecError} :
      decoder.inflate D input limit [] = some fed → fed.result = .error error →
      Decoded D decoder input finalFragment limit ⟨.error error, fed.decoder, fed.output⟩
  | more {fed : Outcome σ Bool} {ended : Bool} :
      decoder.inflate D input limit [] = some fed → fed.result = .ok ended →
      finalFragment = false →
      Decoded D decoder input finalFragment limit ⟨.ok (), fed.decoder, fed.output⟩
  | unopened {fed : Outcome σ Bool} {ended : Bool} :
      decoder.inflate D input limit [] = some fed → fed.result = .ok ended →
      finalFragment = true → fed.decoder.streamOpen = false →
      Decoded D decoder input finalFragment limit ⟨.error .invalidStream, fed.decoder, fed.output⟩
  | closingFailed {fed closed : Outcome σ Bool} {ended : Bool} {error : CodecError} :
      decoder.inflate D input limit [] = some fed → fed.result = .ok ended →
      finalFragment = true → fed.decoder.streamOpen = true →
      fed.decoder.inflate D trailer limit fed.output = some closed →
      closed.result = .error error →
      Decoded D decoder input finalFragment limit ⟨.error error, closed.decoder, closed.output⟩
  | endedClosing {fed closed : Outcome σ Bool} {ended : Bool} :
      decoder.inflate D input limit [] = some fed → fed.result = .ok ended →
      finalFragment = true → fed.decoder.streamOpen = true →
      fed.decoder.inflate D trailer limit fed.output = some closed → closed.result = .ok true →
      Decoded D decoder input finalFragment limit
        ⟨.error .invalidStream, closed.decoder, closed.output⟩
  | closed {fed closed : Outcome σ Bool} {ended : Bool} :
      decoder.inflate D input limit [] = some fed → fed.result = .ok ended →
      finalFragment = true → fed.decoder.streamOpen = true →
      fed.decoder.inflate D trailer limit fed.output = some closed → closed.result = .ok false →
      Decoded D decoder input finalFragment limit ⟨.ok (),
        if closed.decoder.resetBetweenMessages then closed.decoder.reinitialise D
        else closed.decoder, closed.output⟩

theorem decode_decoded {r : Outcome σ Unit}
    (h : decoder.decode D input finalFragment limit [] = some r) :
    Decoded D decoder input finalFragment limit r := by
  obtain ⟨fed, hfed, h⟩ := Option.bind_eq_some_iff.mp h
  cases hresult : fed.result with
  | error error =>
    simp only [hresult] at h
    obtain rfl := Option.some.inj h
    exact .failed hfed hresult
  | ok ended =>
    simp only [hresult] at h
    split at h
    · next hfinal =>
      split at h
      · next hunopened =>
        obtain rfl := Option.some.inj h
        exact .unopened hfed hresult hfinal ((Bool.not_eq_true' _).mp hunopened)
      · next hopen =>
        rw [Bool.not_eq_true', Bool.not_eq_false] at hopen
        obtain ⟨closed, hclosed, h⟩ := Option.bind_eq_some_iff.mp h
        split at h
        · next error hresult' =>
          obtain rfl := Option.some.inj h
          exact .closingFailed hfed hresult hfinal hopen hclosed hresult'
        · next hresult' =>
          obtain rfl := Option.some.inj h
          exact .endedClosing hfed hresult hfinal hopen hclosed hresult'
        · next hresult' =>
          have hdecoded := Decoded.closed hfed hresult hfinal hopen hclosed hresult'
          split at h
          · next hreset =>
            obtain rfl := Option.some.inj h
            rwa [if_pos hreset] at hdecoded
          · next hkeeps =>
            obtain rfl := Option.some.inj h
            rwa [if_neg hkeeps] at hdecoded
    · next hmore =>
      obtain rfl := Option.some.inj h
      exact .more hfed hresult ((Bool.not_eq_true _).mp hmore)

/-- What becomes of a call on a live decoder. -/
inductive Settled (D : Decompress σ) (decoder : Decoder σ) (input : Bytes) (finalFragment : Bool)
    (limit : DecompressedLimit) : Except CodecError Bytes × Decoder σ → Prop where
  | failed {decoded : Outcome σ Unit} {error : CodecError} :
      Decoded D decoder input finalFragment limit decoded → decoded.result = .error error →
      Settled D decoder input finalFragment limit
        (.error error, { decoded.decoder with poisoned := true })
  | answered {decoded : Outcome σ Unit} :
      Decoded D decoder input finalFragment limit decoded → decoded.result = .ok () →
      Settled D decoder input finalFragment limit (.ok decoded.output,
        { decoded.decoder with
          delivered :=
            if finalFragment then 0
            else saturatingAdd decoded.decoder.delivered decoded.output.length })

theorem decompress_settled {r : Except CodecError Bytes × Decoder σ}
    (hlive : decoder.poisoned = false)
    (h : decoder.decompress D input finalFragment limit = some r) :
    Settled D decoder input finalFragment limit r := by
  unfold Decoder.decompress at h
  rw [hlive, if_neg Bool.false_ne_true] at h
  obtain ⟨decoded, hdecoded, h⟩ := Option.bind_eq_some_iff.mp h
  split at h
  · next hok =>
    obtain rfl := Option.some.inj h
    exact .answered (decode_decoded hdecoded) hok
  · next error herror =>
    obtain rfl := Option.some.inj h
    exact .failed (decode_decoded hdecoded) herror

/-- What holds of whatever a call on a live decoder answers. -/
structure Called (limit : DecompressedLimit) (finalFragment : Bool) (decoder : Decoder σ)
    (r : Except CodecError Bytes × Decoder σ) : Prop where
  failed : ∀ e, r.1 = .error e → e ≠ .poisoned ∧ r.2.poisoned = true
  within : ∀ out, r.1 = .ok out →
    saturatingAdd decoder.delivered out.length ≤ limit.bytes ∧ r.2.poisoned = false ∧
      r.2.delivered =
        if finalFragment then 0 else saturatingAdd decoder.delivered out.length

theorem Decoded.spec {r : Outcome σ Unit} (h : Decoded D decoder input finalFragment limit r) :
    Kept decoder r.decoder ∧ (∀ e, r.result = .error e → e ≠ .poisoned) ∧
      (r.result = .ok () → saturatingAdd decoder.delivered r.output.length ≤ limit.bytes) := by
  cases h with
  | failed hfed herror =>
    have hf := inflate_spec hfed
    exact ⟨hf.kept, fun e he => Except.error.inj he ▸ hf.not_poisoned _ herror, nofun⟩
  | more hfed hok _ =>
    have hf := inflate_spec hfed
    exact ⟨hf.kept, nofun, fun _ => (hf.within _ hok).2⟩
  | unopened hfed _ _ _ =>
    exact ⟨(inflate_spec hfed).kept, fun e he => Except.error.inj he ▸ nofun, nofun⟩
  | closingFailed hfed _ _ _ hclosed herror =>
    have hc := inflate_spec hclosed
    exact ⟨(inflate_spec hfed).kept.trans hc.kept,
      fun e he => Except.error.inj he ▸ hc.not_poisoned _ herror, nofun⟩
  | endedClosing hfed _ _ _ hclosed _ =>
    exact ⟨(inflate_spec hfed).kept.trans (inflate_spec hclosed).kept,
      fun e he => Except.error.inj he ▸ nofun, nofun⟩
  | closed hfed _ _ _ hclosed hok =>
    have hf := inflate_spec hfed
    have hc := inflate_spec hclosed
    have hsize := (hc.within _ hok).2
    rw [hf.kept.delivered] at hsize
    refine ⟨?_, nofun, fun _ => hsize⟩
    split
    · exact (hf.kept.trans hc.kept).reinitialise
    · exact hf.kept.trans hc.kept

theorem decompress_spec {r : Except CodecError Bytes × Decoder σ}
    (hlive : decoder.poisoned = false)
    (h : decoder.decompress D input finalFragment limit = some r) :
    Called limit finalFragment decoder r := by
  cases decompress_settled hlive h with
  | failed hdecoded herror =>
    obtain ⟨-, hne, -⟩ := hdecoded.spec
    exact ⟨fun e he => ⟨Except.error.inj he ▸ hne _ herror, rfl⟩, nofun⟩
  | answered hdecoded hok =>
    obtain ⟨hkept, -, hsize⟩ := hdecoded.spec
    refine ⟨nofun, fun out he => ?_⟩
    obtain rfl := Except.ok.inj he
    exact ⟨hsize hok, hkept.poisoned.trans hlive, by simp only [hkept.delivered]⟩

end Calls

theorem decompress_returns {limit : DecompressedLimit} (hl : limit.bytes < usizeMax)
    (decoder : Decoder σ) (input : Bytes) (finalFragment : Bool) :
    ∃ r, decoder.decompress D input finalFragment limit = some r := by
  have hdecode : ∃ r, decoder.decode D input finalFragment limit [] = some r := by
    obtain ⟨fed, hfed⟩ := inflate_returns (D := D) hl decoder input []
    obtain ⟨closed, hclosed⟩ := inflate_returns (D := D) hl fed.decoder trailer fed.output
    simp only [Decoder.decode, hfed, hclosed, Option.bind_eq_bind, Option.bind_some]
    split
    · exact ⟨_, rfl⟩
    split
    · split
      · exact ⟨_, rfl⟩
      split
      · exact ⟨_, rfl⟩
      · exact ⟨_, rfl⟩
      split <;> exact ⟨_, rfl⟩
    · exact ⟨_, rfl⟩
  obtain ⟨decoded, hdecoded⟩ := hdecode
  simp only [Decoder.decompress, hdecoded, Option.bind_eq_bind, Option.bind_some]
  split
  · exact ⟨_, rfl⟩
  split <;> exact ⟨_, rfl⟩

/-- A poisoned decoder answers without a backend, and stays as it is. -/
theorem decompress_poisoned (D : Decompress σ) {decoder : Decoder σ}
    (h : decoder.poisoned = true) (input : Bytes) (finalFragment : Bool)
    (limit : DecompressedLimit) :
    decoder.decompress D input finalFragment limit = some (.error .poisoned, decoder) := by
  rw [Decoder.decompress, if_pos h]

end WsPmd.Decoding
