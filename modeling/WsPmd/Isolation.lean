import WsPmd.Encoder.Ledger
import WsPmd.Decoder.Ceiling
import WsPmd.RoundTrip

/-!
# No context takeover isolates messages

Under `no_context_takeover` a message leaves nothing behind. Whatever was committed or
given up for plain before, an encoder that is whole is the one the agreement minted; and
a decoder that accepted a final fragment is the one it minted, flag and counter included,
whichever of the two ways its inflater starts over. So what comes next depends on no
history. All that is asked of the backend is that a reset is a fresh start.
-/

namespace WsPmd

open Grammar (Bytes)
open Library

/-- `Compress::reset` is a fresh compressor of the same level and window. -/
def Compress.ResetIsFresh {σ : Type} (C : Compress σ) (level windowBits : ℕ) : Prop :=
  ∀ x, C.Descends (C.newWithWindowBits level false windowBits) x →
    C.reset x = C.newWithWindowBits level false windowBits

/-- `Decompress::reset` is a fresh inflater of the width it reinitialises at. -/
def Decompress.ResetIsFresh {σ : Type} (D : Decompress σ) : Prop :=
  ∀ x, D.Descends (D.newWithWindowBits false defaultInflaterWindowBits) x →
    D.reset x false = D.newWithWindowBits false defaultInflaterWindowBits

/-! ## The encoder -/

namespace Encoding

variable {σ : Type} {C : Compress σ} {A : Allocator} {negotiated : Negotiated}
  {config : EncoderConfig} {first last : Encoder σ}

/-- A history whose every transaction was resolved leaves the encoder that was minted. -/
theorem resolved_fresh (hminted : Encoder.forAgreement C negotiated config = some first)
    (hreset : C.ResetIsFresh config.level negotiated.localMaxWindowBits)
    (htakeover : negotiated.localNoContextTakeover = true) {actions : List Action}
    {events : List (Action × Reply)}
    (hrun : run C A (.idle first) actions = some (events, .idle last))
    (hresolved : .lost ∉ (Ledger.ofEvents events).closed) : last = first := by
  have hfirst := forAgreement_some hminted
  rw [htakeover] at hfirst
  have hstart : Books C A (C.newWithWindowBits config.level false negotiated.localMaxWindowBits)
      true (.idle first) .empty := by
    rw [hfirst]
    exact ⟨rfl, Or.inr ⟨nofun, _, rfl, rfl⟩⟩
  have hbooks := run_books hreset actions hstart hrun
  rcases hbooks.held with ⟨-, hlost⟩ | ⟨-, compressor, hsome, hreplay⟩
  · exact absurd hlost hresolved
  · have hsetting : last.resetBetweenMessages = true := hbooks.setting
    have hfresh := Option.some.inj hreplay
    rw [hfirst, hfresh, ← hsome, ← hsetting]

end Encoding

/-! ## The decoder -/

namespace Decoding

section Minted

variable {σ : Type} {D : Decompress σ} {first decoder : Decoder σ} {limit : DecompressedLimit}

/-- A decoder some calls after it was minted: set up as it was, and its inflater one
that was built so. -/
structure Minted (D : Decompress σ) (first decoder : Decoder σ) : Prop where
  config : decoder.config = first.config
  reset : decoder.resetBetweenMessages = first.resetBetweenMessages
  inflater : D.Descends (first.config.build D) decoder.inflater

theorem Minted.reinitialise (h : Minted D first decoder) :
    Minted D first (decoder.reinitialise D) := by
  refine ⟨h.config, h.reset, ?_⟩
  unfold Decoder.reinitialise InflaterConfig.reinitialise
  simp only
  split
  · exact h.inflater.reset _
  · rw [h.config]
    exact .first

theorem Minted.called {s : Inflate σ} (h : Minted D first s.decoder) :
    Minted D first (called D limit s) :=
  ⟨h.config, h.reset, h.inflater.call _ _⟩

theorem Minted.positioned {s : Inflate σ} (h : Minted D first s.decoder) :
    Minted D first (positioned D limit s) := by
  unfold Decoding.positioned
  split
  · exact h.called.reinitialise
  split
  · exact ⟨h.config, h.reset, h.called.inflater⟩
  · exact h.called

/-- A turn leaves the decoder as it was minted. -/
theorem turn_minted {s : Inflate σ} (h : Minted D first s.decoder) :
    (∀ r, Decoder.inflateTurn D limit s = .inl r → Minted D first r.decoder) ∧
      ∀ s', Decoder.inflateTurn D limit s = .inr s' → Minted D first s'.decoder := by
  have hturned := inflateTurn_turned (D := D) limit s
  generalize Decoder.inflateTurn D limit s = turn at hturned
  cases hturned with
  | refused _ => exact ⟨fun r hr => Sum.inl.inj hr ▸ h.called, nofun⟩
  | stalled _ _ _ _ => exact ⟨fun r hr => Sum.inl.inj hr ▸ h.called, nofun⟩
  | tooLong _ _ => exact ⟨fun r hr => Sum.inl.inj hr ▸ h.called, nofun⟩
  | drained _ _ _ _ _ => exact ⟨fun r hr => Sum.inl.inj hr ▸ h.positioned, nofun⟩
  | moved _ _ _ => exact ⟨nofun, fun s' hs' => Sum.inr.inj hs' ▸ h.positioned⟩

theorem inflate_minted {input output : Bytes} {r : Outcome σ Bool} (h : Minted D first decoder)
    (hr : decoder.inflate D input limit output = some r) : Minted D first r.decoder :=
  Loop.run_invariant (fun s => Minted D first s.decoder) (fun r => Minted D first r.decoder)
    (fun _ r hs => (turn_minted hs).1 r) (fun _ s' hs => (turn_minted hs).2 s') h hr

/-- What becomes of a fragment leaves the decoder as it was minted, and behind a final
fragment that is accepted the inflater starts over. -/
theorem Decoded.minted {input : Bytes} {finalFragment : Bool} {r : Outcome σ Unit}
    (hr : Decoded D decoder input finalFragment limit r) (h : Minted D first decoder) :
    Minted D first r.decoder ∧ (finalFragment = true → first.resetBetweenMessages = true →
      r.result = .ok () → ∃ closed, Minted D first closed ∧ r.decoder = closed.reinitialise D) := by
  cases hr with
  | failed hfed _ => exact ⟨inflate_minted h hfed, fun _ _ => nofun⟩
  | more hfed _ hmore =>
    exact ⟨inflate_minted h hfed, fun hfinal => absurd (hmore.symm.trans hfinal) Bool.false_ne_true⟩
  | unopened hfed _ _ _ => exact ⟨inflate_minted h hfed, fun _ _ => nofun⟩
  | closingFailed hfed _ _ _ hclosed _ =>
    exact ⟨inflate_minted (inflate_minted h hfed) hclosed, fun _ _ => nofun⟩
  | endedClosing hfed _ _ _ hclosed _ =>
    exact ⟨inflate_minted (inflate_minted h hfed) hclosed, fun _ _ => nofun⟩
  | closed hfed _ _ _ hclosed _ =>
    have hminted := inflate_minted (inflate_minted h hfed) hclosed
    split
    · exact ⟨hminted.reinitialise, fun _ _ _ => ⟨_, hminted, rfl⟩⟩
    · next hkeeps =>
      exact ⟨hminted, fun _ hreset _ => absurd (hminted.reset.trans hreset) hkeeps⟩

theorem decompress_minted {input : Bytes} {finalFragment : Bool}
    {result : Except CodecError Bytes} {next : Decoder σ} (h : Minted D first decoder)
    (hr : decoder.decompress D input finalFragment limit = some (result, next)) :
    Minted D first next := by
  cases hlive : decoder.poisoned with
  | true =>
    rw [decompress_poisoned D hlive] at hr
    obtain ⟨-, rfl⟩ := Prod.mk.inj (Option.some.inj hr)
    exact h
  | false =>
    cases decompress_settled hlive hr with
    | failed hdecoded _ =>
      have hminted := (hdecoded.minted h).1
      exact ⟨hminted.config, hminted.reset, hminted.inflater⟩
    | answered hdecoded _ =>
      have hminted := (hdecoded.minted h).1
      exact ⟨hminted.config, hminted.reset, hminted.inflater⟩

theorem run_minted {calls : List Call} :
    ∀ {decoder last : Decoder σ} {results : List (Except CodecError Bytes)},
      Minted D first decoder → run D decoder calls = some (results, last) →
      Minted D first last := by
  induction calls with
  | nil =>
    intro decoder last results h hrun
    obtain ⟨-, rfl⟩ := Prod.mk.inj (Option.some.inj hrun)
    exact h
  | cons call calls ih =>
    intro decoder last results h hrun
    simp only [run, Option.bind_eq_bind, Option.bind_eq_some_iff] at hrun
    obtain ⟨⟨result, next⟩, hcall, ⟨more, last'⟩, hmore, he⟩ := hrun
    obtain ⟨-, rfl⟩ := Prod.mk.inj (Option.some.inj he)
    exact ih (decompress_minted h hcall) hmore

/-- However an inflater starts over, it is as it was built. -/
theorem reinitialise_fresh (hreset : D.ResetIsFresh) {bits : ℕ} {takeover : Bool}
    (h : Minted D (Decoder.forPeer D bits takeover) decoder) :
    (decoder.reinitialise D).inflater = (Decoder.forPeer D bits takeover).inflater := by
  have hconfig : decoder.config = .forPeerWindow bits := h.config
  have hdescends : D.Descends ((InflaterConfig.forPeerWindow bits).build D) decoder.inflater :=
    h.inflater
  have hbuilt : (Decoder.forPeer D bits takeover).inflater =
    (InflaterConfig.forPeerWindow bits).build D := rfl
  unfold Decoder.reinitialise InflaterConfig.reinitialise
  rw [hconfig, hbuilt]
  simp only
  split
  · next hwidth =>
    have hwindow : (InflaterConfig.forPeerWindow bits).windowBits = defaultInflaterWindowBits :=
      of_decide_eq_true hwidth
    unfold InflaterConfig.build at hdescends ⊢
    rw [hwindow] at hdescends ⊢
    exact hreset _ hdescends
  · rfl

/-- **A message that is over leaves nothing behind.** Under `no_context_takeover` the
decoder behind a final fragment it accepts is the decoder that was minted. -/
theorem final_fresh (hreset : D.ResetIsFresh) {bits : ℕ} {input out : Bytes} {next : Decoder σ}
    (h : Minted D (Decoder.forPeer D bits true) decoder)
    (haccepted : decoder.decompress D input true limit = some (.ok out, next)) :
    next = Decoder.forPeer D bits true := by
  cases hlive : decoder.poisoned with
  | true =>
    rw [decompress_poisoned D hlive] at haccepted
    cases haccepted
  | false =>
    cases decompress_settled hlive haccepted with
    | @answered decoded hdecoded hok =>
      obtain ⟨hminted, hstarts⟩ := hdecoded.minted h
      obtain ⟨closed, hclosed, hdecoder⟩ := hstarts rfl rfl hok
      have hinflater := reinitialise_fresh hreset hclosed
      rw [← hdecoder] at hinflater
      have hopen : decoded.decoder.streamOpen = false := by
        rw [hdecoder]
        rfl
      have hpoisoned : decoded.decoder.poisoned = false := hdecoded.spec.1.poisoned.trans hlive
      have hconfig : decoded.decoder.config = .forPeerWindow bits := hminted.config
      have htakeover : decoded.decoder.resetBetweenMessages = true := hminted.reset
      simp only [hconfig, htakeover, hopen, hpoisoned, hinflater, if_true]
      rfl

/-- A history of complete messages, all of it accepted. -/
structure Complete (D : Decompress σ) (first : Decoder σ) (calls : List Call)
    (last : Decoder σ) : Prop where
  accepted : ∃ outs : List Bytes, run D first calls = some (outs.map .ok, last)
  whole : ∀ call ∈ calls.getLast?, call.finalFragment = true

theorem complete_fresh (hreset : D.ResetIsFresh) {bits : ℕ} {calls : List Call} {last : Decoder σ}
    (h : Complete D (Decoder.forPeer D bits true) calls last) :
    last = Decoder.forPeer D bits true := by
  obtain ⟨outs, hrun⟩ := h.accepted
  rcases List.eq_nil_or_concat calls with rfl | ⟨before, call, rfl⟩
  · exact (Prod.mk.inj (Option.some.inj hrun)).2.symm
  · have hfinal := h.whole call (by simp)
    rw [List.concat_eq_append] at hrun
    obtain ⟨results, mid, result, hbefore, hlast, houts⟩ := run_concat hrun
    obtain ⟨-, final, rfl, -, hout⟩ := List.map_eq_append_iff.mp houts
    obtain ⟨out, rfl, rfl⟩ := List.map_eq_singleton_iff.mp hout
    rw [hfinal] at hlast
    exact final_fresh hreset (run_minted ⟨rfl, rfl, .first⟩ hbefore) hlast

end Minted

end Decoding

/-! ## Both directions -/

/-- **No context takeover isolates messages.** Say a reset of the backend is a fresh start.
Where this side keeps no context, any two histories whose transactions were all resolved
leave encoders that do the same from there on. Where the peer keeps none, a decoder that
accepted a final fragment, whatever it was called with before, is the decoder the agreement
minted; so any two histories of complete messages, all accepted, leave decoders that
answer the same from there on. -/
theorem no_context_takeover_isolates {σ τ : Type} (C : Compress σ) (D : Decompress τ)
    (negotiated : Negotiated) (config : EncoderConfig) {encoder : Encoder σ} {decoder : Decoder τ}
    (hcodecs : negotiated.intoCodecs C D config = some (encoder, decoder))
    (hcompress : C.ResetIsFresh config.level negotiated.localMaxWindowBits)
    (hdecompress : D.ResetIsFresh) :
    (negotiated.localNoContextTakeover = true →
      ∀ A actions events encoder₁ A' actions' events' encoder₂,
        Encoding.run C A (.idle encoder) actions = some (events, .idle encoder₁) →
        .lost ∉ (Encoding.Ledger.ofEvents events).closed →
        Encoding.run C A' (.idle encoder) actions' = some (events', .idle encoder₂) →
        .lost ∉ (Encoding.Ledger.ofEvents events').closed →
        ∀ B next, Encoding.run C B (.idle encoder₁) next = Encoding.run C B (.idle encoder₂) next) ∧
    (negotiated.peerNoContextTakeover = true →
      (∀ calls results before input limit out after,
        Decoding.run D decoder calls = some (results, before) →
        before.decompress D input true limit = some (.ok out, after) → after = decoder) ∧
      ∀ calls decoder₁ calls' decoder₂, Decoding.Complete D decoder calls decoder₁ →
        Decoding.Complete D decoder calls' decoder₂ →
        ∀ next, Decoding.run D decoder₁ next = Decoding.run D decoder₂ next) := by
  obtain ⟨-, rfl⟩ := RoundTrip.intoCodecs_some hcodecs
  obtain ⟨encoder', hminted, hrest⟩ := Option.bind_eq_some_iff.mp hcodecs
  obtain ⟨-, -, hrest⟩ := Option.bind_eq_some_iff.mp hrest
  obtain ⟨-, -, hrest⟩ := Option.bind_eq_some_iff.mp hrest
  obtain ⟨rfl, -⟩ := Prod.mk.inj (Option.some.inj hrest)
  refine ⟨fun htakeover A actions events encoder₁ A' actions' events' encoder₂ hrun hresolved
    hrun' hresolved' B next => ?_, fun htakeover => ⟨?_, ?_⟩⟩
  · rw [Encoding.resolved_fresh hminted hcompress htakeover hrun hresolved,
      Encoding.resolved_fresh hminted hcompress htakeover hrun' hresolved']
  · intro calls results before input limit out after hrun haccepted
    rw [htakeover] at hrun ⊢
    have hstart : Decoding.Minted D (Decoder.forPeer D negotiated.peerMaxWindowBits true)
        (Decoder.forPeer D negotiated.peerMaxWindowBits true) := ⟨rfl, rfl, .first⟩
    exact Decoding.final_fresh hdecompress (Decoding.run_minted hstart hrun) haccepted
  · intro calls decoder₁ calls' decoder₂ h h' next
    rw [htakeover] at h h'
    rw [Decoding.complete_fresh hdecompress h, Decoding.complete_fresh hdecompress h']

/-- What the copying backend makes of a final fragment of one byte. -/
theorem copy_accepts : (Decoder.forPeer Decoding.copyDecompress 15 true).decompress
    Decoding.copyDecompress [0x61] true ⟨5, by decide⟩ =
      some (.ok [0x61, 0x00, 0x00, 0xff, 0xff],
        Decoder.forPeer Decoding.copyDecompress 15 true) := by
  have hfed : (Decoder.forPeer Decoding.copyDecompress 15 true).inflate Decoding.copyDecompress
      [0x61] ⟨5, by decide⟩ [] = some ⟨.ok false, { Decoder.forPeer Decoding.copyDecompress 15 true
        with inflater := (1, 1), streamOpen := true }, [0x61]⟩ := Loop.run_of_runFor (n := 2) rfl
  have hclosed : Decoder.inflate Decoding.copyDecompress
      { Decoder.forPeer Decoding.copyDecompress 15 true with
        inflater := (1, 1), streamOpen := true } trailer ⟨5, by decide⟩ [0x61] =
      some ⟨.ok false, { Decoder.forPeer Decoding.copyDecompress 15 true with
        inflater := (5, 5), streamOpen := true }, [0x61, 0x00, 0x00, 0xff, 0xff]⟩ :=
    Loop.run_of_runFor (n := 2) rfl
  have hdecoded : (Decoder.forPeer Decoding.copyDecompress 15 true).decode
      Decoding.copyDecompress [0x61] true ⟨5, by decide⟩ [] =
        some ⟨.ok (), Decoder.forPeer Decoding.copyDecompress 15 true,
          [0x61, 0x00, 0x00, 0xff, 0xff]⟩ :=
    Option.bind_eq_some_iff.mpr ⟨_, hfed, Option.bind_eq_some_iff.mpr ⟨_, hclosed, rfl⟩⟩
  exact Option.bind_eq_some_iff.mpr ⟨_, hdecoded, rfl⟩

/-- A message of one byte over the backend that stores, and one over the backend that
copies. -/
theorem no_context_takeover_isolates_stored :
    ∃ events encoder out decoder,
      Encoding.run Encoding.storedCompress Encoding.exactAllocator
        (.idle ⟨some ⟨[], [], 0, 0⟩, true⟩) [.prepareMessage [0x61], .commit] =
          some (events, .idle encoder) ∧
      Encoding.run Encoding.storedCompress Encoding.exactAllocator (.idle encoder)
          [.prepareMessage [0x62]] =
        Encoding.run Encoding.storedCompress Encoding.exactAllocator
          (.idle ⟨some ⟨[], [], 0, 0⟩, true⟩) [.prepareMessage [0x62]] ∧
      (Decoder.forPeer Decoding.copyDecompress 15 true).decompress Decoding.copyDecompress [0x61]
        true ⟨5, by decide⟩ = some (.ok out, decoder) ∧
      decoder = Decoder.forPeer Decoding.copyDecompress 15 true := by
  have hcodecs : Negotiated.intoCodecs Encoding.storedCompress Decoding.copyDecompress
      ⟨.client, true, true, 15, 15⟩ .new =
        some (⟨some ⟨[], [], 0, 0⟩, true⟩, Decoder.forPeer Decoding.copyDecompress 15 true) := rfl
  obtain ⟨hencoders, hdecoders⟩ := no_context_takeover_isolates Encoding.storedCompress
    Decoding.copyDecompress ⟨.client, true, true, 15, 15⟩ .new hcodecs (fun _ _ => rfl)
    (fun _ _ => rfl)
  have hrun : Encoding.run Encoding.storedCompress Encoding.exactAllocator
      (.idle ⟨some ⟨[], [], 0, 0⟩, true⟩) [.prepareMessage [0x61], .commit] =
        some ([(.prepareMessage [0x61], .guard),
          (.commit, .message [0x00, 0x01, 0x00, 0xfe, 0xff, 0x61, 0x00])],
          .idle ⟨some ⟨[], [], 0, 0⟩, true⟩) := by
    simp only [Encoding.run, Encoding.step, Encoding.stored_prepares]
    rfl
  refine ⟨_, _, _, _, hrun, ?_, copy_accepts, ?_⟩
  · exact hencoders rfl _ _ _ _ Encoding.exactAllocator [] [] _ hrun (by decide) rfl (by decide) _ _
  · exact (hdecoders rfl).1 [] [] _ _ _ _ _ rfl copy_accepts

end WsPmd
