import WsPmd.Decoder.Phases
import WsPmd.Encoder.Progress
import WsPmd.RoundTrip

/-!
# Every window is the one agreed on

A backend's window is fixed when it is built, and no call tells its width again. Starting
over is where it could change: a compressor that is reset keeps its width, but an inflater
that is reset in place gets the default one. At any point of any run, inside a call too,
both codecs hold a backend of the width the agreement gave them.
-/

namespace WsPmd

open Grammar (Bytes)
open Library

/-- What no call and no reset takes from a compressor. -/
structure Compress.Keeps {σ : Type} (C : Compress σ) (P : σ → Prop) : Prop where
  reset : ∀ {x}, P x → P (C.reset x)
  call : ∀ {x}, P x → ∀ input flush room, P (C.compressVec x input flush room).state

theorem Compress.Descends.keeps {σ : Type} {C : Compress σ} {P : σ → Prop} (hC : C.Keeps P)
    {first x : σ} (h : C.Descends first x) (hfirst : P first) : P x := by
  induction h with
  | first => exact hfirst
  | reset _ ih => exact hC.reset ih
  | call input flush room _ ih => exact hC.call ih input flush room

/-! ## The compressor at hand -/

namespace Encoding

section Worlds

variable {σ : Type}

/-- There is one compressor at most, and it has `P`. -/
structure Holds (P : σ → Prop) (world : World σ) : Prop where
  held : ∀ x, world.compressor = some x → P x
  vacant : ∀ encoder, world.borrowed = some encoder → encoder.compressor = none

variable {P : σ → Prop}

theorem holds_idle {encoder : Encoder σ} (h : ∀ x, encoder.compressor = some x → P x) :
    Holds P (.idle encoder) := ⟨h, nofun⟩

theorem holds_vacated (encoder : Encoder σ) : Holds P (.idle encoder.vacated) := holds_idle nofun

theorem Holds.on_loan {world : World σ} {x : σ} {encoder : Encoder σ}
    (hheld : world.compressor = some x) (hborrowed : world.borrowed = some encoder)
    (hx : P x) (hvacant : encoder.compressor = none) : Holds P world := by
  constructor
  · intro x' hx'
    obtain rfl := Option.some.inj (hheld.symm.trans hx')
    exact hx
  · intro encoder' hencoder'
    obtain rfl := Option.some.inj (hborrowed.symm.trans hencoder')
    exact hvacant

variable {C : Compress σ} {A : Allocator}

theorem produced_keeps (hC : C.Keeps P) {x x' : σ} {chunk bytes : Bytes} (hx : P x)
    (h : produceAligned C A x chunk = some (.ok (x', bytes))) : P x' := by
  obtain ⟨rounds, hrounds, -⟩ := produceAligned_ok_iff.mp h
  exact (hrounds.descends .first).keeps hC hx

theorem holds_restored (hC : C.Keeps P) (encoder : Encoder σ) {x : σ} (hx : P x) :
    Holds P (.idle (encoder.restore C x)) := by
  refine holds_idle fun x' hx' => ?_
  obtain rfl := Option.some.inj hx'
  split
  · exact hC.reset hx
  · exact hx

/-- A guard that goes away leaves nothing behind. -/
theorem Holds.abandon {world : World σ} (h : Holds P world) {encoder : Encoder σ}
    (hborrowed : world.borrowed = some encoder) : Holds P (.idle encoder) := by
  refine holds_idle fun x hx => ?_
  rw [h.vacant encoder hborrowed] at hx
  cases hx

/-- **One call keeps what its backend keeps.** -/
theorem step_keeps (hC : C.Keeps P) {world world' : World σ} {action : Action} {reply : Reply}
    (h : Holds P world) (hstep : step C A world action = some (reply, world')) :
    Holds P world' := by
  cases stepped_of_step hstep with
  | prepareMessage hheld hproduce =>
    obtain ⟨output, haligned, -⟩ := produce_ok hproduce
    exact .on_loan rfl rfl (produced_keeps hC (h.held _ hheld) haligned) rfl
  | refuseMessage => exact holds_vacated _
  | vacantMessage => exact h
  | beginStreamingMessage hheld => exact .on_loan rfl rfl (h.held _ hheld) rfl
  | vacantStream => exact h
  | prepareNonFinalFragment hproduce =>
    exact .on_loan rfl rfl (produced_keeps hC (h.held _ rfl) (produceNonFinal_ok hproduce))
      (h.vacant _ rfl)
  | refuseNonFinalFragment => exact h.abandon rfl
  | prepareFinalFragment hproduce =>
    obtain ⟨output, haligned, -⟩ := produce_ok hproduce
    exact .on_loan rfl rfl (produced_keeps hC (h.held _ rfl) haligned) (h.vacant _ rfl)
  | refuseFinalFragment => exact h.abandon rfl
  | commitMessage => exact holds_restored hC _ (h.held _ rfl)
  | commitNonFinal => exact .on_loan rfl rfl (h.held _ rfl) (h.vacant _ rfl)
  | commitFinal => exact holds_restored hC _ (h.held _ rfl)
  | resetToPlain =>
    refine holds_idle fun x hx => ?_
    obtain rfl := Option.some.inj hx
    exact hC.reset (h.held _ rfl)
  | drop hborrowed => exact h.abandon hborrowed
  | leak hborrowed => exact h.abandon hborrowed

theorem run_keeps (hC : C.Keeps P) (actions : List Action) :
    ∀ {world last : World σ} {events : List (Action × Reply)}, Holds P world →
      run C A world actions = some (events, last) → Holds P last := by
  induction actions with
  | nil =>
    intro world last events h hrun
    obtain ⟨-, rfl⟩ := Prod.mk.inj (Option.some.inj hrun)
    exact h
  | cons action actions ih =>
    intro world last events h hrun
    simp only [run, Option.bind_eq_bind, Option.bind_eq_some_iff] at hrun
    obtain ⟨⟨reply, mid⟩, hstep, ⟨more, final⟩, hmore, he⟩ := hrun
    obtain ⟨-, rfl⟩ := Prod.mk.inj (Option.some.inj he)
    exact ih (step_keeps hC h hstep) hmore

end Worlds

end Encoding

/-! ## Backends of a width -/

section Sized

variable {σ : Type}

/-- A compressor has the width it was built with, whatever becomes of it. -/
structure Compress.Sized (C : Compress σ) (width : σ → ℕ) : Prop where
  built : ∀ level zlibHeader bits, width (C.newWithWindowBits level zlibHeader bits) = bits
  reset : ∀ x, width (C.reset x) = width x
  call : ∀ x input flush room, width (C.compressVec x input flush room).state = width x

/-- An inflater has the width it was built with, until it is reset. -/
structure Decompress.Sized (D : Decompress σ) (width : σ → ℕ) : Prop where
  built : ∀ zlibHeader bits, width (D.newWithWindowBits zlibHeader bits) = bits
  reset : ∀ x zlibHeader, width (D.reset x zlibHeader) = defaultInflaterWindowBits
  call : ∀ x input room, width (D.decompress x input room).state = width x

theorem Compress.Sized.keeps {C : Compress σ} {width : σ → ℕ} (h : C.Sized width) (bits : ℕ) :
    C.Keeps fun x => width x = bits :=
  ⟨fun hx => (h.reset _).trans hx, fun hx input flush room => (h.call _ input flush room).trans hx⟩

/-- A backend beside the width it has. -/
def Compress.withWidth (C : Compress σ) : Compress (σ × ℕ) where
  newWithWindowBits := fun level zlibHeader bits =>
    (C.newWithWindowBits level zlibHeader bits, bits)
  reset := fun x => (C.reset x.1, x.2)
  totalIn := fun x => C.totalIn x.1
  totalOut := fun x => C.totalOut x.1
  compressVec := fun x input flush room =>
    let call := C.compressVec x.1 input flush room
    ⟨(call.state, x.2), call.appended, call.appended_le, call.status⟩

def Decompress.withWidth (D : Decompress σ) : Decompress (σ × ℕ) where
  newWithWindowBits := fun zlibHeader bits => (D.newWithWindowBits zlibHeader bits, bits)
  reset := fun x zlibHeader => (D.reset x.1 zlibHeader, defaultInflaterWindowBits)
  totalIn := fun x => D.totalIn x.1
  totalOut := fun x => D.totalOut x.1
  decompress := fun x input room =>
    let call := D.decompress x.1 input room
    ⟨(call.state, x.2), call.scratch, call.scratch_length, call.status⟩

theorem Compress.withWidth_sized (C : Compress σ) : C.withWidth.Sized Prod.snd :=
  ⟨fun _ _ _ => rfl, fun _ => rfl, fun _ _ _ _ => rfl⟩

theorem Decompress.withWidth_sized (D : Decompress σ) : D.withWidth.Sized Prod.snd :=
  ⟨fun _ _ => rfl, fun _ _ => rfl, fun _ _ _ => rfl⟩

end Sized

/-! ## The inflater at hand -/

namespace Decoding

section Phases

variable {σ : Type} {D : Decompress σ} {width : σ → ℕ} {config : InflaterConfig}

/-- An inflater as wide as its decoder was set up. -/
structure Fits (width : σ → ℕ) (config : InflaterConfig) (decoder : Decoder σ) : Prop where
  setting : decoder.config = config
  inflater : width decoder.inflater = config.windowBits

/-- It is reset in place only where that keeps its width, and rebuilt everywhere else. -/
theorem Fits.reinitialise (hD : D.Sized width) {decoder : Decoder σ}
    (h : Fits width config decoder) : Fits width config (decoder.reinitialise D) := by
  refine ⟨h.setting, ?_⟩
  unfold Decoder.reinitialise InflaterConfig.reinitialise InflaterConfig.resetsInPlace
  rw [h.setting]
  simp only [decide_eq_true_eq]
  split
  · next hdefault =>
    rw [hdefault]
    exact hD.reset _ _
  · exact hD.built _ _

theorem Fits.called (hD : D.Sized width) {limit : DecompressedLimit} {s : Inflate σ}
    (h : Fits width config s.decoder) : Fits width config (called D limit s) :=
  ⟨h.setting, (hD.call _ _ _).trans h.inflater⟩

theorem Fits.positioned (hD : D.Sized width) {limit : DecompressedLimit} {s : Inflate σ}
    (h : Fits width config s.decoder) : Fits width config (positioned D limit s) := by
  have hcalled : Fits width config (Decoding.called D limit s) := h.called hD
  unfold Decoding.positioned
  split
  · exact hcalled.reinitialise hD
  split
  · exact ⟨hcalled.setting, hcalled.inflater⟩
  · exact hcalled

/-- What a feed that answered leaves. -/
theorem Fits.settle (hD : D.Sized width) {source : Source} {call : Call} {fed : Outcome σ Bool}
    {ended : Bool} (h : Fits width config fed.decoder) :
    Fits width config (Decoding.settle D source call fed ended).2.decoder := by
  unfold Decoding.settle
  cases source with
  | peer =>
    simp only
    split
    · split
      · exact h
      · exact ⟨h.setting, h.inflater⟩
    · exact ⟨h.setting, h.inflater⟩
  | trailer =>
    simp only
    split
    · exact ⟨h.setting, h.inflater⟩
    split
    · have hagain := h.reinitialise hD
      exact ⟨hagain.setting, hagain.inflater⟩
    · exact ⟨h.setting, h.inflater⟩

/-- **A step leaves an inflater of the same width.** -/
theorem advances_fits (hD : D.Sized width) {before after : Phase σ} {events : List Event}
    (h : Fits width config before.decoder) (hstep : Advances D before events after) :
    Fits width config after.decoder := by
  cases hstep with
  | called _ _ => exact h
  | refused _ _ => exact h
  | turned source call s =>
    have hs : Fits width config s.decoder := h
    have hcalled : Fits width config (called D call.limit s) := hs.called hD
    have hpositioned : Fits width config (positioned D call.limit s) := hs.positioned hD
    have hturns := turn_turns (D := D) source call s
    generalize (turn D source call s).1 = events, (turn D source call s).2 = phase at hturns
    cases hturns with
    | failed _ => exact ⟨hcalled.setting, hcalled.inflater⟩
    | settled _ hdecoder _ _ =>
      rw [← hdecoder] at hpositioned
      exact hpositioned.settle hD
    | again hdecoder _ _ =>
      rw [← hdecoder] at hpositioned
      exact hpositioned

end Phases

end Decoding

/-- **No window ever changes.** Of the codecs an agreement mints, over any backends that
keep a width as `flate2` does: in every run of the encoder and its guards the compressor,
wherever it is, has the local window; and at any point of any trace of the decoder, between
two calls and inside one, the inflater has the peer's window, or 9 bits for one of 8. -/
theorem windows_kept {σ τ : Type} (C : Compress σ) (A : Allocator) (D : Decompress τ)
    {negotiated : Negotiated} {config : EncoderConfig} {encoder : Encoder σ} {decoder : Decoder τ}
    (hminted : negotiated.intoCodecs C D config = some (encoder, decoder)) (width : σ → ℕ)
    (width' : τ → ℕ) (hC : C.Sized width) (hD : D.Sized width') :
    (∀ actions events world, Encoding.run C A (.idle encoder) actions = some (events, world) →
      ∀ x, world.compressor = some x → width x = negotiated.localMaxWindowBits) ∧
    ∀ log phase, Trace (Decoding.Advances D) (.rest decoder) log phase →
      width' phase.decoder.inflater = max negotiated.peerMaxWindowBits minInflaterWindowBits := by
  obtain ⟨rfl, rfl⟩ := RoundTrip.intoCodecs_some hminted
  constructor
  · intro actions events world hrun
    have hstart : Encoding.Holds (fun x => width x = negotiated.localMaxWindowBits)
        (.idle ⟨some (C.newWithWindowBits config.level false negotiated.localMaxWindowBits),
          negotiated.localNoContextTakeover⟩) :=
      Encoding.holds_idle fun x hx => Option.some.inj hx ▸ hC.built _ _ _
    exact (Encoding.run_keeps (hC.keeps _) actions hstart hrun).held
  · intro log phase htrace
    have hstart : Decoding.Fits width' (.forPeerWindow negotiated.peerMaxWindowBits)
        (Decoder.forPeer D negotiated.peerMaxWindowBits negotiated.peerNoContextTakeover) :=
      ⟨rfl, hD.built _ _⟩
    have hfits := htrace.invariant
      (fun _ phase => Decoding.Fits width' (.forPeerWindow negotiated.peerMaxWindowBits)
        phase.decoder) hstart fun _ _ _ _ h hstep => Decoding.advances_fits hD h hstep
    rw [hfits.inflater]
    simp only [InflaterConfig.forPeerWindow]
    split <;> omega

/-- What a compressor with a window of 12 bits makes of a message of one byte. -/
theorem narrow_prepares :
    Encoder.prepareMessage Encoding.storedCompress.withWidth Encoding.exactAllocator
        ⟨some (⟨[], [], 0, 0⟩, 12), true⟩ [0x61] =
      some (.ok ⟨⟨none, true⟩, (⟨[], [], 1, 11⟩, 12),
        [0x00, 0x01, 0x00, 0xfe, 0xff, 0x61, 0x00]⟩) := by
  have hfeed : feed Encoding.storedCompress.withWidth Encoding.exactAllocator
      (⟨[], [], 0, 0⟩, 12) [0x61] Output.new (roomFor 1) =
        some (.ok ((⟨[0x61], [], 1, 0⟩, 12), ⟨[], 65, by decide⟩)) :=
    Loop.run_of_runFor (n := 2) rfl
  have hflush : syncFlush Encoding.storedCompress.withWidth Encoding.exactAllocator
      (⟨[0x61], [], 1, 0⟩, 12) ⟨[], 65, by decide⟩ (roomFor 1) =
        some (.ok ((⟨[], [], 1, 11⟩, 12), ⟨[0x00, 0x01, 0x00, 0xfe, 0xff, 0x61] ++
          [0x00] ++ trailer, 65, by decide⟩)) := Loop.run_of_runFor (n := 1) rfl
  have haligned : produceAligned Encoding.storedCompress.withWidth Encoding.exactAllocator
      (⟨[], [], 0, 0⟩, 12) [0x61] = some (.ok ((⟨[], [], 1, 11⟩, 12),
        [0x00, 0x01, 0x00, 0xfe, 0xff, 0x61] ++ [0x00] ++ trailer)) := by
    unfold produceAligned
    exact Option.bind_eq_some_iff.mpr ⟨_, hfeed, Option.bind_eq_some_iff.mpr ⟨_, hflush, rfl⟩⟩
  have hproduce : produce Encoding.storedCompress.withWidth Encoding.exactAllocator
      (⟨[], [], 0, 0⟩, 12) [0x61] = some (.ok ((⟨[], [], 1, 11⟩, 12),
        [0x00, 0x01, 0x00, 0xfe, 0xff, 0x61, 0x00])) := by
    unfold produce
    exact Option.bind_eq_some_iff.mpr ⟨_, haligned, rfl⟩
  exact Option.bind_eq_some_iff.mpr ⟨_, hproduce, rfl⟩

/-- What an inflater for a peer's window of 8 bits makes of one. It is rebuilt behind it. -/
theorem narrow_accepts :
    (Decoder.forPeer Decoding.copyDecompress.withWidth 8 true).decompress
        Decoding.copyDecompress.withWidth [0x61] true ⟨5, by decide⟩ =
      some (.ok [0x61, 0x00, 0x00, 0xff, 0xff],
        Decoder.forPeer Decoding.copyDecompress.withWidth 8 true) := by
  have hfed : (Decoder.forPeer Decoding.copyDecompress.withWidth 8 true).inflate
      Decoding.copyDecompress.withWidth [0x61] ⟨5, by decide⟩ [] =
        some ⟨.ok false, { Decoder.forPeer Decoding.copyDecompress.withWidth 8 true with
          inflater := ((1, 1), 9), streamOpen := true }, [0x61]⟩ := Loop.run_of_runFor (n := 2) rfl
  have hclosed : Decoder.inflate Decoding.copyDecompress.withWidth
      { Decoder.forPeer Decoding.copyDecompress.withWidth 8 true with
        inflater := ((1, 1), 9), streamOpen := true } trailer ⟨5, by decide⟩ [0x61] =
      some ⟨.ok false, { Decoder.forPeer Decoding.copyDecompress.withWidth 8 true with
        inflater := ((5, 5), 9), streamOpen := true }, [0x61, 0x00, 0x00, 0xff, 0xff]⟩ :=
    Loop.run_of_runFor (n := 2) rfl
  have hdecoded : (Decoder.forPeer Decoding.copyDecompress.withWidth 8 true).decode
      Decoding.copyDecompress.withWidth [0x61] true ⟨5, by decide⟩ [] =
        some ⟨.ok (), Decoder.forPeer Decoding.copyDecompress.withWidth 8 true,
          [0x61, 0x00, 0x00, 0xff, 0xff]⟩ :=
    Option.bind_eq_some_iff.mpr ⟨_, hfed, Option.bind_eq_some_iff.mpr ⟨_, hclosed, rfl⟩⟩
  exact Option.bind_eq_some_iff.mpr ⟨_, hdecoded, rfl⟩

/-- A window of 12 bits, through a message and the reset behind it, and a peer's of 8,
through a message and the rebuild behind it. -/
theorem windows_kept_narrow :
    ∃ events encoder log last,
      Encoding.run Encoding.storedCompress.withWidth Encoding.exactAllocator
        (.idle ⟨some (⟨[], [], 0, 0⟩, 12), true⟩) [.prepareMessage [0x61], .commit] =
          some (events, .idle encoder) ∧
      Trace (Decoding.Advances Decoding.copyDecompress.withWidth)
        (.rest (Decoder.forPeer Decoding.copyDecompress.withWidth 8 true)) log (.rest last) ∧
      Decoding.answers log = [.ok [0x61, 0x00, 0x00, 0xff, 0xff]] ∧
      encoder.compressor.map Prod.snd = some 12 ∧ last.inflater.2 = 9 := by
  have hminted : Negotiated.intoCodecs Encoding.storedCompress.withWidth
      Decoding.copyDecompress.withWidth ⟨.server, true, true, 12, 8⟩ .new =
        some (⟨some (⟨[], [], 0, 0⟩, 12), true⟩, Decoder.forPeer _ 8 true) := rfl
  have hrun : Encoding.run Encoding.storedCompress.withWidth Encoding.exactAllocator
      (.idle ⟨some (⟨[], [], 0, 0⟩, 12), true⟩) [.prepareMessage [0x61], .commit] =
        some ([(.prepareMessage [0x61], .guard),
          (.commit, .message [0x00, 0x01, 0x00, 0xfe, 0xff, 0x61, 0x00])],
          .idle ⟨some (⟨[], [], 0, 0⟩, 12), true⟩) := by
    simp only [Encoding.run, Encoding.step, narrow_prepares]
    rfl
  have hcalls : Decoding.run Decoding.copyDecompress.withWidth
      (Decoder.forPeer Decoding.copyDecompress.withWidth 8 true) [⟨[0x61], true, ⟨5, by decide⟩⟩] =
        some ([.ok [0x61, 0x00, 0x00, 0xff, 0xff]], _) :=
    Decoding.run_cons narrow_accepts (Decoding.run_nil _ _)
  obtain ⟨log, htrace, -, hanswers⟩ := Decoding.trace_of_run hcalls
  obtain ⟨hcompressor, hinflater⟩ := windows_kept Encoding.storedCompress.withWidth
    Encoding.exactAllocator Decoding.copyDecompress.withWidth hminted Prod.snd Prod.snd
    (Compress.withWidth_sized _) (Decompress.withWidth_sized _)
  exact ⟨_, _, log, _, hrun, htrace, hanswers,
    congrArg some (hcompressor _ _ _ hrun _ rfl), hinflater _ _ htrace⟩

end WsPmd
