import WsPmd.Encoder
import WsPmd.Handshake.Rendering
import WsPmd.Server

/-!
# Every agreement builds codecs

A width enters either as digits on the wire, which `parseBits` bounds, or as a
configured value, which its type bounds. Both selections only take minima of
these, and each refuses the one wire value its own compressor cannot hold.
-/

namespace WsPmd.Handshake

open Grammar (Bytes ClientWindow Params Staged)
open WsPmd.Field (bind_eq_ok)

/-! ## Widths on the wire -/

theorem parseBits_range {value : Bytes} {bits : ℕ} (h : Grammar.parseBits value = .ok bits) :
    WireBits bits := by
  obtain ⟨digits, -, h⟩ := bind_eq_ok.mp h
  split at h
  · cases h
  · split at h
    · cases h
    · split at h
      · cases h
      · split at h
        · next hb =>
          obtain rfl := Except.ok.inj h
          simpa [WireBits] using hb
        · cases h

/-- What a walk over a list keeps, its result has. -/
theorem foldlM_invariant {α β : Type} {f : β → α → Except NegotiationError β} (P : β → Prop)
    (hstep : ∀ b a b', P b → f b a = .ok b' → P b') :
    ∀ {l : List α} {b r : β}, P b → l.foldlM f b = .ok r → P r := by
  intro l
  induction l with
  | nil =>
    intro b r hb h
    obtain rfl := Except.ok.inj h
    exact hb
  | cons a l ih =>
    intro b r hb h
    rw [List.foldlM_cons] at h
    obtain ⟨b', h1, h2⟩ := bind_eq_ok.mp h
    exact ih (hstep b a b' hb h1) h2

theorem findSomeM_found {α β : Type} {f : α → Except NegotiationError (Option β)} {l : List α}
    {b : β} (h : l.findSomeM? f = .ok (some b)) : ∃ a ∈ l, f a = .ok (some b) := by
  induction l with
  | nil => cases h
  | cons a l ih =>
    rw [List.findSomeM?_cons] at h
    obtain ⟨found, hf, h⟩ := bind_eq_ok.mp h
    cases found with
    | none =>
      obtain ⟨a', ha', hb⟩ := ih h
      exact ⟨a', List.mem_cons_of_mem a ha', hb⟩
    | some b' =>
      obtain rfl := Option.some.inj (Except.ok.inj h)
      exact ⟨a, List.mem_cons_self, hf⟩

theorem findElement_found {A : Type} {headers : HeaderMap}
    {visit : Bytes → Except NegotiationError (Option A)} {a : A}
    (h : Grammar.findElement headers visit = .ok (some a)) : ∃ e, visit e = .ok (some a) := by
  obtain ⟨value, -, h⟩ := findSomeM_found h
  obtain ⟨parts, -, h⟩ := bind_eq_ok.mp h
  obtain ⟨e, -, h⟩ := findSomeM_found h
  exact ⟨e, h⟩

theorem forElements_invariant {S : Type} (P : S → Prop) {headers : HeaderMap} {init r : S}
    {visit : S → Bytes → Except NegotiationError S}
    (hvisit : ∀ s e s', P s → visit s e = .ok s' → P s') (hinit : P init)
    (h : Grammar.forElements headers init visit = .ok r) : P r := by
  refine foldlM_invariant P (fun s value s' hs hv => ?_) hinit h
  obtain ⟨parts, -, hv⟩ := bind_eq_ok.mp hv
  exact foldlM_invariant P hvisit hs hv

/-- The widths a parsed element can name. -/
structure ParamsInRange (params : Params) : Prop where
  server : ∀ bits, params.serverMaxWindowBits = some bits → WireBits bits
  client : ∀ bits, params.clientMaxWindowBits = .bits bits → WireBits bits

structure StagedInRange (staged : Staged) : Prop where
  server : ∀ bits, staged.serverWindow = some bits → WireBits bits
  client : ∀ bits, staged.clientWindow = some (.bits bits) → WireBits bits

theorem setOnce_ok {T : Type} {slot result : Option T} {value : T}
    (h : Grammar.setOnce slot value = .ok result) : slot = none ∧ result = some value := by
  unfold Grammar.setOnce at h
  cases slot with
  | some _ => cases h
  | none => exact ⟨rfl, (Except.ok.inj h).symm⟩

theorem parseClientWindow_range {value : Option Bytes} {bits : ℕ}
    (h : Grammar.parseClientWindow value = .ok (.bits bits)) : WireBits bits := by
  cases value with
  | none => cases h
  | some value =>
    cases hp : Grammar.parseBits value with
    | error e => simp only [Grammar.parseClientWindow, hp] at h; cases h
    | ok bits' =>
      simp only [Grammar.parseClientWindow, hp] at h
      obtain rfl := ClientWindow.bits.inj (Except.ok.inj h)
      exact parseBits_range hp

theorem parseParam_inRange {staged staged' : Staged} {segment : Bytes}
    (hs : StagedInRange staged) (h : Grammar.parseParam staged segment = .ok staged') :
    StagedInRange staged' := by
  unfold Grammar.parseParam at h
  generalize Grammar.splitParameter segment = cut at h
  obtain ⟨name, value⟩ := cut
  simp only at h
  split at h
  · obtain ⟨flag, -, h⟩ := bind_eq_ok.mp h
    obtain ⟨slot, -, h⟩ := bind_eq_ok.mp h
    obtain rfl := Except.ok.inj h
    exact ⟨hs.server, hs.client⟩
  split at h
  · obtain ⟨flag, -, h⟩ := bind_eq_ok.mp h
    obtain ⟨slot, -, h⟩ := bind_eq_ok.mp h
    obtain rfl := Except.ok.inj h
    exact ⟨hs.server, hs.client⟩
  split at h
  · cases value with
    | none => cases h
    | some value =>
      obtain ⟨bits, hb, h⟩ := bind_eq_ok.mp h
      obtain ⟨slot, hslot, h⟩ := bind_eq_ok.mp h
      obtain rfl := Except.ok.inj h
      obtain ⟨-, rfl⟩ := setOnce_ok hslot
      refine ⟨fun b he => ?_, hs.client⟩
      obtain rfl := Option.some.inj he
      exact parseBits_range hb
  split at h
  · obtain ⟨window, hw, h⟩ := bind_eq_ok.mp h
    obtain ⟨slot, hslot, h⟩ := bind_eq_ok.mp h
    obtain rfl := Except.ok.inj h
    obtain ⟨-, rfl⟩ := setOnce_ok hslot
    refine ⟨hs.server, fun b he => ?_⟩
    obtain rfl := Option.some.inj he
    exact parseClientWindow_range hw
  · cases h

theorem parseParams_inRange {element : Bytes} {params : Params}
    (h : Grammar.parseParams element = .ok params) : ParamsInRange params := by
  obtain ⟨parts, -, h⟩ := bind_eq_ok.mp h
  obtain ⟨staged, hfold, h⟩ := bind_eq_ok.mp h
  obtain rfl := Except.ok.inj h
  have hempty : StagedInRange Staged.empty := ⟨nofun, nofun⟩
  have hs := foldlM_invariant StagedInRange (fun _ _ _ hs h => parseParam_inRange hs h)
    hempty hfold
  refine ⟨hs.server, fun bits hb => hs.client bits ?_⟩
  simp only at hb
  cases hw : staged.clientWindow with
  | none => rw [hw] at hb; cases hb
  | some window => rw [hw] at hb; exact congrArg some hb

/-! ## The two selections -/

/-- The widths both codecs of an agreement can be built with. -/
structure Buildable (n : Negotiated) : Prop where
  local_ge : 9 ≤ n.localMaxWindowBits
  local_le : n.localMaxWindowBits ≤ 15
  peer_ge : 8 ≤ n.peerMaxWindowBits
  peer_le : n.peerMaxWindowBits ≤ 15

theorem serverWindow_range {offer : SealedOffer} {params : Params} {bits : ℕ}
    (hp : ParamsInRange params) (h : offer.serverWindow params = .ok bits) : WireBits bits := by
  unfold SealedOffer.serverWindow at h
  cases hw : params.serverMaxWindowBits with
  | some wire =>
    simp only [hw] at h
    split at h
    · cases h
    · exact Except.ok.inj h ▸ hp.server _ hw
  | none =>
    simp only [hw] at h
    split at h
    · cases h
    · exact Except.ok.inj h ▸ ⟨by decide, by decide⟩

theorem clientWindow_range {offer : SealedOffer} {params : Params} {bits : ℕ}
    (h : offer.clientWindow params = .ok bits) : 9 ≤ bits ∧ bits ≤ 15 := by
  have hoffer : 9 ≤ offer.config.offeredClientMaxWindowBits ∧
      offer.config.offeredClientMaxWindowBits ≤ 15 := offer.config.clientMaxWindowBits.property
  unfold SealedOffer.clientWindow at h
  cases hw : params.clientMaxWindowBits with
  | valueless => simp only [hw] at h; cases h
  | absent =>
    simp only [hw] at h
    exact Except.ok.inj h ▸ hoffer
  | bits wire =>
    simp only [hw] at h
    split at h
    · cases h
    · obtain rfl := Except.ok.inj h
      omega

theorem agree_buildable {offer : SealedOffer} {params : Params} {n : Negotiated}
    (hp : ParamsInRange params) (h : offer.agree params = .ok n) : Buildable n := by
  unfold SealedOffer.agree at h
  split at h
  · cases h
  obtain ⟨server, hserver, h⟩ := bind_eq_ok.mp h
  obtain ⟨client, hclient, h⟩ := bind_eq_ok.mp h
  obtain rfl := Except.ok.inj h
  obtain ⟨hs1, hs2⟩ := serverWindow_range hp hserver
  obtain ⟨hc1, hc2⟩ := clientWindow_range hclient
  exact ⟨hc1, hc2, hs1, hs2⟩

theorem selectServerWindow_range {config : ServerConfig} {offer : Params} {window : Option ℕ}
    (hp : ParamsInRange offer) (h : selectServerWindow config offer = some window) :
    9 ≤ window.getD maxWindowBits ∧ window.getD maxWindowBits ≤ 15 := by
  have hconfig : 9 ≤ config.supportedServerMaxWindowBits ∧
      config.supportedServerMaxWindowBits ≤ 15 := config.serverMaxWindowBits.property
  unfold selectServerWindow at h
  cases hw : offer.serverMaxWindowBits with
  | some wire =>
    have hb := hp.server _ hw
    simp only [WireBits] at hb
    simp only [hw] at h
    split at h
    · cases h
    · obtain rfl := Option.some.inj h
      rw [Option.getD_some]
      omega
  | none =>
    simp only [hw] at h
    split at h
    · exact Option.some.inj h ▸ hconfig
    · exact Option.some.inj h ▸ ⟨by decide, by decide⟩

theorem selectClientWindow_range {config : ServerConfig} {offer : Params} {window : Option ℕ}
    (hp : ParamsInRange offer) (h : selectClientWindow config offer = some window) :
    WireBits (window.getD maxWindowBits) := by
  have hconfig : WireBits config.supportedClientMaxWindowBits :=
    config.clientMaxWindowBits.property
  unfold selectClientWindow at h
  cases hw : offer.clientMaxWindowBits with
  | absent =>
    simp only [hw] at h
    split at h
    · cases h
    · exact Option.some.inj h ▸ ⟨by decide, by decide⟩
  | valueless =>
    simp only [hw] at h
    exact Option.some.inj h ▸ hconfig
  | bits wire =>
    have hb := hp.client _ hw
    simp only [WireBits] at hb hconfig
    simp only [hw] at h
    obtain rfl := Option.some.inj h
    simp only [WireBits, Option.getD_some]
    omega

theorem select_buildable {config : ServerConfig} {offer : Params} {h : ServerHandshake}
    (hp : ParamsInRange offer) (hsel : select config offer = some h) :
    Buildable h.agreement := by
  obtain ⟨server, hserver, hsel⟩ := Option.bind_eq_some_iff.mp hsel
  obtain ⟨client, hclient, hsel⟩ := Option.bind_eq_some_iff.mp hsel
  obtain rfl := Option.some.inj hsel
  obtain ⟨hs1, hs2⟩ := selectServerWindow_range hp hserver
  obtain ⟨hc1, hc2⟩ := selectClientWindow_range hp hclient
  exact ⟨hs1, hs2, hc1, hc2⟩

/-! ## The two handshakes -/

theorem soleDeflate_inRange {headers : HeaderMap} {params : Params}
    (h : soleDeflate headers = .ok (some params)) : ParamsInRange params := by
  have hnone : ∀ p : Params, none = some p → ParamsInRange p := fun p hp => by cases hp
  refine forElements_invariant (fun s => ∀ p, s = some p → ParamsInRange p) ?_ hnone h params rfl
  intro s e s' hs hv
  split at hv
  · exact Except.ok.inj hv ▸ hs
  obtain ⟨named, -, hv⟩ := bind_eq_ok.mp hv
  split at hv
  · exact Except.ok.inj hv ▸ hs
  obtain ⟨p, hp, hv⟩ := bind_eq_ok.mp hv
  split at hv
  · cases hv
  · obtain rfl := Except.ok.inj hv
    intro p' he
    obtain rfl := Option.some.inj he
    exact parseParams_inRange hp

theorem clientFinish_buildable {handshake : ClientHandshake} {headers : HeaderMap}
    {composition : PmdComposition} {n : Negotiated}
    (h : handshake.finish headers composition = .ok (some n)) : Buildable n := by
  obtain ⟨_, -, h⟩ := bind_eq_ok.mp h
  obtain ⟨sole, hsole, h⟩ := bind_eq_ok.mp h
  cases sole with
  | none => cases h
  | some params =>
    generalize handshake.offer = sealedOffer at h
    cases sealedOffer with
    | none => cases h
    | some offer =>
      simp only at h
      split at h
      · cases h
      · cases ha : offer.agree params with
        | error e => rw [ha] at h; cases h
        | ok n' =>
          rw [ha] at h
          obtain rfl := Option.some.inj (Except.ok.inj h)
          exact agree_buildable (soleDeflate_inRange hsole) ha

theorem accept_buildable {config : ServerConfig} {headers : HeaderMap} {h : ServerHandshake}
    (ha : ServerHandshake.accept config headers = .ok (some h)) : Buildable h.agreement := by
  obtain ⟨_, -, ha⟩ := bind_eq_ok.mp ha
  obtain ⟨e, he⟩ := findElement_found ha
  split at he
  · cases he
  obtain ⟨named, -, he⟩ := bind_eq_ok.mp he
  split at he
  · cases he
  cases hp : Grammar.parseParams e with
  | error _ => rw [hp] at he; cases he
  | ok offer =>
    rw [hp] at he
    exact select_buildable (parseParams_inRange hp) (Except.ok.inj he)

theorem serverFinish_agreement {handshake : ServerHandshake} {headers : HeaderMap}
    {composition : PmdComposition} {n : Negotiated}
    (h : handshake.finish headers composition = .ok (some n)) : n = handshake.agreement := by
  obtain ⟨_, -, h⟩ := bind_eq_ok.mp h
  obtain ⟨found, -, h⟩ := bind_eq_ok.mp h
  split at h
  · cases h
  split at h
  · split at h
    · cases h
    · exact (Option.some.inj (Except.ok.inj h)).symm
  · cases h

/-- The agreements the crate can hand out: a client's from a sealed request, with
or without an offer in it, or a server's from a selection it made. -/
inductive Produced : Negotiated → Prop where
  | offered (config : ClientConfig) (request request' sent response : HeaderMap)
      (offer : ClientOffer) (handshake : ClientHandshake) (composition : PmdComposition)
      (n : Negotiated)
      (hinstall : ClientOffer.install config request = .ok (offer, request'))
      (hseal : offer.sealOffer sent = .ok handshake)
      (hfinish : handshake.finish response composition = .ok (some n)) : Produced n
  | unoffered (sent response : HeaderMap) (handshake : ClientHandshake)
      (composition : PmdComposition) (n : Negotiated)
      (hseal : ClientHandshake.sealWithoutOffer sent = .ok handshake)
      (hfinish : handshake.finish response composition = .ok (some n)) : Produced n
  | selected (config : ServerConfig) (request response : HeaderMap) (handshake : ServerHandshake)
      (composition : PmdComposition) (n : Negotiated)
      (haccept : ServerHandshake.accept config request = .ok (some handshake))
      (hfinish : handshake.finish response composition = .ok (some n)) : Produced n

theorem Produced.buildable {n : Negotiated} (h : Produced n) : Buildable n := by
  cases h with
  | offered config request request' sent response offer handshake composition _ _ _ hfinish =>
    exact clientFinish_buildable hfinish
  | unoffered sent response handshake composition _ _ hfinish =>
    exact clientFinish_buildable hfinish
  | selected config request response handshake composition _ haccept hfinish =>
    rw [serverFinish_agreement hfinish]
    exact accept_buildable haccept

theorem forPeerWindow_windowBits {peer : ℕ} (h : 8 ≤ peer) :
    (InflaterConfig.forPeerWindow peer).windowBits = if peer = 8 then 9 else peer := by
  have hlt : peer < minInflaterWindowBits ↔ peer = 8 := by
    unfold minInflaterWindowBits
    omega
  simp only [InflaterConfig.forPeerWindow, hlt]
  rfl

/-- **No agreement panics.** Whatever the headers said, the local width is one a
compressor can be built for and goes to it unchanged; the peer's is a wire width,
and goes to the inflater raised to 9 when it is 8. -/
theorem agreement_builds_codecs {n : Negotiated} (h : Produced n) {σ τ : Type} (C : Compress σ)
    (D : Decompress τ) (config : EncoderConfig) :
    (9 ≤ n.localMaxWindowBits ∧ n.localMaxWindowBits ≤ 15) ∧
      (8 ≤ n.peerMaxWindowBits ∧ n.peerMaxWindowBits ≤ 15) ∧
      (CompressorConfig.forLocal n config).build C =
        some (C.newWithWindowBits config.level false n.localMaxWindowBits) ∧
      ∃ encoder decoder, n.intoCodecs C D config = some (encoder, decoder) ∧
        encoder.compressor = some (C.newWithWindowBits config.level false n.localMaxWindowBits) ∧
        decoder.inflater =
          D.newWithWindowBits false (if n.peerMaxWindowBits = 8 then 9 else n.peerMaxWindowBits) ∧
        assertedWindowBits n.localMaxWindowBits = true ∧
        assertedWindowBits (if n.peerMaxWindowBits = 8 then 9 else n.peerMaxWindowBits) = true := by
  obtain ⟨hl1, hl2, hp1, hp2⟩ := h.buildable
  have hbuild : (CompressorConfig.forLocal n config).build C =
      some (C.newWithWindowBits config.level false n.localMaxWindowBits) := by
    simp only [CompressorConfig.build, CompressorConfig.forLocal, minCompressorWindowBits,
      maxCompressorWindowBits, hl1, hl2, and_self, if_true]
  have hraise := forPeerWindow_windowBits hp1
  have hlocal : assertedWindowBits n.localMaxWindowBits = true := by
    simp [assertedWindowBits, hl1, hl2]
  have hpeer : assertedWindowBits (if n.peerMaxWindowBits = 8 then 9 else n.peerMaxWindowBits) =
      true := by
    simp only [assertedWindowBits, Bool.and_eq_true, decide_eq_true_eq]
    split <;> omega
  have hmint : n.intoCodecs C D config =
      some (⟨some (C.newWithWindowBits config.level false n.localMaxWindowBits),
        n.localNoContextTakeover⟩,
        Decoder.forPeer D n.peerMaxWindowBits n.peerNoContextTakeover) := by
    simp only [Negotiated.intoCodecs, Encoder.forAgreement, hbuild, Decoder.forPeer, hraise,
      hlocal, hpeer, guard, if_true]
    rfl
  refine ⟨⟨hl1, hl2⟩, ⟨hp1, hp2⟩, hbuild, _, _, hmint, rfl, ?_, hlocal, hpeer⟩
  simp only [Decoder.forPeer, InflaterConfig.build, hraise]
  rfl

/-- Backends that remember the width they were built with and never move. -/
def widthCompress : Compress ℕ where
  newWithWindowBits := fun _ _ bits => bits
  reset := fun bits => bits
  totalIn := fun _ => 0
  totalOut := fun _ => 0
  compressVec := fun bits _ _ _ => ⟨bits, [], Nat.zero_le _, some .bufError⟩

def widthDecompress : Decompress ℕ where
  newWithWindowBits := fun _ bits => bits
  reset := fun bits _ => bits
  totalIn := fun _ => 0
  totalOut := fun _ => 0
  decompress := fun bits _ room => ⟨bits, .replicate room 0, List.length_replicate, some .bufError⟩

/-- A client that bounds itself to the narrowest wire width. -/
def narrowRequest : HeaderMap :=
  .ofLines [.fromStatic "permessage-deflate; client_max_window_bits=8" rfl]

def narrowAgreement : Negotiated := ⟨.server, false, false, 15, 8⟩

theorem narrowAgreement_builds_codecs :
    (9 ≤ narrowAgreement.localMaxWindowBits ∧ narrowAgreement.localMaxWindowBits ≤ 15) ∧
      (8 ≤ narrowAgreement.peerMaxWindowBits ∧ narrowAgreement.peerMaxWindowBits ≤ 15) ∧
      (CompressorConfig.forLocal narrowAgreement .new).build widthCompress = some 15 ∧
      ∃ encoder decoder,
        narrowAgreement.intoCodecs widthCompress widthDecompress .new = some (encoder, decoder) ∧
        encoder.compressor = some 15 ∧ decoder.inflater = 9 ∧
        assertedWindowBits 15 = true ∧ assertedWindowBits 9 = true :=
  agreement_builds_codecs
    (.selected .new narrowRequest narrowRequest
      ⟨render false false none (.bits 8), narrowAgreement⟩ .compatible narrowAgreement
      (by decide +kernel) (by decide +kernel))
    widthCompress widthDecompress .new

end WsPmd.Handshake
