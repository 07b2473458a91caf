import WsPmd.Connection.Link
import WsPmd.Handshake.Opening

/-!
# A whole connection, from the handshakes on

Ends that concluded a handshake hold the same four parameters, so the codecs that each of
them mints fit the other's. The two directions share nothing, and a run of the connection
is to each of them a run of its own: both are safe however the calls of all four codecs
interleave.
-/

namespace WsPmd.Connection

open Grammar (Bytes)
open Library
open Library.ByteMachine (Pending)
open Library.Deflate (Inflater machine)
open Encoding (SyncFlushes World)
open Decoding (Greedy)
open Handshake (Answered Concluded)

/-- Both directions of a connection. -/
structure Duplex (σ σ' ρ ρ' : Type) where
  upstream : Link σ ρ'
  downstream : Link σ' ρ

inductive Direction where
  | up
  | down
  deriving DecidableEq

/-- Some call of one of the four codecs. The client sends upstream with `C` and reads what
comes down with `D`. -/
inductive Duplex.Step {σ σ' ρ ρ' : Type} (C : Compress σ) (C' : Compress σ') (A : Allocator)
    (D : Decompress ρ) (D' : Decompress ρ') :
    Duplex σ σ' ρ ρ' → List (Direction × Event) → Duplex σ σ' ρ ρ' → Prop where
  | up {duplex : Duplex σ σ' ρ ρ'} {events : List Event} {link : Link σ ρ'} :
      Connection.Step C A D' duplex.upstream events link →
      Duplex.Step C C' A D D' duplex (events.map (Direction.up, ·)) { duplex with upstream := link }
  | down {duplex : Duplex σ σ' ρ ρ'} {events : List Event} {link : Link σ' ρ} :
      Connection.Step C' A D duplex.downstream events link →
      Duplex.Step C C' A D D' duplex (events.map (Direction.down, ·))
        { duplex with downstream := link }

/-- What was done in one direction. -/
def sees (direction : Direction) (event : Direction × Event) : Option Event :=
  if event.1 = direction then some event.2 else none

/-- The log of one direction. -/
def along (direction : Direction) (log : List (Direction × Event)) : List Event :=
  log.filterMap (sees direction)

theorem along_same (direction : Direction) (events : List Event) :
    (events.map (direction, ·)).filterMap (sees direction) = events := by
  rw [List.filterMap_map]
  have hsees : (sees direction ∘ (direction, ·)) = some := funext fun _ => if_pos rfl
  rw [hsees, List.filterMap_some]

theorem along_other {direction other : Direction} (h : other ≠ direction) (events : List Event) :
    (events.map (other, ·)).filterMap (sees direction) = [] := by
  rw [List.filterMap_map, List.filterMap_eq_nil_iff]
  exact fun _ _ => if_neg h

section Projections

variable {σ σ' ρ ρ' : Type} {C : Compress σ} {C' : Compress σ'} {A : Allocator}
  {D : Decompress ρ} {D' : Decompress ρ'} {start last : Duplex σ σ' ρ ρ'}
  {log : List (Direction × Event)}

theorem upstream_trace (h : Trace (Duplex.Step C C' A D D') start log last) :
    Trace (Connection.Step C A D') start.upstream (along .up log) last.upstream := by
  have hother : Direction.down ≠ Direction.up := by decide
  refine h.project Duplex.upstream (sees .up) fun s events t hstep => ?_
  cases hstep with
  | up hup =>
    rw [along_same]
    exact Or.inl hup
  | down _ => exact Or.inr ⟨rfl, along_other hother _⟩

theorem downstream_trace (h : Trace (Duplex.Step C C' A D D') start log last) :
    Trace (Connection.Step C' A D) start.downstream (along .down log) last.downstream := by
  have hother : Direction.up ≠ Direction.down := by decide
  refine h.project Duplex.downstream (sees .down) fun s events t hstep => ?_
  cases hstep with
  | up _ => exact Or.inr ⟨rfl, along_other hother _⟩
  | down hdown =>
    rw [along_same]
    exact Or.inl hdown

/-- One end may do all of its own while the other direction rests. -/
theorem trace_up (duplex : Duplex σ σ' ρ ρ') {log : List Event} {link : Link σ ρ'}
    (h : Trace (Connection.Step C A D') duplex.upstream log link) :
    Trace (Duplex.Step C C' A D D') duplex (log.map (Direction.up, ·))
      { duplex with upstream := link } :=
  h.within (fun link => { duplex with upstream := link }) (Direction.up, ·)
    fun _ _ _ hstep => .up hstep

theorem trace_down (duplex : Duplex σ σ' ρ ρ') {log : List Event} {link : Link σ' ρ}
    (h : Trace (Connection.Step C' A D) duplex.downstream log link) :
    Trace (Duplex.Step C C' A D D') duplex (log.map (Direction.down, ·))
      { duplex with downstream := link } :=
  h.within (fun link => { duplex with downstream := link }) (Direction.down, ·)
    fun _ _ _ hstep => .down hstep

end Projections

/-! ## Both ends -/

/-- An agreement both of whose windows can be built mints its codecs. -/
theorem intoCodecs_buildable {n : Negotiated} (h : Handshake.Buildable n) {σ τ : Type}
    (C : Compress σ) (D : Decompress τ) (config : EncoderConfig) :
    n.intoCodecs C D config =
      some (⟨some (C.newWithWindowBits config.level false n.localMaxWindowBits),
          n.localNoContextTakeover⟩,
        Decoder.forPeer D n.peerMaxWindowBits n.peerNoContextTakeover) := by
  obtain ⟨hl1, hl2, hp1, hp2⟩ := h
  have hbuild : (CompressorConfig.forLocal n config).build C =
      some (C.newWithWindowBits config.level false n.localMaxWindowBits) := by
    simp only [CompressorConfig.build, CompressorConfig.forLocal, minCompressorWindowBits,
      maxCompressorWindowBits, hl1, hl2, and_self, if_true]
  have hlocal : assertedWindowBits n.localMaxWindowBits = true := by
    simp [assertedWindowBits, hl1, hl2]
  have hpeer : assertedWindowBits
      (InflaterConfig.forPeerWindow n.peerMaxWindowBits).windowBits = true := by
    rw [Handshake.forPeerWindow_windowBits hp1]
    simp only [assertedWindowBits, Bool.and_eq_true, decide_eq_true_eq]
    split <;> omega
  simp only [Negotiated.intoCodecs, Encoder.forAgreement, hbuild, Decoder.forPeer, hlocal, hpeer,
    guard, if_true]
  rfl

/-- Codecs minted from agreements that fit are safe in both directions. -/
theorem safe_of_fits {σ σ' ρ ρ' : Type} (C : Compress σ) (C' : Compress σ') (A : Allocator)
    (window window' : ℕ) (I : Inflater window ρ) (I' : Inflater window' ρ')
    (D : Decompress (Pending ρ)) (D' : Decompress (Pending ρ')) {c s : Negotiated}
    (hc : Handshake.Buildable c) (hs : Handshake.Buildable s) (hfits : Handshake.Fits c s)
    (config config' : EncoderConfig) (holds : σ → Bytes → Prop) (holds' : σ' → Bytes → Prop)
    (hC : SyncFlushes C holds config.level c.localMaxWindowBits)
    (hC' : SyncFlushes C' holds' config'.level s.localMaxWindowBits)
    (hG : Greedy I.machine D
      (InflaterConfig.forPeerWindow c.peerMaxWindowBits).windowBits)
    (hG' : Greedy I'.machine D'
      (InflaterConfig.forPeerWindow s.peerMaxWindowBits).windowBits)
    (hwindow : 2 ^ c.peerMaxWindowBits ≤ window) (hwindow' : 2 ^ s.peerMaxWindowBits ≤ window') :
    ∃ encoder decoder encoder' decoder',
      c.intoCodecs C D config = some (encoder, decoder) ∧
      s.intoCodecs C' D' config' = some (encoder', decoder') ∧
      ∀ log last, Trace (Duplex.Step C C' A D D')
          ⟨⟨.idle encoder, [], decoder'⟩, ⟨.idle encoder', [], decoder⟩⟩ log last →
        Safe D' (along .up log) last.upstream ∧ Safe D (along .down log) last.downstream := by
  refine ⟨_, _, _, _, intoCodecs_buildable hc C D config, intoCodecs_buildable hs C' D' config',
    fun log last htrace => ⟨?_, ?_⟩⟩
  · exact trace_safe hC hfits.local_window hwindow' hG' hfits.local_takeover (upstream_trace htrace)
  · exact trace_safe hC' hfits.peer_window hwindow hG hfits.peer_takeover (downstream_trace htrace)

/-- **A connection is safe from its handshakes on.** Whatever the configurations and
whatever else the request and the response held, ends that concluded a handshake mint
their codecs. From there on, however the calls of all four interleave, both directions
are safe. -/
theorem duplex_safe {σ σ' ρ ρ' : Type} (C : Compress σ) (C' : Compress σ') (A : Allocator)
    (window window' : ℕ) (I : Inflater window ρ) (I' : Inflater window' ρ')
    (D : Decompress (Pending ρ)) (D' : Decompress (Pending ρ')) {client : ClientConfig}
    {server : ServerConfig} {c s : Negotiated} (hconcluded : Concluded client server c s)
    (config config' : EncoderConfig) (holds : σ → Bytes → Prop) (holds' : σ' → Bytes → Prop)
    (hC : SyncFlushes C holds config.level c.localMaxWindowBits)
    (hC' : SyncFlushes C' holds' config'.level s.localMaxWindowBits)
    (hG : Greedy I.machine D
      (InflaterConfig.forPeerWindow c.peerMaxWindowBits).windowBits)
    (hG' : Greedy I'.machine D'
      (InflaterConfig.forPeerWindow s.peerMaxWindowBits).windowBits)
    (hwindow : 2 ^ c.peerMaxWindowBits ≤ window) (hwindow' : 2 ^ s.peerMaxWindowBits ≤ window') :
    ∃ encoder decoder encoder' decoder',
      c.intoCodecs C D config = some (encoder, decoder) ∧
      s.intoCodecs C' D' config' = some (encoder', decoder') ∧
      ∀ log last, Trace (Duplex.Step C C' A D D')
          ⟨⟨.idle encoder, [], decoder'⟩, ⟨.idle encoder', [], decoder⟩⟩ log last →
        Safe D' (along .up log) last.upstream ∧ Safe D (along .down log) last.downstream := by
  obtain ⟨hc, hs⟩ := hconcluded.buildable
  exact safe_of_fits C C' A window window' I I' D D' hc hs hconcluded.mirrored.fits config config'
    holds holds' hC hC' hG hG' hwindow hwindow'

/-- A connection over backends that store, as its handshakes leave it. -/
def storedDuplex : Duplex Encoding.Stored Encoding.Stored (Pending Deflate.State)
    (Pending Deflate.State) :=
  ⟨storedLink 10 true, storedLink 13 true⟩

/-- Each end sends a message of one byte, and the other receives it. -/
theorem duplex_safe_stored :
    ∃ log last, Trace (Duplex.Step Encoding.storedCompress Encoding.storedCompress
        Encoding.exactAllocator (Decoding.greedyInflater (machine (2 ^ 15)))
        (Decoding.greedyInflater (machine (2 ^ 15)))) storedDuplex log last ∧
      received (along .up log) = spell [0x61] true ∧
      received (along .down log) = spell [0x61] true ∧
      Safe (Decoding.greedyInflater (machine (2 ^ 15))) (along .up log) last.upstream ∧
      Safe (Decoding.greedyInflater (machine (2 ^ 15))) (along .down log) last.downstream := by
  obtain ⟨encoder, decoder, encoder', decoder', hclient, hserver, hsafe⟩ :=
    duplex_safe Encoding.storedCompress Encoding.storedCompress Encoding.exactAllocator
      (2 ^ 15) (2 ^ 15) (.eager _) (.eager _) (Decoding.greedyInflater (machine (2 ^ 15)))
      (Decoding.greedyInflater (machine (2 ^ 15))) Handshake.composed_concluded .new .new _ _
      (Encoding.storedCompress_flushes _ _) (Encoding.storedCompress_flushes _ _)
      (Decoding.greedyInflater_greedy _ _) (Decoding.greedyInflater_greedy _ _)
      (by decide) (by decide)
  obtain ⟨rfl, rfl⟩ := Prod.mk.inj (Option.some.inj hclient)
  obtain ⟨rfl, rfl⟩ := Prod.mk.inj (Option.some.inj hserver)
  obtain ⟨log, link, harrives, -, hup_received⟩ := stored_arrives 10 true
  obtain ⟨log', link', harrives', -, hdown_received⟩ := stored_arrives 13 true
  have hup : Trace (Duplex.Step Encoding.storedCompress Encoding.storedCompress
      Encoding.exactAllocator (Decoding.greedyInflater (machine (2 ^ 15)))
      (Decoding.greedyInflater (machine (2 ^ 15)))) storedDuplex (log.map (Direction.up, ·))
      ⟨link, storedLink 13 true⟩ := trace_up storedDuplex harrives
  have htrace := hup.trans (trace_down ⟨link, storedLink 13 true⟩ harrives')
  have hother : Direction.down ≠ Direction.up := by decide
  refine ⟨_, _, htrace, ?_, ?_, hsafe _ _ htrace⟩
  · rw [along, List.filterMap_append, along_same, along_other hother, List.append_nil]
    exact hup_received
  · rw [along, List.filterMap_append, along_same, along_other hother.symm, List.nil_append]
    exact hdown_received

/-! ## Whatever the server was asked -/

/-- **Safety rests on the response alone.** Let a server answer any request, another's or
one that was tampered with. A client that gets the answer finishes exactly if its own offer
permits what the server settled on, and then holds just that, narrowed on its own side
alone. From there on, however the calls of all four codecs interleave, both directions are
safe. -/
theorem answered_safe {σ σ' ρ ρ' : Type} (C : Compress σ) (C' : Compress σ') (A : Allocator)
    (window window' : ℕ) (I : Inflater window ρ) (I' : Inflater window' ρ')
    (D : Decompress (Pending ρ)) (D' : Decompress (Pending ρ')) {client : ClientConfig}
    {server : ServerConfig} {handshake : ClientHandshake} {s : Negotiated} {arrived : HeaderMap}
    (hanswered : Answered client server handshake s arrived) (config config' : EncoderConfig)
    (holds : σ → Bytes → Prop) (holds' : σ' → Bytes → Prop)
    (hC : SyncFlushes C holds config.level (Handshake.heldBeside client s).localMaxWindowBits)
    (hC' : SyncFlushes C' holds' config'.level s.localMaxWindowBits)
    (hG : Greedy I.machine D
      (InflaterConfig.forPeerWindow (Handshake.heldBeside client s).peerMaxWindowBits).windowBits)
    (hG' : Greedy I'.machine D'
      (InflaterConfig.forPeerWindow s.peerMaxWindowBits).windowBits)
    (hwindow : 2 ^ (Handshake.heldBeside client s).peerMaxWindowBits ≤ window)
    (hwindow' : 2 ^ s.peerMaxWindowBits ≤ window') :
    (∀ composition c, handshake.finish arrived composition = .ok (some c) ↔
      Grammar.validate arrived = .ok () ∧ composition = .compatible ∧
        Handshake.Permits client s ∧ c = Handshake.heldBeside client s) ∧
    (Handshake.Permits client s → ∃ encoder decoder encoder' decoder',
      (Handshake.heldBeside client s).intoCodecs C D config = some (encoder, decoder) ∧
      s.intoCodecs C' D' config' = some (encoder', decoder') ∧
      ∀ log last, Trace (Duplex.Step C C' A D D')
          ⟨⟨.idle encoder, [], decoder'⟩, ⟨.idle encoder', [], decoder⟩⟩ log last →
        Safe D' (along .up log) last.upstream ∧ Safe D (along .down log) last.downstream) := by
  obtain ⟨hrole, hs⟩ := hanswered.server_side
  refine ⟨fun composition c => hanswered.finish_iff, fun hpermits => ?_⟩
  exact safe_of_fits C C' A window window' I I' D D' (hanswered.client_side hpermits) hs
    (Handshake.heldBeside_fits hrole) config config' holds holds' hC hC' hG hG' hwindow hwindow'

/-- A client that would keep to a small window, with the answer to a request that a hop
put in place of its own. -/
theorem answered_safe_forged :
    (ClientHandshake.mk (some ⟨Handshake.modestClient, renderOffer Handshake.modestClient⟩)).finish
        Handshake.forgedResponse .compatible = .ok (some ⟨.client, true, false, 15, 10⟩) ∧
      ∃ encoder decoder encoder' decoder',
        (Negotiated.mk .client true false 15 10).intoCodecs Encoding.storedCompress
          (Decoding.greedyInflater (machine (2 ^ 15))) .new = some (encoder, decoder) ∧
        (Negotiated.mk .server true false 15 15).intoCodecs Encoding.storedCompress
          (Decoding.greedyInflater (machine (2 ^ 15))) .new = some (encoder', decoder') ∧
        ∀ log last, Trace (Duplex.Step Encoding.storedCompress Encoding.storedCompress
              Encoding.exactAllocator (Decoding.greedyInflater (machine (2 ^ 15)))
              (Decoding.greedyInflater (machine (2 ^ 15))))
            ⟨⟨.idle encoder, [], decoder'⟩, ⟨.idle encoder', [], decoder⟩⟩ log last →
          Safe (Decoding.greedyInflater (machine (2 ^ 15))) (along .up log) last.upstream ∧
            Safe (Decoding.greedyInflater (machine (2 ^ 15))) (along .down log)
              last.downstream := by
  have hpermits : Handshake.Permits Handshake.modestClient ⟨.server, true, false, 15, 15⟩ :=
    ⟨fun _ => rfl, by decide, by decide⟩
  have hvalid : Grammar.validate Handshake.forgedResponse = .ok () := by decide +kernel
  obtain ⟨hfinish, hsafe⟩ := answered_safe Encoding.storedCompress Encoding.storedCompress
    Encoding.exactAllocator (2 ^ 15) (2 ^ 15) (.eager _) (.eager _)
    (Decoding.greedyInflater (machine (2 ^ 15)))
    (Decoding.greedyInflater (machine (2 ^ 15))) Handshake.forged_answered .new
    .new _ _ (Encoding.storedCompress_flushes _ _) (Encoding.storedCompress_flushes _ _)
    (Decoding.greedyInflater_greedy _ _) (Decoding.greedyInflater_greedy _ _) (Nat.le_refl _)
    (Nat.le_refl _)
  exact ⟨(hfinish .compatible _).mpr ⟨hvalid, rfl, hpermits, rfl⟩, hsafe hpermits⟩

end WsPmd.Connection
