import WsPmd.Decoder.Conforming
import WsPmd.Encoder.Ledger

/-!
# One side's encoder, the other side's decoder

The sender's compressor retains a part of the history the receiver's inflater holds.
Committing a message adds it to both, going plain empties the one and leaves the
other, and a reset between messages may come more often at the sender. So what the
sender has committed is a conversation of conforming payloads, and the receiver's
answers to it are the texts.
-/

namespace WsPmd.RoundTrip

open Grammar (Bytes)
open Library
open Library.ByteMachine (Pending)
open Library.Deflate (Headed Inflater machine)
open Encoding (Aligned SyncFlushes)
open Decoding (Conversation Payload Message Greedy)

/-! ## What the sender does -/

section Sending

variable {σ : Type} (C : Compress σ) (A : Allocator)

/-- Committed fragments of a message in progress: their chunks, and their bytes. -/
inductive Streams : StreamingMessage σ → List Bytes → Bytes → StreamingMessage σ → Prop where
  | done {stream : StreamingMessage σ} : Streams stream [] [] stream
  | fragment {stream last : StreamingMessage σ} {payload wire : Bytes} {chunks : List Bytes}
      {fragment : PreparedNonFinalFragment σ} :
      stream.prepareNonFinalFragment C A payload = some (.ok fragment) →
      Streams fragment.commit.2 chunks wire last →
      Streams stream (payload :: chunks) (fragment.commit.1 ++ wire) last

/-- A run of the sender, with what it put on the wire compressed: the bytes of each
message beside its text. -/
inductive Sends : Encoder σ → List (Bytes × Bytes) → Encoder σ → Prop where
  | done {encoder : Encoder σ} : Sends encoder [] encoder
  | message {encoder last : Encoder σ} {payload : Bytes} {guard : PreparedMessage σ}
      {sent : List (Bytes × Bytes)} :
      encoder.prepareMessage C A payload = some (.ok guard) →
      Sends (guard.commit C).2 sent last →
      Sends encoder (((guard.commit C).1, payload) :: sent) last
  | plain {encoder last : Encoder σ} {payload : Bytes} {guard : PreparedMessage σ}
      {sent : List (Bytes × Bytes)} :
      encoder.prepareMessage C A payload = some (.ok guard) →
      Sends (guard.resetToPlain C) sent last → Sends encoder sent last
  | stream {encoder last : Encoder σ} {stream stream' : StreamingMessage σ} {chunks : List Bytes}
      {wire payload : Bytes} {fragment : PreparedFinalFragment σ} {sent : List (Bytes × Bytes)} :
      encoder.beginStreamingMessage = .ok stream → Streams C A stream chunks wire stream' →
      stream'.prepareFinalFragment C A payload = some (.ok fragment) →
      Sends (fragment.commit C).2 sent last →
      Sends encoder ((wire ++ (fragment.commit C).1, chunks.flatten ++ payload) :: sent) last

end Sending

/-! ## Aligned chunks -/

section Chunks

variable {window : ℕ} {recent bytes bytes' text text' : Bytes}

theorem Aligned.headed (h : Aligned window recent bytes text)
    (h' : Headed window (text.reverse ++ recent) bytes' text') :
    Headed window recent (bytes ++ bytes') (text ++ text') := by
  rcases h with ⟨rfl, rfl⟩ | ⟨headed, rfl, hheaded⟩
  · exact h'
  · rw [List.append_assoc]
    exact hheaded.append h'

theorem Aligned.append (h : Aligned window recent bytes text)
    (h' : Aligned window (text.reverse ++ recent) bytes' text') :
    Aligned window recent (bytes ++ bytes') (text ++ text') := by
  rcases h' with ⟨rfl, rfl⟩ | ⟨headed, rfl, hheaded⟩
  · rw [List.append_nil, List.append_nil]
    exact h
  · rw [← List.append_assoc]
    exact Or.inr ⟨_, rfl, Aligned.headed h hheaded⟩

theorem headed_emptyMessage : Headed window recent emptyMessage [] := by
  have hbits : Deflate.bits emptyMessage = [] ++ ([false, false, false] ++ .replicate 5 false) :=
    rfl
  exact .mk .nil rfl hbits

/-- Taking the trailer off leaves the header it completes, and so does the octet that
stands in for an empty output. -/
theorem Aligned.strip (h : Aligned window recent bytes text)
    (hstrip : stripOrSynthesize text bytes = .ok bytes') : Headed window recent bytes' text := by
  unfold stripOrSynthesize at hstrip
  rcases h with ⟨rfl, rfl⟩ | ⟨headed, rfl, hheaded⟩
  · have hshort : ¬ trailer <:+ [] := fun h => by cases List.suffix_nil.mp h
    rw [if_neg hshort, if_pos ⟨rfl, rfl⟩] at hstrip
    obtain rfl := Except.ok.inj hstrip
    exact headed_emptyMessage
  · rw [if_pos (List.suffix_append headed trailer), List.length_append, Nat.add_sub_cancel,
      List.take_left] at hstrip
    obtain rfl := Except.ok.inj hstrip
    exact hheaded

end Chunks

/-! ## The link between the two histories -/

section Link

variable {σ : Type} {C : Compress σ} {A : Allocator} {holds : σ → Bytes → Prop}
  {level windowBits : ℕ}

/-- A drained compressor that retains some of the receiver's most recent history. -/
def Retains (holds : σ → Bytes → Prop) (compressor : σ) (recent : Bytes) : Prop :=
  ∃ own, holds compressor own ∧ own <+: recent

/-- A sender at rest, linked to a receiver with this history. -/
structure Linked (holds : σ → Bytes → Prop) (reset : Bool) (encoder : Encoder σ)
    (recent : Bytes) : Prop where
  setting : encoder.resetBetweenMessages = reset
  held : ∃ compressor, encoder.compressor = some compressor ∧ Retains holds compressor recent

/-- One chunk: aligned bytes for the receiver, and the link kept. -/
theorem Retains.chunk (hC : SyncFlushes C holds level windowBits) {compressor next : σ}
    {recent payload out : Bytes} (h : Retains holds compressor recent)
    (haligned : produceAligned C A compressor payload = some (.ok (next, out))) :
    Aligned (2 ^ windowBits) recent out payload ∧
      Retains holds next (payload.reverse ++ recent) := by
  obtain ⟨own, hholds, older, rfl⟩ := h
  obtain ⟨fed, x1, flushed, hfed, hflushed, rfl⟩ := Encoding.produceAligned_ok haligned
  constructor
  · rcases hC.flushed _ _ _ _ _ _ _ hholds hfed hflushed with hnothing | ⟨headed, hout, hheaded⟩
    · exact Or.inl hnothing
    · exact Or.inr ⟨headed, hout, hheaded.older older⟩
  · obtain ⟨own', hprefix, hholds'⟩ := hC.retained _ _ _ _ _ _ _ hholds hfed hflushed
    refine ⟨own', hholds', hprefix.trans ?_⟩
    rw [← List.append_assoc]
    exact List.prefix_append _ older

theorem Retains.reset (hC : SyncFlushes C holds level windowBits) {compressor : σ}
    {recent : Bytes} (h : Retains holds compressor recent) (recent' : Bytes) :
    Retains holds (C.reset compressor) recent' := by
  obtain ⟨own, hholds, -⟩ := h
  exact ⟨[], hC.reset _ _ hholds, List.nil_prefix⟩

/-- The compressor goes back at the end of a message, and the receiver starts over at
most where the sender does. -/
theorem Retains.restore (hC : SyncFlushes C holds level windowBits) {reset reset' : Bool}
    (htakeover : reset' = true → reset = true) {compressor : σ} {recent : Bytes}
    (h : Retains holds compressor recent) {encoder : Encoder σ}
    (hsetting : encoder.resetBetweenMessages = reset) :
    Linked holds reset (encoder.restore C compressor) (if reset' then [] else recent) := by
  refine ⟨hsetting, _, rfl, ?_⟩
  rw [hsetting]
  cases reset with
  | true => exact h.reset hC _
  | false =>
    have hkeeps : reset' = false := by
      cases reset' with
      | false => rfl
      | true => exact absurd (htakeover rfl) Bool.false_ne_true
    rw [hkeeps]
    exact h

/-- Committed fragments, between the first and the last. -/
theorem streams_aligned (hC : SyncFlushes C holds level windowBits)
    {stream last : StreamingMessage σ} {chunks : List Bytes} {wire : Bytes}
    (h : Streams C A stream chunks wire last) :
    ∀ {recent : Bytes}, Retains holds stream.compressor recent →
      Aligned (2 ^ windowBits) recent wire chunks.flatten ∧
      Retains holds last.compressor (chunks.flatten.reverse ++ recent) ∧
      last.encoder = stream.encoder := by
  induction h with
  | done => exact fun hretains => ⟨Or.inl ⟨rfl, rfl⟩, hretains, rfl⟩
  | fragment hprepare _ ih =>
    intro recent hretains
    obtain ⟨haligned, hencoder⟩ := Encoding.prepareNonFinalFragment_ok hprepare
    obtain ⟨hfirst, hnext⟩ := hretains.chunk hC haligned
    obtain ⟨hrest, hlast, hkept⟩ := ih hnext
    rw [List.flatten_cons, List.reverse_append, List.append_assoc]
    exact ⟨Aligned.append hfirst hrest, hlast, hkept.trans hencoder⟩

/-- **What was sent is a conversation.** -/
theorem sends_conversation (hC : SyncFlushes C holds level windowBits) {reset reset' : Bool}
    (htakeover : reset' = true → reset = true) {encoder last : Encoder σ}
    {sent : List (Bytes × Bytes)} (h : Sends C A encoder sent last) :
    ∀ {recent : Bytes}, Linked holds reset encoder recent →
      Conversation (2 ^ windowBits) reset' recent sent := by
  induction h with
  | done => exact fun _ => .nil
  | message hprepare _ ih =>
    intro recent hlinked
    obtain ⟨compressor, hsome, hretains⟩ := hlinked.held
    obtain ⟨compressor', output, hsome', haligned, hstrip, hencoder⟩ :=
      Encoding.prepareMessage_ok hprepare
    obtain rfl := Option.some.inj (hsome.symm.trans hsome')
    obtain ⟨hout, hnext⟩ := hretains.chunk hC haligned
    refine .cons (.tail (Aligned.strip hout hstrip)) (ih (hnext.restore hC htakeover ?_))
    rw [hencoder]
    exact hlinked.setting
  | @plain encoder last payload guard sent hprepare _ ih =>
    intro recent hlinked
    obtain ⟨compressor, hsome, hretains⟩ := hlinked.held
    obtain ⟨compressor', output, hsome', haligned, -, hencoder⟩ :=
      Encoding.prepareMessage_ok hprepare
    obtain rfl := Option.some.inj (hsome.symm.trans hsome')
    obtain ⟨-, hnext⟩ := hretains.chunk hC haligned
    have hsetting : guard.encoder.resetBetweenMessages = reset := by
      rw [hencoder]
      exact hlinked.setting
    exact ih ⟨hsetting, _, rfl, hnext.reset hC recent⟩
  | @stream encoder last stream stream' chunks wire payload fragment sent hbegin hstreams hprepare _
      ih =>
    intro recent hlinked
    obtain ⟨compressor, hsome, hretains⟩ := hlinked.held
    obtain rfl : (⟨encoder.vacated, compressor⟩ : StreamingMessage σ) = stream := by
      unfold Encoder.beginStreamingMessage at hbegin
      rw [hsome] at hbegin
      exact Except.ok.inj hbegin
    obtain ⟨hwire, hopen, hkept⟩ := streams_aligned hC hstreams hretains
    obtain ⟨output, haligned, hstrip, hencoder⟩ := Encoding.prepareFinalFragment_ok hprepare
    obtain ⟨hout, hnext⟩ := hopen.chunk hC haligned
    rw [← List.append_assoc, ← List.reverse_append] at hnext
    refine .cons (.tail (Aligned.headed hwire (Aligned.strip hout hstrip)))
      (ih (hnext.restore hC htakeover ?_))
    rw [hencoder, hkept]
    exact hlinked.setting

end Link

/-! ## Two agreements -/

/-- What an agreement mints, when it mints anything. -/
theorem intoCodecs_some {σ τ : Type} {C : Compress σ} {D : Decompress τ} {negotiated : Negotiated}
    {config : EncoderConfig} {encoder : Encoder σ} {decoder : Decoder τ}
    (h : negotiated.intoCodecs C D config = some (encoder, decoder)) :
    encoder = ⟨some (C.newWithWindowBits config.level false negotiated.localMaxWindowBits),
      negotiated.localNoContextTakeover⟩ ∧
    decoder = Decoder.forPeer D negotiated.peerMaxWindowBits negotiated.peerNoContextTakeover := by
  unfold Negotiated.intoCodecs at h
  obtain ⟨encoder', hencoder, h⟩ := Option.bind_eq_some_iff.mp h
  obtain ⟨-, -, h⟩ := Option.bind_eq_some_iff.mp h
  obtain ⟨-, -, h⟩ := Option.bind_eq_some_iff.mp h
  obtain ⟨rfl, rfl⟩ := Prod.mk.inj (Option.some.inj h)
  exact ⟨Encoding.forAgreement_some hencoder, rfl⟩

/-- **Whole connections round trip.** Whatever the sender committed, candidates it
gave up for plain messages among it, the other side's decoder answers in full: in
any fragments, under limits no smaller than the messages, every call succeeds, and
the answers to each message are the payload it was made from. -/
theorem round_trip {σ σ' τ ρ : Type} (C : Compress σ) (A : Allocator) (C' : Compress σ')
    (D' : Decompress τ) (window : ℕ) (I : Inflater window ρ)
    (D : Decompress (Pending ρ))
    {sender receiver : Negotiated} {config config' : EncoderConfig} {encoder : Encoder σ}
    {encoder' : Encoder σ'} {decoder' : Decoder τ} {decoder : Decoder (Pending ρ)}
    (hsender : sender.intoCodecs C D' config = some (encoder, decoder'))
    (hreceiver : receiver.intoCodecs C' D config' = some (encoder', decoder))
    (hbits : sender.localMaxWindowBits ≤ receiver.peerMaxWindowBits)
    (htakeover : receiver.peerNoContextTakeover = true → sender.localNoContextTakeover = true)
    (holds : σ → Bytes → Prop)
    (hC : SyncFlushes C holds config.level sender.localMaxWindowBits)
    (hG : Greedy I.machine D
      (InflaterConfig.forPeerWindow receiver.peerMaxWindowBits).windowBits)
    (hwindow : 2 ^ receiver.peerMaxWindowBits ≤ window)
    {last : Encoder σ} {sent : List (Bytes × Bytes)} (hsends : Sends C A encoder sent last)
    (messages : List Message)
    (hsent : messages.map (fun message => (message.payload, message.text)) = sent)
    (hfits : ∀ message ∈ messages, message.Fits) :
    ∃ (outs : List (List Bytes)) (decoder'' : Decoder (Pending ρ)),
      Decoding.run D decoder (messages.flatMap Message.calls) =
        some (outs.flatten.map .ok, decoder'') ∧
      List.Forall₂ (fun message out =>
        out.length = message.calls.length ∧ out.flatten = message.text) messages outs := by
  obtain ⟨rfl, -⟩ := intoCodecs_some hsender
  obtain ⟨-, rfl⟩ := intoCodecs_some hreceiver
  have hlinked : Linked holds sender.localNoContextTakeover
      ⟨some (C.newWithWindowBits config.level false sender.localMaxWindowBits),
        sender.localNoContextTakeover⟩ [] :=
    ⟨rfl, _, rfl, [], hC.built, List.nil_prefix⟩
  have hconversation := sends_conversation hC htakeover hsends hlinked
  rw [← hsent] at hconversation
  have hwide : 2 ^ sender.localMaxWindowBits ≤ window :=
    (Nat.pow_le_pow_right (by omega) hbits).trans hwindow
  rw [Decoding.forPeer_placed receiver.peerNoContextTakeover hG]
  exact Decoding.conversation_run hG hwide rfl rfl messages hfits I.boundary_start
    hconversation

/-- A message of one byte over backends that store, cut in two on the way. -/
theorem round_trip_stored :
    ∃ (outs : List (List Bytes)) (decoder : Decoder (Pending Deflate.State)),
      Decoding.run (Decoding.greedyInflater (machine (2 ^ 15)))
        (Decoder.forPeer (Decoding.greedyInflater (machine (2 ^ 15))) 15 false)
        (Message.calls ⟨[⟨[0x00, 0x01, 0x00], ⟨1, by decide⟩⟩],
          ⟨[0xfe, 0xff, 0x61, 0x00], ⟨1, by decide⟩⟩, [0x61]⟩) =
          some (outs.flatten.map .ok, decoder) := by
  have hsends : Sends Encoding.storedCompress Encoding.exactAllocator
      ⟨some ⟨[], [], 0, 0⟩, false⟩ [([0x00, 0x01, 0x00, 0xfe, 0xff, 0x61, 0x00], [0x61])]
      ⟨some ⟨[], [], 1, 11⟩, false⟩ := .message (Encoding.stored_prepares false) .done
  have hsender : Negotiated.intoCodecs Encoding.storedCompress
      (Decoding.greedyInflater (machine (2 ^ 15))) ⟨.client, false, false, 15, 15⟩ .new =
        some (⟨some ⟨[], [], 0, 0⟩, false⟩, Decoder.forPeer _ 15 false) := rfl
  have hreceiver : Negotiated.intoCodecs Encoding.storedCompress
      (Decoding.greedyInflater (machine (2 ^ 15))) ⟨.server, false, false, 15, 15⟩ .new =
        some (⟨some ⟨[], [], 0, 0⟩, false⟩, Decoder.forPeer _ 15 false) := rfl
  obtain ⟨outs, decoder, hrun, -⟩ := round_trip Encoding.storedCompress Encoding.exactAllocator
    Encoding.storedCompress (Decoding.greedyInflater (machine (2 ^ 15))) (2 ^ 15) (.eager _)
    (Decoding.greedyInflater (machine (2 ^ 15))) hsender hreceiver (Nat.le_refl 15)
    (fun h => nomatch h) _ (Encoding.storedCompress_flushes _ _)
    (Decoding.greedyInflater_greedy _ _) (Nat.le_refl _) hsends
    [⟨[⟨[0x00, 0x01, 0x00], ⟨1, by decide⟩⟩], ⟨[0xfe, 0xff, 0x61, 0x00], ⟨1, by decide⟩⟩, [0x61]⟩]
    rfl
    (List.forall_mem_singleton.mpr ⟨List.forall_mem_singleton.mpr (Nat.le_refl 1), Nat.le_refl 1⟩)
  rw [List.flatMap_singleton] at hrun
  exact ⟨outs, decoder, hrun⟩

end WsPmd.RoundTrip
