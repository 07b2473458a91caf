import WsPmd.Connection.Delivery

/-!
# Messages that stand alone

A sender that starts over behind every message refers to nothing outside it. Whatever
becomes of its messages on the way, each one that does arrive reads as it was made: some
may be lost, come twice or overtake others, and the receiver may start over between them
or keep what it has.
-/

namespace WsPmd.Connection

open Grammar (Bytes)
open Library
open Library.ByteMachine (Pending)
open Library.Deflate (Inflater machine)
open Encoding (SyncFlushes)
open Decoding (Payload Conversation Message Greedy)
open RoundTrip (Sends Linked)

section Payloads

variable {window : ℕ} {reset : Bool}

/-- What refers to the start of a history reads the same behind any more of it. -/
theorem payload_older {recent payload text recent' : Bytes}
    (h : Payload window recent payload text recent') (older : Bytes) :
    ∃ recent'', Payload window (recent ++ older) payload text recent'' := by
  cases h with
  | tail hheaded => exact ⟨_, .tail (hheaded.older older)⟩
  | stream hstream hrest => exact ⟨_, .stream (hstream.older older) hrest⟩

/-- A conversation that starts over behind every message is its messages. -/
theorem conversation_reset_iff {sent : List (Bytes × Bytes)} :
    Conversation window true [] sent ↔
      ∀ message ∈ sent, ∃ recent, Payload window [] message.1 message.2 recent := by
  constructor
  · intro h
    induction sent with
    | nil =>
      intro message hmem
      cases hmem
    | cons first rest ih =>
      cases h with
      | cons hfirst hrest => exact List.forall_mem_cons.mpr ⟨⟨_, hfirst⟩, ih hrest⟩
  · intro h
    induction sent with
    | nil => exact .nil
    | cons first rest ih =>
      obtain ⟨⟨recent, hfirst⟩, hrest⟩ := List.forall_mem_cons.mp h
      exact .cons hfirst (ih hrest)

/-- Messages that refer to nothing outside them are a conversation in any order, for a
receiver that starts over between them and for one that does not. -/
theorem conversation_of_standalone {messages : List (Bytes × Bytes)}
    (h : ∀ message ∈ messages, ∃ recent, Payload window [] message.1 message.2 recent) :
    ∀ recent, Conversation window reset recent messages := by
  induction messages with
  | nil => exact fun _ => .nil
  | cons first rest ih =>
    intro recent
    obtain ⟨⟨_, hfirst⟩, hrest⟩ := List.forall_mem_cons.mp h
    obtain ⟨_, hfirst'⟩ := payload_older hfirst recent
    rw [List.nil_append] at hfirst'
    exact .cons hfirst' (ih hrest _)

end Payloads

/-- **Without context takeover every message stands alone.** Of the messages such a sender
committed, whichever arrive, in whatever order and however often, the other side's decoder
answers each in full, whatever it agreed to keep between messages itself. -/
theorem messages_stand_alone {σ σ' τ ρ : Type} (C : Compress σ) (A : Allocator) (C' : Compress σ')
    (D' : Decompress τ) (window : ℕ) (I : Inflater window ρ)
    (D : Decompress (Pending ρ))
    {sender receiver : Negotiated} {config config' : EncoderConfig} {encoder : Encoder σ}
    {encoder' : Encoder σ'} {decoder' : Decoder τ} {decoder : Decoder (Pending ρ)}
    (hsender : sender.intoCodecs C D' config = some (encoder, decoder'))
    (hreceiver : receiver.intoCodecs C' D config' = some (encoder', decoder))
    (hbits : sender.localMaxWindowBits ≤ receiver.peerMaxWindowBits)
    (hreset : sender.localNoContextTakeover = true)
    (holds : σ → Bytes → Prop)
    (hC : SyncFlushes C holds config.level sender.localMaxWindowBits)
    (hG : Greedy I.machine D
      (InflaterConfig.forPeerWindow receiver.peerMaxWindowBits).windowBits)
    (hwindow : 2 ^ receiver.peerMaxWindowBits ≤ window)
    {last : Encoder σ} {sent : List (Bytes × Bytes)} (hsends : Sends C A encoder sent last)
    (messages : List Message)
    (hsent : ∀ message ∈ messages, (message.payload, message.text) ∈ sent)
    (hfits : ∀ message ∈ messages, message.Fits) :
    ∃ (outs : List (List Bytes)) (decoder'' : Decoder (Pending ρ)),
      Decoding.run D decoder (messages.flatMap Message.calls) =
        some (outs.flatten.map .ok, decoder'') ∧
      List.Forall₂ (fun message out =>
        out.length = message.calls.length ∧ out.flatten = message.text) messages outs := by
  obtain ⟨rfl, -⟩ := RoundTrip.intoCodecs_some hsender
  obtain ⟨-, rfl⟩ := RoundTrip.intoCodecs_some hreceiver
  have hlinked : Linked holds true
      ⟨some (C.newWithWindowBits config.level false sender.localMaxWindowBits),
        sender.localNoContextTakeover⟩ [] :=
    ⟨hreset, _, rfl, [], hC.built, List.nil_prefix⟩
  have halone := conversation_reset_iff.mp
    (RoundTrip.sends_conversation hC (fun _ => rfl) hsends hlinked)
  have harrived : ∀ message ∈ messages.map fun message => (message.payload, message.text),
      ∃ recent, Payload (2 ^ sender.localMaxWindowBits) [] message.1 message.2 recent := by
    intro message hmem
    obtain ⟨arrived, harrived, rfl⟩ := List.mem_map.mp hmem
    exact halone _ (hsent arrived harrived)
  exact conversation_delivered hbits hG hwindow (conversation_of_standalone harrived []) hfits

/-- A message over backends that store, which comes twice. -/
theorem messages_stand_alone_twice :
    ∃ (outs : List (List Bytes)) (decoder : Decoder (Pending Deflate.State)),
      Decoding.run (Decoding.greedyInflater (machine (2 ^ 15)))
        (Decoder.forPeer (Decoding.greedyInflater (machine (2 ^ 15))) 15 true)
        ([⟨[0x00, 0x01, 0x00, 0xfe, 0xff, 0x61, 0x00], true, ⟨1, by decide⟩⟩,
          ⟨[0x00, 0x01, 0x00, 0xfe, 0xff, 0x61, 0x00], true, ⟨1, by decide⟩⟩]) =
          some (outs.flatten.map .ok, decoder) ∧ outs.map List.flatten = [[0x61], [0x61]] := by
  let message : Message :=
    ⟨[], ⟨[0x00, 0x01, 0x00, 0xfe, 0xff, 0x61, 0x00], ⟨1, by decide⟩⟩, [0x61]⟩
  have hsends : Sends Encoding.storedCompress Encoding.exactAllocator
      ⟨some ⟨[], [], 0, 0⟩, true⟩ [([0x00, 0x01, 0x00, 0xfe, 0xff, 0x61, 0x00], [0x61])]
      ⟨some ⟨[], [], 0, 0⟩, true⟩ := .message (Encoding.stored_prepares true) .done
  have hsender : Negotiated.intoCodecs Encoding.storedCompress
      (Decoding.greedyInflater (machine (2 ^ 15))) ⟨.client, false, true, 15, 15⟩ .new =
        some (⟨some ⟨[], [], 0, 0⟩, true⟩, Decoder.forPeer _ 15 false) := rfl
  have hreceiver : Negotiated.intoCodecs Encoding.storedCompress
      (Decoding.greedyInflater (machine (2 ^ 15))) ⟨.server, false, true, 15, 15⟩ .new =
        some (⟨some ⟨[], [], 0, 0⟩, false⟩, Decoder.forPeer _ 15 true) := rfl
  have hfits : message.Fits := ⟨nofun, Nat.le_refl 1⟩
  have hsent : (message.payload, message.text) ∈
      [(([0x00, 0x01, 0x00, 0xfe, 0xff, 0x61, 0x00] : Bytes), ([0x61] : Bytes))] :=
    List.mem_singleton.mpr rfl
  obtain ⟨outs, decoder, hrun, hall⟩ := messages_stand_alone Encoding.storedCompress
    Encoding.exactAllocator Encoding.storedCompress
    (Decoding.greedyInflater (machine (2 ^ 15))) (2 ^ 15) (.eager _)
    (Decoding.greedyInflater (machine (2 ^ 15))) hsender hreceiver (Nat.le_refl 15) rfl _
    (Encoding.storedCompress_flushes _ _) (Decoding.greedyInflater_greedy _ _) (Nat.le_refl _)
    hsends [message, message]
    (List.forall_mem_cons.mpr ⟨hsent, List.forall_mem_singleton.mpr hsent⟩)
    (List.forall_mem_cons.mpr ⟨hfits, List.forall_mem_singleton.mpr hfits⟩)
  refine ⟨outs, decoder, hrun, ?_⟩
  exact texts_of_answers hall

end WsPmd.Connection
