import WsPmd.Backend
import WsPmd.Error
import WsPmd.Library.Loop

/-!
# The decoder for one connection, in one direction

Every message on the wire has lost the four octets `00 00 ff ff` from its tail,
so the decoder feeds them back behind the final fragment. `inflate` drives the
backend one call a turn and bounds what the message produces. A call that never
returns is `none` throughout; `decompress_returns` says when there is none.
-/

namespace WsPmd

open Grammar (Bytes)
open Library

/-- The trailer stripped from every compressed message. -/
def trailer : Bytes := [0x00, 0x00, 0xff, 0xff]

/-- Output taken from the backend per call. -/
def scratchLen : ℕ := 4096

theorem scratchLen_pos : 0 < scratchLen := by decide

def minInflaterWindowBits : ℕ := 9

/-- The width `Decompress::reset` reinitialises at, whatever the stream was built with. -/
def defaultInflaterWindowBits : ℕ := 15

/-- A finite ceiling on the decompressed bytes one message may produce. -/
structure DecompressedLimit where
  bytes : ℕ
  bytes_le : bytes ≤ usizeMax
  deriving DecidableEq

/-- Everything the inflater is built from. -/
structure InflaterConfig where
  zlibHeader : Bool
  windowBits : ℕ
  deriving DecidableEq

namespace InflaterConfig

/-- A peer window of 8 is legal on the wire and below what `flate2` constructs. -/
def forPeerWindow (peerMaxWindowBits : ℕ) : InflaterConfig where
  zlibHeader := false
  windowBits :=
    if peerMaxWindowBits < minInflaterWindowBits then minInflaterWindowBits else peerMaxWindowBits

/-- A decoder keeps the configuration its first inflater was built from, so a
rebuild cannot trip the assertion that the first one passed. -/
def build {σ : Type} (D : Decompress σ) (config : InflaterConfig) : σ :=
  D.newWithWindowBits config.zlibHeader config.windowBits

def resetsInPlace (config : InflaterConfig) : Bool :=
  config.windowBits = defaultInflaterWindowBits

/-- Start `inflater` over, keeping the negotiated window. -/
def reinitialise {σ : Type} (D : Decompress σ) (config : InflaterConfig) (inflater : σ) : σ :=
  if config.resetsInPlace then D.reset inflater config.zlibHeader else config.build D

end InflaterConfig

structure Decoder (σ : Type) where
  config : InflaterConfig
  inflater : σ
  resetBetweenMessages : Bool
  /-- Whether bytes were consumed into a DEFLATE stream that has not ended. -/
  streamOpen : Bool
  delivered : ℕ
  poisoned : Bool
  deriving DecidableEq

/-- What one backend call did. `remaining` is what is left of the input, or
nothing once the backend has stopped moving with nothing left to feed it. -/
structure Step where
  produced : ℕ
  remaining : Option Bytes
  streamEnded : Bool
  deriving DecidableEq

/-- How far a counter moved, clamped to the buffer the call was handed. -/
def advance (before after bufferLen : ℕ) : ℕ := min (after - before) bufferLen

theorem advance_le (before after bufferLen : ℕ) : advance before after bufferLen ≤ bufferLen :=
  Nat.min_le_right _ _

/-- `&bytes[start..]`, a panic past the end: a slice is cut only where its bound is known. -/
def sliceFrom (bytes : Bytes) (start : ℕ) (_ : start ≤ bytes.length) : Bytes := bytes.drop start

theorem sliceFrom_eq {bytes : Bytes} {start : ℕ} (h : start ≤ bytes.length) :
    sliceFrom bytes start h = bytes.drop start := rfl

section Inflating

variable {σ : Type} (D : Decompress σ)

/-- Drive the backend once, and read the outcome off the slice it was given. The
inflater and the scratch buffer come back on either outcome. -/
def step (inflater : σ) (input : Bytes) (room : ℕ) : σ × Bytes × Except CodecError Step :=
  let call := D.decompress inflater input room
  match call.status with
  | none => (call.state, call.scratch, .error .invalidStream)
  | some status =>
    let consumed := advance (D.totalIn inflater) (D.totalIn call.state) input.length
    let produced := advance (D.totalOut inflater) (D.totalOut call.state) room
    let unconsumed := sliceFrom input consumed (advance_le _ _ _)
    let streamEnded := decide (status = .streamEnd)
    if consumed ≠ 0 ∨ produced ≠ 0 then
      (call.state, call.scratch, .ok ⟨produced, some unconsumed, streamEnded⟩)
    else if unconsumed = [] then
      (call.state, call.scratch, .ok ⟨produced, none, streamEnded⟩)
    else (call.state, call.scratch, .error .stalled)

/-- A function that takes the decoder by mutable reference: what it answers,
the decoder it leaves, and the output collected so far. -/
structure Outcome (σ ρ : Type) where
  result : Except CodecError ρ
  decoder : Decoder σ
  output : Bytes

/-- The variables of `inflate`'s loop. -/
structure Inflate (σ : Type) where
  decoder : Decoder σ
  input : Bytes
  output : Bytes
  endedAStream : Bool

namespace Decoder

/-- The decoder an agreement's peer direction mints. -/
def forPeer (peerMaxWindowBits : ℕ) (peerNoContextTakeover : Bool) : Decoder σ where
  config := .forPeerWindow peerMaxWindowBits
  inflater := (InflaterConfig.forPeerWindow peerMaxWindowBits).build D
  resetBetweenMessages := peerNoContextTakeover
  streamOpen := false
  delivered := 0
  poisoned := false

/-- Start the inflater over on a fresh DEFLATE stream. The position moves with it. -/
def reinitialise (decoder : Decoder σ) : Decoder σ :=
  { decoder with
    inflater := decoder.config.reinitialise D decoder.inflater
    streamOpen := false }

/-- The room a turn offers its backend. The one byte past the allowance is the whole
overrun detector. -/
def writable (limit : DecompressedLimit) (s : Inflate σ) : ℕ :=
  let producedSoFar := saturatingAdd s.decoder.delivered s.output.length
  let allowance := limit.bytes - producedSoFar
  min (saturatingAdd allowance 1) scratchLen

/-- The rest of a turn, behind its step. -/
def resume (limit : DecompressedLimit) (s : Inflate σ)
    (stepped : σ × Bytes × Except CodecError Step) : Outcome σ Bool ⊕ Inflate σ :=
  let (inflater, scratch, outcome) := stepped
  let decoder := { s.decoder with inflater }
  match outcome with
  | .error error => .inl ⟨.error error, decoder, s.output⟩
  | .ok step =>
    let output := s.output ++ scratch.take step.produced
    let size := saturatingAdd decoder.delivered output.length
    if size > limit.bytes then
      .inl ⟨.error (.messageTooLong size limit.bytes), decoder, output⟩
    else
      let endedAStream := s.endedAStream || step.streamEnded
      let decoder :=
        if step.streamEnded then decoder.reinitialise D
        -- Consuming a byte is what opens a stream.
        else if step.remaining.any (·.length < s.input.length) then
          { decoder with streamOpen := true }
        else decoder
      match step.remaining with
      | some rest => .inr ⟨decoder, rest, output, endedAStream⟩
      | none => .inl ⟨.ok endedAStream, decoder, output⟩

/-- One turn of `inflate`. -/
def inflateTurn (limit : DecompressedLimit) (s : Inflate σ) : Outcome σ Bool ⊕ Inflate σ :=
  resume D limit s (step D s.decoder.inflater s.input (writable limit s))

/-- Feed `input` until the inflater takes no more, reporting whether any step
ended a DEFLATE stream. -/
def inflate (decoder : Decoder σ) (input : Bytes) (limit : DecompressedLimit) (output : Bytes) :
    Option (Outcome σ Bool) :=
  Loop.run (inflateTurn D limit) ⟨decoder, input, output, false⟩

def decode (decoder : Decoder σ) (input : Bytes) (finalFragment : Bool)
    (limit : DecompressedLimit) (output : Bytes) : Option (Outcome σ Unit) := do
  let fed ← decoder.inflate D input limit output
  match fed.result with
  | .error error => some ⟨.error error, fed.decoder, fed.output⟩
  | .ok _ =>
    if finalFragment then
      -- The mandatory block never arrived.
      if !fed.decoder.streamOpen then some ⟨.error .invalidStream, fed.decoder, fed.output⟩
      else
        let closed ← fed.decoder.inflate D trailer limit fed.output
        match closed.result with
        | .error error => some ⟨.error error, closed.decoder, closed.output⟩
        | .ok true => some ⟨.error .invalidStream, closed.decoder, closed.output⟩
        | .ok false =>
          if closed.decoder.resetBetweenMessages then
            some ⟨.ok (), closed.decoder.reinitialise D, closed.output⟩
          else some ⟨.ok (), closed.decoder, closed.output⟩
    else some ⟨.ok (), fed.decoder, fed.output⟩

/-- Decompress one fragment of the current message. -/
def decompress (decoder : Decoder σ) (input : Bytes) (finalFragment : Bool)
    (limit : DecompressedLimit) : Option (Except CodecError Bytes × Decoder σ) :=
  if decoder.poisoned then some (.error .poisoned, decoder)
  else do
    let decoded ← decoder.decode D input finalFragment limit []
    match decoded.result with
    | .ok () =>
      let delivered :=
        if finalFragment then 0
        else saturatingAdd decoded.decoder.delivered decoded.output.length
      some (.ok decoded.output, { decoded.decoder with delivered })
    | .error error => some (.error error, { decoded.decoder with poisoned := true })

end Decoder

end Inflating

end WsPmd
