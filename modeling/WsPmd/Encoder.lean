import WsPmd.Codec
import WsPmd.Config
import WsPmd.Negotiated

/-!
# The compressor for one connection, and its transactions

Preparing anything moves the compressor out of the encoder and into the returned
guard; only resolving the guard puts it back. A guard owns the encoder it
borrowed, which is vacant for as long as the guard exists, so dropping or
leaking one gives back a vacant encoder, and vacant is poisoned.
-/

namespace WsPmd

open Grammar (Bytes)
open Library

/-- Output room offered to the backend per call. -/
def blockRoom : ℕ := 2 ^ 17

/-- Slack above a payload chunk's own length. -/
def framingMargin : ℕ := 64

/-- Output room to request per round, for a chunk of this size. -/
def roomFor (payloadLen : ℕ) : ℕ := min blockRoom (saturatingAdd payloadLen framingMargin)

def minCompressorWindowBits : ℕ := 9

def maxCompressorWindowBits : ℕ := 15

/-- The payload of a message that compresses to nothing. -/
def emptyMessage : Bytes := [0x00]

/-- Everything the compressor is built from. -/
structure CompressorConfig where
  level : ℕ
  windowBits : ℕ
  deriving DecidableEq

namespace CompressorConfig

/-- The local direction of an agreement. -/
def forLocal (negotiated : Negotiated) (config : EncoderConfig) : CompressorConfig where
  level := config.level
  windowBits := negotiated.localMaxWindowBits

/-- A width outside the range is a panic. -/
def build {σ : Type} (C : Compress σ) (config : CompressorConfig) : Option σ :=
  if minCompressorWindowBits ≤ config.windowBits ∧ config.windowBits ≤ maxCompressorWindowBits then
    some (C.newWithWindowBits config.level false config.windowBits)
  else none

end CompressorConfig

/-- The vector a round writes into. -/
structure Output where
  bytes : Bytes
  capacity : ℕ
  length_le : bytes.length ≤ capacity

namespace Output

def new : Output := ⟨[], 0, Nat.le_refl 0⟩

def spare (output : Output) : ℕ := output.capacity - output.bytes.length

/-- `Vec::reserve`: nothing to do when the room is there. -/
def reserve (A : Allocator) (output : Output) (additional : ℕ) : Output :=
  if additional ≤ output.spare then output
  else {
    output with
    capacity := A.grow output.capacity output.bytes.length additional
    length_le := Nat.le_trans (Nat.le_add_right _ _) (A.grow_ge _ _ _) }

def append (output : Output) (more : Bytes) (h : more.length ≤ output.spare) : Output where
  bytes := output.bytes ++ more
  capacity := output.capacity
  length_le := by
    have hle := output.length_le
    unfold spare at h
    rw [List.length_append]
    omega

end Output

/-- What one backend call moved, and the room it actually had. -/
structure Round where
  consumed : ℕ
  produced : ℕ
  room : ℕ
  deriving DecidableEq

section Producing

variable {σ : Type} (C : Compress σ) (A : Allocator)

/-- Drive the compressor once, into the output's spare capacity. A failed call's
compressor and output are dropped with it. -/
def drive (compressor : σ) (input : Bytes) (output : Output) (flush : FlushCompress) (room : ℕ) :
    Except CodecError (Round × σ × Output) :=
  let output := output.reserve A room
  let room := output.spare
  let call := C.compressVec compressor input flush room
  match call.status with
  | none => .error .compressionFailed
  | some .streamEnd => .error .compressionFailed
  | some _ =>
    .ok (⟨C.totalIn call.state - C.totalIn compressor,
        C.totalOut call.state - C.totalOut compressor, room⟩,
      call.state, output.append call.appended call.appended_le)

/-- The variables of `feed`'s and `syncFlush`'s loops. -/
structure Feed (σ : Type) where
  compressor : σ
  input : Bytes
  output : Output

/-- One turn of `feed`, keyed on what moved and not on the status. -/
def feedTurn (room : ℕ) (s : Feed σ) : Except CodecError (σ × Output) ⊕ Feed σ :=
  if s.input = [] then .inl (.ok (s.compressor, s.output))
  else
    match drive C A s.compressor s.input s.output .none room with
    | .error error => .inl (.error error)
    | .ok (round, compressor, output) =>
      if round.consumed = 0 ∧ round.produced = 0 then .inl (.error .stalled)
      else if s.input.length < round.consumed then .inl (.error .compressionFailed)
      else .inr ⟨compressor, s.input.drop round.consumed, output⟩

/-- Step 1: the whole payload into raw DEFLATE, holding nothing back. -/
def feed (compressor : σ) (payload : Bytes) (output : Output) (room : ℕ) :
    Option (Except CodecError (σ × Output)) :=
  Loop.run (feedTurn C A room) ⟨compressor, payload, output⟩

def syncFlushTurn (room : ℕ) (s : σ × Output) :
    Except CodecError (σ × Output) ⊕ (σ × Output) :=
  match drive C A s.1 [] s.2 .sync room with
  | .error error => .inl (.error error)
  | .ok (round, compressor, output) =>
    if round.produced < round.room then .inl (.ok (compressor, output))
    else .inr (compressor, output)

/-- Step 2: end the message with an empty uncompressed block, flushing again
while a call returns with no output room left. -/
def syncFlush (compressor : σ) (output : Output) (room : ℕ) :
    Option (Except CodecError (σ × Output)) :=
  Loop.run (syncFlushTurn C A room) (compressor, output)

/-- Steps 1 and 2, over one payload chunk. -/
def produceAligned (compressor : σ) (payload : Bytes) : Option (Except CodecError (σ × Bytes)) := do
  let room := roomFor payload.length
  match ← feed C A compressor payload Output.new room with
  | .error error => some (.error error)
  | .ok (compressor, output) =>
    match ← syncFlush C A compressor output room with
    | .error error => some (.error error)
    | .ok (compressor, output) => some (.ok (compressor, output.bytes))

/-- Step 3: remove the four octets the peer's decoder feeds back. -/
def stripOrSynthesize (payload output : Bytes) : Except CodecError Bytes :=
  if trailer <:+ output then .ok (output.take (output.length - trailer.length))
  else if payload = [] ∧ output = [] then .ok emptyMessage
  else .error .compressionFailed

/-- Steps 1 through 3, for one complete message or the final fragment of a streamed one. -/
def produce (compressor : σ) (payload : Bytes) : Option (Except CodecError (σ × Bytes)) := do
  match ← produceAligned C A compressor payload with
  | .error error => some (.error error)
  | .ok (compressor, output) =>
    some ((stripOrSynthesize payload output).map fun message => (compressor, message))

/-- Steps 1 and 2 with step 3 deliberately not run, for a fragment that is not the last. -/
def produceNonFinal (compressor : σ) (payload : Bytes) :
    Option (Except CodecError (σ × Bytes)) := do
  match ← produceAligned C A compressor payload with
  | .error error => some (.error error)
  | .ok (compressor, fragment) =>
    if trailer <:+ fragment ∨ (payload = [] ∧ fragment = []) then
      some (.ok (compressor, fragment))
    else some (.error .compressionFailed)

end Producing

/-- No compressor means a candidate is outstanding, or one was never resolved. -/
structure Encoder (σ : Type) where
  compressor : Option σ
  resetBetweenMessages : Bool
  deriving DecidableEq

/-- A compressed message that has not yet been declared sent or discarded. -/
structure PreparedMessage (σ : Type) where
  encoder : Encoder σ
  compressor : σ
  bytes : Bytes
  deriving DecidableEq

/-- A message being compressed a fragment at a time, between fragments. -/
structure StreamingMessage (σ : Type) where
  encoder : Encoder σ
  compressor : σ
  deriving DecidableEq

/-- A non-final fragment that has not yet been declared sent. -/
structure PreparedNonFinalFragment (σ : Type) where
  encoder : Encoder σ
  compressor : σ
  bytes : Bytes
  deriving DecidableEq

/-- The last fragment of a streamed message, before it is declared sent. -/
structure PreparedFinalFragment (σ : Type) where
  encoder : Encoder σ
  compressor : σ
  bytes : Bytes
  deriving DecidableEq

section Transactions

variable {σ : Type} (C : Compress σ) (A : Allocator)

namespace Encoder

def forAgreement (negotiated : Negotiated) (config : EncoderConfig) : Option (Encoder σ) := do
  let compressor ← (CompressorConfig.forLocal negotiated config).build C
  some ⟨some compressor, negotiated.localNoContextTakeover⟩

/-- The encoder with its compressor taken out of it. -/
def vacated (encoder : Encoder σ) : Encoder σ := { encoder with compressor := none }

/-- Compress one complete message, without deciding that it will be sent. The
encoder comes back beside an error, and inside the guard otherwise. -/
def prepareMessage (encoder : Encoder σ) (payload : Bytes) :
    Option (Except (CodecError × Encoder σ) (PreparedMessage σ)) :=
  match encoder.compressor with
  | none => some (.error (.poisoned, encoder))
  | some compressor => do
    match ← produce C A compressor payload with
    | .error error => some (.error (error, encoder.vacated))
    | .ok (compressor, bytes) => some (.ok ⟨encoder.vacated, compressor, bytes⟩)

/-- Begin a message whose payload the host does not have in full. -/
def beginStreamingMessage (encoder : Encoder σ) :
    Except (CodecError × Encoder σ) (StreamingMessage σ) :=
  match encoder.compressor with
  | none => .error (.poisoned, encoder)
  | some compressor => .ok ⟨encoder.vacated, compressor⟩

/-- Put a compressor back at the end of a message, reset as the agreement says. -/
def restore (encoder : Encoder σ) (compressor : σ) : Encoder σ :=
  { encoder with
    compressor := some (if encoder.resetBetweenMessages then C.reset compressor else compressor) }

end Encoder

namespace PreparedMessage

/-- Declare that these bytes will appear on the wire, and take them. -/
def commit (prepared : PreparedMessage σ) : Bytes × Encoder σ :=
  (prepared.bytes, prepared.encoder.restore C prepared.compressor)

/-- Declare that none of these bytes will appear on the wire. -/
def resetToPlain (prepared : PreparedMessage σ) : Encoder σ :=
  { prepared.encoder with compressor := some (C.reset prepared.compressor) }

end PreparedMessage

namespace StreamingMessage

/-- Compress the next chunk into a fragment that is not the last. -/
def prepareNonFinalFragment (stream : StreamingMessage σ) (payload : Bytes) :
    Option (Except (CodecError × Encoder σ) (PreparedNonFinalFragment σ)) := do
  match ← produceNonFinal C A stream.compressor payload with
  | .error error => some (.error (error, stream.encoder))
  | .ok (compressor, bytes) => some (.ok ⟨stream.encoder, compressor, bytes⟩)

/-- Compress the last chunk and end the message. -/
def prepareFinalFragment (stream : StreamingMessage σ) (payload : Bytes) :
    Option (Except (CodecError × Encoder σ) (PreparedFinalFragment σ)) := do
  match ← produce C A stream.compressor payload with
  | .error error => some (.error (error, stream.encoder))
  | .ok (compressor, bytes) => some (.ok ⟨stream.encoder, compressor, bytes⟩)

end StreamingMessage

/-- Declare that this fragment appeared on the wire. Never resets: this is the
middle of a message. -/
def PreparedNonFinalFragment.commit (fragment : PreparedNonFinalFragment σ) :
    Bytes × StreamingMessage σ :=
  (fragment.bytes, ⟨fragment.encoder, fragment.compressor⟩)

/-- Declare that the final fragment appeared on the wire, and end the message. -/
def PreparedFinalFragment.commit (fragment : PreparedFinalFragment σ) : Bytes × Encoder σ :=
  (fragment.bytes, fragment.encoder.restore C fragment.compressor)

end Transactions

namespace Negotiated

/-- Build the codec pair this agreement describes. Nothing is a panic: the
compressor's own, or `flate2`'s assertion on either width. -/
def intoCodecs {σ τ : Type} (C : Compress σ) (D : Decompress τ) (negotiated : Negotiated)
    (config : EncoderConfig) : Option (Encoder σ × Decoder τ) := do
  let encoder ← Encoder.forAgreement C negotiated config
  let decoder := Decoder.forPeer D negotiated.peerMaxWindowBits negotiated.peerNoContextTakeover
  guard (assertedWindowBits negotiated.localMaxWindowBits)
  guard (assertedWindowBits decoder.config.windowBits)
  some (encoder, decoder)

end Negotiated

end WsPmd
