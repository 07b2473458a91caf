import Mathlib.Data.Nat.Notation

/-!
# Typed failures

One type per half of the crate. Variants carry what the source's variants carry;
their display texts are read by no modelled function and are left out.
-/

namespace WsPmd

/-- Why a `permessage-deflate` handshake produced no agreement. -/
inductive NegotiationError where
  | malformedHeader
  | unknownParameter
  | duplicateParameter
  | invalidWindowBits
  | parameterArity
  | duplicateExtension
  | serverTakeoverNotHonoured
  | serverWindowUnconfirmed
  | serverWindowTooLarge
  | clientWindowTooNarrow
  | clientWindowValueless
  | offerCollision
  | unsolicitedExtension
  | offerAltered
  | responseAltered
  | extensionConflict
  deriving DecidableEq, Repr

/-- Why a codec call failed. Every variant is terminal for its direction. -/
inductive CodecError where
  | messageTooLong (size limit : ℕ)
  | invalidStream
  | compressionFailed
  | stalled
  | poisoned
  deriving DecidableEq, Repr

/-- Why a locally supplied value was rejected. -/
inductive ConfigError where
  | windowBits
  | peerWindowBits
  | compressionLevel
  deriving DecidableEq, Repr

end WsPmd
