import WsPmd.Config
import WsPmd.Negotiated

/-!
# The client half of the handshake

`ClientOffer` holds what was installed in the request; a `ClientHandshake` exists
only once the request that is being sent was checked, against that offer or
against the absence of one; and only a handshake can produce an agreement.
-/

namespace WsPmd

open Grammar (Bytes ClientWindow Params)

/-- An offer installed in a request that has not been sent. -/
structure ClientOffer where
  config : ClientConfig
  installed : HeaderValue
  deriving DecidableEq

structure SealedOffer where
  config : ClientConfig
  sealedValue : HeaderValue
  deriving DecidableEq

/-- A request confirmed against the headers leaving the host, with the offer it
carries if it carries one. -/
structure ClientHandshake where
  offer : Option SealedOffer
  deriving DecidableEq

/-- The offer omits a full server window, and always names the client's. -/
def renderOffer (config : ClientConfig) : HeaderValue :=
  let serverBits :=
    if config.offeredServerMaxWindowBits = maxWindowBits then none
    else some config.offeredServerMaxWindowBits
  let clientBits :=
    if config.offeredClientMaxWindowBits = maxWindowBits then .valueless
    else .bits config.offeredClientMaxWindowBits
  render config.requiresServerNoContextTakeover config.offersClientNoContextTakeover
    serverBits clientBits

def containsDeflate (headers : HeaderMap) : Except NegotiationError Bool := do
  let found ← Grammar.findElement headers fun element => do
    if ← Grammar.isDeflate element then pure (some ()) else pure none
  pure found.isSome

/-- The single `permessage-deflate` selection in a response, if there is one. -/
def soleDeflate (headers : HeaderMap) : Except NegotiationError (Option Params) :=
  Grammar.forElements headers none fun selected element => do
    if Grammar.isBlank element then pure selected
    else if !(← Grammar.isDeflate element) then pure selected
    else
      let params ← Grammar.parseParams element
      if selected.isSome then .error .duplicateExtension else pure (some params)

/-- Count the `permessage-deflate` elements of a field, failing at the first one
whose trimmed bytes are not `expected`. -/
def countExact (headers : HeaderMap) (expected : Bytes) (altered : NegotiationError) :
    Except NegotiationError ℕ :=
  Grammar.forElements headers 0 fun found element => do
    if !(← Grammar.isDeflate element) then pure found
    else if Grammar.trim element = expected then pure (found + 1)
    else .error altered

namespace ClientOffer

/-- Append this crate's offer to the request. -/
def install (config : ClientConfig) (headers : HeaderMap) :
    Except NegotiationError (ClientOffer × HeaderMap) := do
  if ← containsDeflate headers then .error .offerCollision
  else
    let installed := renderOffer config
    pure (⟨config, installed⟩, headers.append .secWebSocketExtensions installed)

/-- The same call beside the map it leaves in the caller's hands, on either outcome. -/
def installInto (config : ClientConfig) (headers : HeaderMap) :
    Except NegotiationError ClientOffer × HeaderMap :=
  match containsDeflate headers with
  | .error e => (.error e, headers)
  | .ok true => (.error .offerCollision, headers)
  | .ok false =>
    let installed := renderOffer config
    (.ok ⟨config, installed⟩, headers.append .secWebSocketExtensions installed)

theorem install_eq_installInto (config : ClientConfig) (headers : HeaderMap) :
    install config headers =
      (installInto config headers).1.map fun offer => (offer, (installInto config headers).2) := by
  unfold install installInto
  rcases containsDeflate headers with e | _ | _ <;> rfl

/-- Confirm the offer survived request construction. -/
def sealOffer (offer : ClientOffer) (headers : HeaderMap) :
    Except NegotiationError ClientHandshake := do
  let found ← countExact headers offer.installed.bytes .offerAltered
  if found = 1 then pure ⟨some ⟨offer.config, offer.installed⟩⟩ else .error .offerAltered

end ClientOffer

namespace SealedOffer

/-- The server's window: at most what was offered, and confirmed when that was narrow. -/
def serverWindow (offer : SealedOffer) (params : Params) : Except NegotiationError ℕ :=
  let offered := offer.config.offeredServerMaxWindowBits
  match params.serverMaxWindowBits with
  | some bits => if bits > offered then .error .serverWindowTooLarge else .ok bits
  | none => if offered < maxWindowBits then .error .serverWindowUnconfirmed else .ok maxWindowBits

/-- The client's window: a response may narrow it, and only to a width this side
can compress with. -/
def clientWindow (offer : SealedOffer) (params : Params) : Except NegotiationError ℕ :=
  let offered := offer.config.offeredClientMaxWindowBits
  match params.clientMaxWindowBits with
  | .valueless => .error .clientWindowValueless
  | .bits bits => if bits < 9 then .error .clientWindowTooNarrow else .ok (min bits offered)
  | .absent => .ok offered

/-- The response refines the offer or the handshake fails. -/
def agree (offer : SealedOffer) (params : Params) : Except NegotiationError Negotiated :=
  if offer.config.requiresServerNoContextTakeover && !params.serverNoContextTakeover then
    .error .serverTakeoverNotHonoured
  else do
    let serverMaxWindowBits ← offer.serverWindow params
    let clientMaxWindowBits ← offer.clientWindow params
    pure {
      role := .client
      serverNoContextTakeover := params.serverNoContextTakeover
      clientNoContextTakeover :=
        offer.config.offersClientNoContextTakeover || params.clientNoContextTakeover
      serverMaxWindowBits
      clientMaxWindowBits }

end SealedOffer

namespace ClientHandshake

/-- Seal a request that deliberately carries no `permessage-deflate` offer. -/
def sealWithoutOffer (headers : HeaderMap) : Except NegotiationError ClientHandshake := do
  if ← containsDeflate headers then .error .offerCollision else pure ⟨none⟩

/-- Apply the response to the sealed offer. -/
def finish (handshake : ClientHandshake) (headers : HeaderMap) (composition : PmdComposition) :
    Except NegotiationError (Option Negotiated) := do
  Grammar.validate headers
  match ← soleDeflate headers with
  | none => pure none
  | some params =>
    match handshake.offer with
    | none => .error .unsolicitedExtension
    | some offer =>
      if composition = .conflict then .error .extensionConflict
      else (offer.agree params).map some

end ClientHandshake

end WsPmd
