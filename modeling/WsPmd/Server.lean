import WsPmd.Client

/-!
# The server half of the handshake

A server reads alternatives in the order the client wrote them and takes the
first it can support. Declining is not failing, and a malformed request is
neither.
-/

namespace WsPmd

open Grammar (Bytes ClientWindow Params)

/-- A selection the server has made but not yet committed to the wire. -/
structure ServerHandshake where
  proposed : HeaderValue
  agreement : Negotiated
  deriving DecidableEq

/-- The server's own window, beside whether it is put on the wire. An offered 8 is
one this side cannot compress with. -/
def selectServerWindow (config : ServerConfig) (offer : Params) : Option (Option ℕ) :=
  let supported := config.supportedServerMaxWindowBits
  match offer.serverMaxWindowBits with
  | some bits => if bits = 8 then none else some (some (min bits supported))
  | none => if supported < maxWindowBits then some (some supported) else some none

/-- The client's window. A client that did not name the parameter cannot be narrowed. -/
def selectClientWindow (config : ServerConfig) (offer : Params) : Option (Option ℕ) :=
  let supported := config.supportedClientMaxWindowBits
  match offer.clientMaxWindowBits with
  | .absent => if supported < maxWindowBits then none else some none
  | .valueless => some (some supported)
  | .bits bits => some (some (min bits supported))

/-- A full client window is left off the wire. -/
def selectClientBits (clientWindow : Option ℕ) : ClientBits :=
  match clientWindow.filter (· < maxWindowBits) with
  | none => .omitted
  | some bits => .bits bits

/-- Narrow every parameter to what both ends can hold, or decline the alternative. -/
def select (config : ServerConfig) (offer : Params) : Option ServerHandshake := do
  let serverNoContextTakeover :=
    config.imposesServerNoContextTakeover || offer.serverNoContextTakeover
  let clientNoContextTakeover :=
    config.imposesClientNoContextTakeover || offer.clientNoContextTakeover
  let serverWindow ← selectServerWindow config offer
  let clientWindow ← selectClientWindow config offer
  some {
    proposed := render serverNoContextTakeover clientNoContextTakeover serverWindow
      (selectClientBits clientWindow)
    agreement := {
      role := .server
      serverNoContextTakeover
      clientNoContextTakeover
      serverMaxWindowBits := serverWindow.getD maxWindowBits
      clientMaxWindowBits := clientWindow.getD maxWindowBits } }

namespace ServerHandshake

/-- Choose the first supportable `permessage-deflate` alternative. An alternative
whose parameters do not parse declines itself. -/
def accept (config : ServerConfig) (headers : HeaderMap) :
    Except NegotiationError (Option ServerHandshake) := do
  Grammar.validate headers
  Grammar.findElement headers fun element => do
    if Grammar.isBlank element then pure none
    else if !(← Grammar.isDeflate element) then pure none
    else
      match Grammar.parseParams element with
      | .error _ => pure none
      | .ok offer => pure (select config offer)

/-- Commit the selection against the response the host actually built. -/
def finish (handshake : ServerHandshake) (headers : HeaderMap) (composition : PmdComposition) :
    Except NegotiationError (Option Negotiated) := do
  Grammar.validate headers
  let found ← countExact headers handshake.proposed.bytes .responseAltered
  if found = 0 then pure none
  else if found = 1 then
    if composition = .conflict then .error .extensionConflict
    else pure (some handshake.agreement)
  else .error .responseAltered

end ServerHandshake

end WsPmd
