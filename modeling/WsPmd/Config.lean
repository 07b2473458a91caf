import WsPmd.Error

/-!
# Local policy

The two roles get separate types, because the same parameter names a different
compressor depending on who reads it. A width is held in the range its setter
checks, so a configuration outside the crate's range cannot be written down.
-/

namespace WsPmd

/-- The widest window DEFLATE defines, which an offer omits. -/
def maxWindowBits : ℕ := 15

/-- The narrowest window a compressor can be built for. -/
def minLocalWindowBits : ℕ := 9

/-- The narrowest window that may appear on the wire. -/
def minWireWindowBits : ℕ := 8

def maxCompressionLevel : ℕ := 9

/-- A window this side's own compressor may be given. -/
abbrev LocalBits := { bits : ℕ // minLocalWindowBits ≤ bits ∧ bits ≤ maxWindowBits }

/-- A bound on the peer's compressor. -/
abbrev PeerBits := { bits : ℕ // minWireWindowBits ≤ bits ∧ bits ≤ maxWindowBits }

def checkLocal (bits : ℕ) : Except ConfigError LocalBits :=
  if h : minLocalWindowBits ≤ bits ∧ bits ≤ maxWindowBits then .ok ⟨bits, h⟩
  else .error .windowBits

def checkPeer (bits : ℕ) : Except ConfigError PeerBits :=
  if h : minWireWindowBits ≤ bits ∧ bits ≤ maxWindowBits then .ok ⟨bits, h⟩
  else .error .peerWindowBits

/-- What a client asks for, and what it will insist on. -/
structure ClientConfig where
  serverNoContextTakeover : Bool
  clientNoContextTakeover : Bool
  serverMaxWindowBits : PeerBits
  clientMaxWindowBits : LocalBits
  deriving DecidableEq

namespace ClientConfig

def new : ClientConfig where
  serverNoContextTakeover := false
  clientNoContextTakeover := false
  serverMaxWindowBits := ⟨maxWindowBits, by decide⟩
  clientMaxWindowBits := ⟨maxWindowBits, by decide⟩

def setServerNoContextTakeover (config : ClientConfig) (required : Bool) : ClientConfig :=
  { config with serverNoContextTakeover := required }

def setClientNoContextTakeover (config : ClientConfig) (offered : Bool) : ClientConfig :=
  { config with clientNoContextTakeover := offered }

def setServerMaxWindowBits (config : ClientConfig) (bits : ℕ) : Except ConfigError ClientConfig :=
  (checkPeer bits).map fun bits => { config with serverMaxWindowBits := bits }

def setClientMaxWindowBits (config : ClientConfig) (bits : ℕ) : Except ConfigError ClientConfig :=
  (checkLocal bits).map fun bits => { config with clientMaxWindowBits := bits }

def requiresServerNoContextTakeover (config : ClientConfig) : Bool :=
  config.serverNoContextTakeover

def offersClientNoContextTakeover (config : ClientConfig) : Bool :=
  config.clientNoContextTakeover

def offeredServerMaxWindowBits (config : ClientConfig) : ℕ := config.serverMaxWindowBits.val

def offeredClientMaxWindowBits (config : ClientConfig) : ℕ := config.clientMaxWindowBits.val

/-- The values of the type are what the builder reaches, and nothing else. -/
theorem built (config : ClientConfig) :
    ((new.setServerNoContextTakeover config.serverNoContextTakeover).setClientNoContextTakeover
      config.clientNoContextTakeover).setServerMaxWindowBits config.serverMaxWindowBits.val >>=
        (fun c => c.setClientMaxWindowBits config.clientMaxWindowBits.val) = .ok config := by
  obtain ⟨a, b, ⟨s, hs⟩, ⟨c, hc⟩⟩ := config
  simp [setServerMaxWindowBits, setClientMaxWindowBits, checkPeer, checkLocal, hs, hc,
    Except.map, bind, Except.bind, setServerNoContextTakeover, setClientNoContextTakeover]

end ClientConfig

/-- What a server can support, and what it will impose. -/
structure ServerConfig where
  serverNoContextTakeover : Bool
  clientNoContextTakeover : Bool
  serverMaxWindowBits : LocalBits
  clientMaxWindowBits : PeerBits
  deriving DecidableEq

namespace ServerConfig

def new : ServerConfig where
  serverNoContextTakeover := false
  clientNoContextTakeover := false
  serverMaxWindowBits := ⟨maxWindowBits, by decide⟩
  clientMaxWindowBits := ⟨maxWindowBits, by decide⟩

def setServerNoContextTakeover (config : ServerConfig) (imposed : Bool) : ServerConfig :=
  { config with serverNoContextTakeover := imposed }

def setClientNoContextTakeover (config : ServerConfig) (imposed : Bool) : ServerConfig :=
  { config with clientNoContextTakeover := imposed }

def setServerMaxWindowBits (config : ServerConfig) (bits : ℕ) : Except ConfigError ServerConfig :=
  (checkLocal bits).map fun bits => { config with serverMaxWindowBits := bits }

def setClientMaxWindowBits (config : ServerConfig) (bits : ℕ) : Except ConfigError ServerConfig :=
  (checkPeer bits).map fun bits => { config with clientMaxWindowBits := bits }

def imposesServerNoContextTakeover (config : ServerConfig) : Bool :=
  config.serverNoContextTakeover

def imposesClientNoContextTakeover (config : ServerConfig) : Bool :=
  config.clientNoContextTakeover

def supportedServerMaxWindowBits (config : ServerConfig) : ℕ := config.serverMaxWindowBits.val

def supportedClientMaxWindowBits (config : ServerConfig) : ℕ := config.clientMaxWindowBits.val

theorem built (config : ServerConfig) :
    ((new.setServerNoContextTakeover config.serverNoContextTakeover).setClientNoContextTakeover
      config.clientNoContextTakeover).setServerMaxWindowBits config.serverMaxWindowBits.val >>=
        (fun c => c.setClientMaxWindowBits config.clientMaxWindowBits.val) = .ok config := by
  obtain ⟨a, b, ⟨s, hs⟩, ⟨c, hc⟩⟩ := config
  simp [setServerMaxWindowBits, setClientMaxWindowBits, checkPeer, checkLocal, hs, hc,
    Except.map, bind, Except.bind, setServerNoContextTakeover, setClientNoContextTakeover]

end ServerConfig

/-- What this side's compressor is built with, beyond the agreement. -/
structure EncoderConfig where
  level : ℕ
  level_le : level ≤ maxCompressionLevel
  deriving DecidableEq

namespace EncoderConfig

/-- The backend's own default level. -/
def new : EncoderConfig := ⟨6, by decide⟩

def compressionLevel (_config : EncoderConfig) (level : ℕ) : Except ConfigError EncoderConfig :=
  if h : level > maxCompressionLevel then .error .compressionLevel
  else .ok ⟨level, Nat.le_of_not_gt h⟩

end EncoderConfig

end WsPmd
