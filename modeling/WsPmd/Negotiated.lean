import WsPmd.Grammar
import Mathlib.Tactic.IntervalCases

/-!
# The finalized agreement, and the wire rendering both roles share
-/

namespace WsPmd

open Grammar (Bytes)

/-- Which end of the connection holds an agreement. -/
inductive Role where
  | client
  | server
  deriving DecidableEq, Repr

/-- Whether every other selected extension can compose with `permessage-deflate`. -/
inductive PmdComposition where
  | compatible
  | conflict
  deriving DecidableEq, Repr

/-- A settled agreement, in the wire's words: the parameters name the server and
the client, and the role says which of the two is this side. -/
structure Negotiated where
  role : Role
  serverNoContextTakeover : Bool
  clientNoContextTakeover : Bool
  serverMaxWindowBits : ℕ
  clientMaxWindowBits : ℕ
  deriving DecidableEq, Repr

namespace Negotiated

/-- Whether this side must drop its compression history between messages. -/
def localNoContextTakeover (n : Negotiated) : Bool :=
  match n.role with
  | .client => n.clientNoContextTakeover
  | .server => n.serverNoContextTakeover

/-- Whether the peer drops its compression history between messages. -/
def peerNoContextTakeover (n : Negotiated) : Bool :=
  match n.role with
  | .client => n.serverNoContextTakeover
  | .server => n.clientNoContextTakeover

/-- The window this side's compressor may use. -/
def localMaxWindowBits (n : Negotiated) : ℕ :=
  match n.role with
  | .client => n.clientMaxWindowBits
  | .server => n.serverMaxWindowBits

/-- The window the peer's compressor may use, exactly as negotiated. -/
def peerMaxWindowBits (n : Negotiated) : ℕ :=
  match n.role with
  | .client => n.serverMaxWindowBits
  | .server => n.clientMaxWindowBits

end Negotiated

/-- The `client_max_window_bits` form to render. -/
inductive ClientBits where
  | omitted
  | valueless
  | bits (bits : ℕ)
  deriving DecidableEq, Repr

namespace Render

/-- `u8::to_string`. -/
def decimal (bits : ℕ) : Bytes := (Nat.toDigits 10 bits).map fun c => UInt8.ofNat c.toNat

def serverTakeoverText : Bytes := ascii "; server_no_context_takeover"
def clientTakeoverText : Bytes := ascii "; client_no_context_takeover"
def serverBitsText : Bytes := ascii "; server_max_window_bits="
def clientBareText : Bytes := ascii "; client_max_window_bits"
def clientBitsText : Bytes := ascii "; client_max_window_bits="

def serverText : Option ℕ → Bytes
  | none => []
  | some bits => serverBitsText ++ decimal bits

def clientText : ClientBits → Bytes
  | .omitted => []
  | .valueless => clientBareText
  | .bits bits => clientBitsText ++ decimal bits

def text (serverNoContextTakeover clientNoContextTakeover : Bool)
    (serverMaxWindowBits : Option ℕ) (clientMaxWindowBits : ClientBits) : Bytes :=
  Grammar.name ++
    (if serverNoContextTakeover then serverTakeoverText else []) ++
    (if clientNoContextTakeover then clientTakeoverText else []) ++
    serverText serverMaxWindowBits ++
    clientText clientMaxWindowBits

private theorem digit_visible {c : Char} (h : c.isDigit = true) :
    isHeaderByte (UInt8.ofNat c.toNat) = true := by
  simp only [Char.isDigit, Bool.and_eq_true, decide_eq_true_eq] at h
  have hlo : 48 ≤ c.toNat := h.1
  have hhi : c.toNat ≤ 57 := h.2
  generalize c.toNat = n at hlo hhi
  interval_cases n <;> decide

theorem decimal_visible (bits : ℕ) : ∀ b ∈ decimal bits, isHeaderByte b = true := by
  intro b hb
  obtain ⟨c, hc, rfl⟩ := List.mem_map.mp hb
  exact digit_visible (Nat.isDigit_of_mem_toDigits (by decide) (by decide) hc)

/-- Every rendered byte is a fixed token's or a digit's, so the source's one
`expect` never fires. -/
theorem text_visible (s c : Bool) (sb : Option ℕ) (cb : ClientBits) :
    ∀ b ∈ text s c sb cb, isHeaderByte b = true := by
  have hfixed {name : Bytes} (hn : name.all isHeaderByte = true) :
      ∀ b ∈ name, isHeaderByte b = true := List.all_eq_true.mp hn
  have hflag (flag : Bool) {name : Bytes} (hn : name.all isHeaderByte = true) :
      ∀ b ∈ (if flag then name else []), isHeaderByte b = true := by
    cases flag
    · simp
    · exact hfixed hn
  have hbits {name : Bytes} (bits : ℕ) (hn : name.all isHeaderByte = true) :
      ∀ b ∈ name ++ decimal bits, isHeaderByte b = true :=
    List.forall_mem_append.mpr ⟨hfixed hn, decimal_visible bits⟩
  simp only [text, List.forall_mem_append]
  refine ⟨⟨⟨⟨hfixed rfl, hflag s rfl⟩, hflag c rfl⟩, ?_⟩, ?_⟩
  · cases sb with
    | none => simp [serverText]
    | some bits => exact hbits bits rfl
  · cases cb with
    | omitted => simp [clientText]
    | valueless => exact List.all_eq_true.mp (show clientBareText.all isHeaderByte = true from rfl)
    | bits bits => exact hbits bits rfl

end Render

/-- Render one `permessage-deflate` element. -/
def render (serverNoContextTakeover clientNoContextTakeover : Bool)
    (serverMaxWindowBits : Option ℕ) (clientMaxWindowBits : ClientBits) : HeaderValue where
  bytes := Render.text serverNoContextTakeover clientNoContextTakeover serverMaxWindowBits
    clientMaxWindowBits
  visible := Render.text_visible _ _ _ _

end WsPmd
