import Mathlib.Tactic.SplitIfs

/-!
# Header values and header maps

The part of the `http` crate the handshake reads. A `HeaderValue` holds only the
bytes a header may carry, and a `HeaderMap` keeps every line of every field in
the order it was appended.
-/

namespace WsPmd

/-- The bytes of an ASCII literal. -/
def ascii (text : String) : List UInt8 := text.toList.map fun c => UInt8.ofNat c.toNat

/-- Horizontal tab, and everything from space on but DEL. -/
def isHeaderByte (byte : UInt8) : Bool := byte = 9 || (32 ≤ byte && byte ≠ 127)

structure HeaderValue where
  bytes : List UInt8
  visible : ∀ b ∈ bytes, isHeaderByte b = true
  deriving DecidableEq

/-- A value written as a literal. -/
def HeaderValue.fromStatic (text : String) (h : (ascii text).all isHeaderByte = true) :
    HeaderValue :=
  ⟨ascii text, List.all_eq_true.mp h⟩

inductive HeaderName where
  | secWebSocketExtensions
  | other (name : List UInt8)
  deriving DecidableEq

structure HeaderMap where
  entries : List (HeaderName × HeaderValue)
  deriving DecidableEq

namespace HeaderMap

def new : HeaderMap := ⟨[]⟩

/-- Every line of one field, in order. -/
def getAll (headers : HeaderMap) (name : HeaderName) : List HeaderValue :=
  headers.entries.filterMap fun entry => if entry.1 = name then some entry.2 else none

def append (headers : HeaderMap) (name : HeaderName) (value : HeaderValue) : HeaderMap :=
  ⟨headers.entries ++ [(name, value)]⟩

@[simp] theorem getAll_append (headers : HeaderMap) (name : HeaderName) (value : HeaderValue) :
    (headers.append name value).getAll name = headers.getAll name ++ [value] := by
  simp [getAll, append]

end HeaderMap

/-- A map that holds one field and nothing else. -/
def HeaderMap.ofLines (lines : List HeaderValue) : HeaderMap :=
  ⟨lines.map fun value => (.secWebSocketExtensions, value)⟩

end WsPmd
