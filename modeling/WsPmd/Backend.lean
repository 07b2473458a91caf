import WsPmd.Grammar
import Mathlib.Algebra.GroupWithZero.Nat

/-!
# The DEFLATE backend

What the codec asks of `flate2`, and nothing about how it answers. A backend is
a record of functions over its own state: a call may move its counters by any
amount, report any status and leave anything in the buffer it was handed, as
long as it stays inside that buffer.
-/

namespace WsPmd

open Grammar (Bytes)

/-- `usize::MAX` on the 64-bit targets the crate is built for. -/
def usizeMax : ℕ := 2 ^ 64 - 1

def saturatingAdd (a b : ℕ) : ℕ := min (a + b) usizeMax

inductive Status where
  | ok
  | bufError
  | streamEnd
  deriving DecidableEq, Repr

inductive FlushCompress where
  | none
  | sync
  deriving DecidableEq, Repr

/-- The range both constructors of `flate2` assert, before any backend sees the value. -/
def assertedWindowBits (bits : ℕ) : Bool := 9 ≤ bits && bits ≤ 15

/-- One `Decompress::decompress` call: the state it leaves, the buffer as it left
it, and its status, or nothing for a `DecompressError`. -/
structure Decompressed (σ : Type) (room : ℕ) where
  state : σ
  scratch : Bytes
  scratch_length : scratch.length = room
  status : Option Status

structure Decompress (σ : Type) where
  newWithWindowBits : (zlibHeader : Bool) → (windowBits : ℕ) → σ
  reset : σ → (zlibHeader : Bool) → σ
  totalIn : σ → ℕ
  totalOut : σ → ℕ
  decompress : σ → (input : Bytes) → (room : ℕ) → Decompressed σ room

/-- One `Compress::compress_vec` call: the state it leaves, what it appended into
the spare capacity, and its status, or nothing for a `CompressError`. -/
structure Compressed (σ : Type) (room : ℕ) where
  state : σ
  appended : Bytes
  appended_le : appended.length ≤ room
  status : Option Status

structure Compress (σ : Type) where
  newWithWindowBits : (level : ℕ) → (zlibHeader : Bool) → (windowBits : ℕ) → σ
  reset : σ → σ
  totalIn : σ → ℕ
  totalOut : σ → ℕ
  compressVec : σ → (input : Bytes) → FlushCompress → (room : ℕ) → Compressed σ room

/-- The states a compressor gets to from a first one, by any calls. -/
inductive Compress.Descends {σ : Type} (C : Compress σ) (first : σ) : σ → Prop where
  | first : Compress.Descends C first first
  | reset {x : σ} : Compress.Descends C first x → Compress.Descends C first (C.reset x)
  | call {x : σ} (input : Bytes) (flush : FlushCompress) (room : ℕ) :
      Compress.Descends C first x →
      Compress.Descends C first (C.compressVec x input flush room).state

/-- The states an inflater gets to from a first one, by any calls. -/
inductive Decompress.Descends {σ : Type} (D : Decompress σ) (first : σ) : σ → Prop where
  | first : Decompress.Descends D first first
  | reset {x : σ} (zlibHeader : Bool) :
      Decompress.Descends D first x → Decompress.Descends D first (D.reset x zlibHeader)
  | call {x : σ} (input : Bytes) (room : ℕ) :
      Decompress.Descends D first x →
      Decompress.Descends D first (D.decompress x input room).state

/-- What `Vec::reserve` may do to a capacity that is too small. -/
structure Allocator where
  grow : (capacity length additional : ℕ) → ℕ
  grow_ge : ∀ capacity length additional, length + additional ≤ grow capacity length additional

end WsPmd
