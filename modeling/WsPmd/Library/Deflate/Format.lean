import Mathlib.Algebra.GroupWithZero.Nat
import Mathlib.Tactic.Common

/-!
# The DEFLATE format

RFC 1951 as a relation: which bits are blocks, and what they expand to behind a
given history. Histories are kept most recent byte first. `window` bounds how far
back a reference may go, and `offset` counts the bits in front of a block, since
a stored block is aligned to the byte.
-/

namespace WsPmd.Library.Deflate

abbrev Bytes := List UInt8

/-! ## Numbers -/

/-- A number packed least significant bit first. -/
def number : List Bool → ℕ
  | [] => 0
  | bit :: bits => bit.toNat + 2 * number bits

def lowBits : ℕ → ℕ → List Bool
  | 0, _ => []
  | width + 1, n => (n % 2 == 1) :: lowBits width (n / 2)

def bitsOf (byte : UInt8) : List Bool := lowBits 8 byte.toNat

/-- The bits of a string, in the order DEFLATE packs them. -/
def bits (bytes : Bytes) : List Bool := bytes.flatMap bitsOf

/-- How many bits are left to the next byte boundary. -/
def padTo (offset : ℕ) : ℕ := (8 - offset % 8) % 8

theorem number_append (xs ys : List Bool) :
    number (xs ++ ys) = number xs + 2 ^ xs.length * number ys := by
  induction xs with
  | nil => simp [number]
  | cons x xs ih =>
    rw [List.cons_append, number, number, ih, List.length_cons, Nat.pow_succ', Nat.mul_add,
      Nat.mul_assoc, Nat.add_assoc]

theorem number_lt (xs : List Bool) : number xs < 2 ^ xs.length := by
  induction xs with
  | nil => simp [number]
  | cons x xs ih =>
    rw [number, List.length_cons, Nat.pow_succ']
    have hbit := Bool.toNat_le x
    omega

theorem number_not (xs : List Bool) : number xs + number (xs.map not) + 1 = 2 ^ xs.length := by
  induction xs with
  | nil => rfl
  | cons x xs ih =>
    rw [List.map_cons, number, number, List.length_cons, Nat.pow_succ', ← ih]
    cases x <;> simp only [Bool.not_true, Bool.not_false, Bool.toNat_true, Bool.toNat_false] <;>
      omega

theorem number_lowBits (width n : ℕ) : number (lowBits width n) = n % 2 ^ width := by
  induction width generalizing n with
  | zero => rw [lowBits, number, Nat.pow_zero, Nat.mod_one]
  | succ width ih =>
    rw [lowBits, number, ih, Nat.pow_succ', Nat.mod_mul]
    rcases Nat.mod_two_eq_zero_or_one n with h | h <;> simp [h]

@[simp] theorem length_lowBits (width n : ℕ) : (lowBits width n).length = width := by
  induction width generalizing n with
  | zero => rfl
  | succ width ih => rw [lowBits, List.length_cons, ih]

@[simp] theorem length_bitsOf (byte : UInt8) : (bitsOf byte).length = 8 := length_lowBits 8 _

theorem number_bitsOf (byte : UInt8) : number (bitsOf byte) = byte.toNat := by
  rw [bitsOf, number_lowBits]
  exact Nat.mod_eq_of_lt byte.toNat_lt

@[simp] theorem bits_nil : bits [] = [] := rfl

@[simp] theorem bits_cons (byte : UInt8) (bytes : Bytes) :
    bits (byte :: bytes) = bitsOf byte ++ bits bytes := rfl

@[simp] theorem bits_append (xs ys : Bytes) : bits (xs ++ ys) = bits xs ++ bits ys := by
  rw [bits, List.flatMap_append]
  rfl

@[simp] theorem length_bits (bytes : Bytes) : (bits bytes).length = 8 * bytes.length := by
  induction bytes with
  | nil => rfl
  | cons byte bytes ih =>
    rw [bits_cons, List.length_append, ih, length_bitsOf, List.length_cons]
    omega

theorem padTo_congr {a b : ℕ} (h : a % 8 = b % 8) : padTo a = padTo b := by
  rw [padTo, padTo, h]

/-! ## Prefix codes -/

/-- Codewords with their symbols. A codeword is packed most significant bit first. -/
abbrev Code := List (List Bool × ℕ)

/-- The first codeword of each length. -/
def nextCode (lengths : List ℕ) : ℕ → ℕ
  | 0 => 0
  | width + 1 => 2 * (nextCode lengths width + if width = 0 then 0 else lengths.count width)

/-- The canonical code with these codeword lengths, one for each symbol. -/
def Code.ofLengths (lengths : List ℕ) : Code :=
  lengths.zipIdx.filterMap fun (width, symbol) =>
    if width = 0 then none
    else some ((lowBits width
      (nextCode lengths width + (lengths.take symbol).count width)).reverse, symbol)

/-- What the codewords take up of the space of all 15-bit words. -/
def space (lengths : List ℕ) : ℕ :=
  ((lengths.filter (· ≠ 0)).map fun width => 2 ^ (15 - width)).sum

/-- No two codewords clash and none is missing, save that a code of at most one
symbol may be incomplete. -/
def usable (lengths : List ℕ) : Bool :=
  space lengths = 2 ^ 15 || (space lengths < 2 ^ 15 && lengths.all (· ≤ 1))

/-- These bits, and no fewer of them, are the codeword of a symbol. -/
structure Codeword (code : Code) (word : List Bool) (symbol : ℕ) : Prop where
  hit : code.lookup word = some symbol
  first : ∀ n < word.length, code.lookup (word.take n) = none
  ne_nil : word ≠ []

/-! ## Tables -/

/-- Base and extra bits of the lengths of symbols 257 to 285. -/
def lengthTable : List (ℕ × ℕ) :=
  [(3, 0), (4, 0), (5, 0), (6, 0), (7, 0), (8, 0), (9, 0), (10, 0), (11, 1), (13, 1), (15, 1),
    (17, 1), (19, 2), (23, 2), (27, 2), (31, 2), (35, 3), (43, 3), (51, 3), (59, 3), (67, 4),
    (83, 4), (99, 4), (115, 4), (131, 5), (163, 5), (195, 5), (227, 5), (258, 0)]

/-- Base and extra bits of the distances of symbols 0 to 29. -/
def distanceTable : List (ℕ × ℕ) :=
  [(1, 0), (2, 0), (3, 0), (4, 0), (5, 1), (7, 1), (9, 2), (13, 2), (17, 3), (25, 3), (33, 4),
    (49, 4), (65, 5), (97, 5), (129, 6), (193, 6), (257, 7), (385, 7), (513, 8), (769, 8),
    (1025, 9), (1537, 9), (2049, 10), (3073, 10), (4097, 11), (6145, 11), (8193, 12), (12289, 12),
    (16385, 13), (24577, 13)]

/-- The order code length code lengths are sent in. -/
def codeLengthOrder : List ℕ :=
  [16, 17, 18, 0, 8, 7, 9, 6, 10, 5, 11, 4, 12, 3, 13, 2, 14, 1, 15]

def codeLengthLengths (sent : List ℕ) : List ℕ :=
  (List.range 19).map fun symbol => sent.getD (codeLengthOrder.idxOf symbol) 0

/-- A repeat symbol of the code length alphabet: how many extra bits follow, the
shortest run and the length that is repeated. -/
def runOf (known : List ℕ) : ℕ → Option (ℕ × ℕ × ℕ)
  | 16 => known.getLast?.map fun width => (2, 3, width)
  | 17 => some (3, 3, 0)
  | 18 => some (7, 11, 0)
  | _ => none

def fixedLit : Code :=
  Code.ofLengths (.replicate 144 8 ++ .replicate 112 9 ++ .replicate 24 7 ++ .replicate 8 8)

def fixedDist : Code := Code.ofLengths (.replicate 32 5)

/-- How many lengths of each kind a dynamic block sends. -/
structure Counts where
  lit : ℕ
  dist : ℕ
  codeLengths : ℕ
  deriving DecidableEq

def Counts.ofNumber (n : ℕ) : Counts where
  lit := n % 32 + 257
  dist := n / 32 % 32 + 1
  codeLengths := n / 1024 + 4

def Counts.valid (counts : Counts) : Bool := counts.lit ≤ 286 && counts.dist ≤ 30

/-- The two codes of a dynamic block, if its lengths make codes. -/
def codesOf (counts : Counts) (lengths : List ℕ) : Option (Code × Code) :=
  let lit := lengths.take counts.lit
  let dist := lengths.drop counts.lit
  if usable lit && usable dist && lit.getD 256 0 != 0 then
    some (Code.ofLengths lit, Code.ofLengths dist)
  else none

/-! ## Blocks -/

/-- What a reference copies. It may overlap what it writes. -/
def copied (distance : ℕ) : ℕ → Bytes → Bytes
  | 0, _ => []
  | length + 1, recent =>
    let byte := recent.getD (distance - 1) 0
    byte :: copied distance length (byte :: recent)

/-- Literals and references up to the end of a block. -/
inductive Compressed (window : ℕ) (lit dist : Code) : Bytes → List Bool → Bytes → Prop where
  | endOfBlock {recent : Bytes} {word : List Bool} :
      Codeword lit word 256 → Compressed window lit dist recent word []
  | literal {recent out : Bytes} {byte : UInt8} {word rest : List Bool} :
      Codeword lit word byte.toNat →
      Compressed window lit dist (byte :: recent) rest out →
      Compressed window lit dist recent (word ++ rest) (byte :: out)
  | reference {recent out : Bytes} {length distance base extra base' extra' : ℕ}
      {word more word' more' rest : List Bool} :
      Codeword lit word (257 + length) → lengthTable[length]? = some (base, extra) →
      more.length = extra → Codeword dist word' distance →
      distanceTable[distance]? = some (base', extra') → more'.length = extra' →
      base' + number more' ≤ recent.length → base' + number more' ≤ window →
      Compressed window lit dist
        ((copied (base' + number more') (base + number more) recent).reverse ++ recent) rest out →
      Compressed window lit dist recent (word ++ (more ++ (word' ++ (more' ++ rest))))
        (copied (base' + number more') (base + number more) recent ++ out)

/-- Code lengths, run length coded, behind those already known. -/
inductive Lengths (total : ℕ) (code : Code) : List ℕ → List Bool → List ℕ → Prop where
  | complete {known : List ℕ} : known.length = total → Lengths total code known [] known
  | width {known lengths : List ℕ} {width : ℕ} {word rest : List Bool} :
      known.length < total → Codeword code word width → width < 16 →
      Lengths total code (known ++ [width]) rest lengths →
      Lengths total code known (word ++ rest) lengths
  | run {known lengths : List ℕ} {symbol extra base width : ℕ} {word more rest : List Bool} :
      known.length < total → Codeword code word symbol →
      runOf known symbol = some (extra, base, width) → more.length = extra →
      known.length + (base + number more) ≤ total →
      Lengths total code (known ++ .replicate (base + number more) width) rest lengths →
      Lengths total code known (word ++ (more ++ rest)) lengths

/-- The bits of one block. -/
inductive Block (window : ℕ) (final : Bool) : ℕ → Bytes → List Bool → Bytes → Prop where
  | stored {offset : ℕ} {recent : Bytes} {pad length : List Bool} {data : Bytes} :
      pad.length = padTo (offset + 3) → length.length = 16 → number length = data.length →
      Block window final offset recent
        ([final, false, false] ++ (pad ++ (length ++ length.map not ++ bits data))) data
  | fixed {offset : ℕ} {recent : Bytes} {rest : List Bool} {out : Bytes} :
      Compressed window fixedLit fixedDist recent rest out →
      Block window final offset recent ([final, true, false] ++ rest) out
  | dynamic {offset : ℕ} {recent out : Bytes} {counts sizes widths rest : List Bool}
      {sent lengths : List ℕ} {lit dist : Code} :
      counts.length = 14 → (Counts.ofNumber (number counts)).valid = true →
      sent.length = (Counts.ofNumber (number counts)).codeLengths →
      sizes = sent.flatMap (lowBits 3) → (∀ size ∈ sent, size < 8) →
      space (codeLengthLengths sent) = 2 ^ 15 →
      Lengths ((Counts.ofNumber (number counts)).lit + (Counts.ofNumber (number counts)).dist)
        (Code.ofLengths (codeLengthLengths sent)) [] widths lengths →
      codesOf (Counts.ofNumber (number counts)) lengths = some (lit, dist) →
      Compressed window lit dist recent rest out →
      Block window final offset recent
        ([final, false, true] ++ (counts ++ (sizes ++ (widths ++ rest)))) out

/-- Blocks that are not the last of their stream. -/
inductive Blocks (window : ℕ) : ℕ → Bytes → List Bool → Bytes → Prop where
  | nil {offset : ℕ} {recent : Bytes} : Blocks window offset recent [] []
  | cons {offset : ℕ} {recent out out' : Bytes} {first rest : List Bool} :
      Block window false offset recent first out →
      Blocks window (offset + first.length) (out.reverse ++ recent) rest out' →
      Blocks window offset recent (first ++ rest) (out ++ out')

/-- Bytes that are a whole stream: its last block is padded to a byte boundary. -/
inductive Stream (window : ℕ) (recent : Bytes) : Bytes → Bytes → Prop where
  | mk {blocks last pad : List Bool} {bytes out out' : Bytes} :
      Blocks window 0 recent blocks out →
      Block window true blocks.length (out.reverse ++ recent) last out' →
      pad.length < 8 → bits bytes = blocks ++ (last ++ pad) →
      Stream window recent bytes (out ++ out')

/-- Bytes that are blocks, none of them the last, and then the header of an empty
stored block, padded to where its length would stand. -/
inductive Headed (window : ℕ) (recent : Bytes) : Bytes → Bytes → Prop where
  | mk {blocks pad : List Bool} {bytes out : Bytes} :
      Blocks window 0 recent blocks out → pad.length = padTo (blocks.length + 3) →
      bits bytes = blocks ++ ([false, false, false] ++ pad) → Headed window recent bytes out

end WsPmd.Library.Deflate
