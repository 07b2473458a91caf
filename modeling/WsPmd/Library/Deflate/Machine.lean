import WsPmd.Library.ByteMachine
import WsPmd.Library.Deflate.Format

/-!
# A DEFLATE inflater, bit by bit

The inflater waits for one field at a time, a number or a codeword, and acts on
it once its last bit is in. What it may be fed next is all in its state, so a
byte is eight bits and nothing else, and `machine` is the byte-driven machine.
-/

namespace WsPmd.Library.Deflate

inductive Field where
  | header
  | padding (width : ℕ)
  | storedLength
  /-- Bytes of a stored block, with how many are left. -/
  | stored (left : ℕ)
  | counts
  | size (counts : Counts) (sent : List ℕ)
  | codeWidth (counts : Counts) (code : Code) (known : List ℕ)
  | run (counts : Counts) (code : Code) (known : List ℕ) (extra base width : ℕ)
  | symbol (lit dist : Code)
  | lengthExtra (lit dist : Code) (extra base : ℕ)
  | distance (lit dist : Code) (length : ℕ)
  | distanceExtra (lit dist : Code) (length extra base : ℕ)
  | done
  | invalid
  deriving DecidableEq

/-- What completes a field. -/
inductive Need where
  | number (width : ℕ)
  | codeword (code : Code)
  | nothing

def Field.need : Field → Need
  | header => .number 3
  | padding width => .number width
  | storedLength => .number 32
  | stored _ => .number 8
  | counts => .number 14
  | size _ _ => .number 3
  | codeWidth _ code _ => .codeword code
  | run _ _ _ extra _ _ => .number extra
  | symbol lit _ => .codeword lit
  | lengthExtra _ _ extra _ => .number extra
  | distance _ dist _ => .codeword dist
  | distanceExtra _ _ _ extra _ => .number extra
  | done => .nothing
  | invalid => .nothing

inductive Answer where
  | more
  | value (n : ℕ)
  | broken

/-- What the bits so far make of a field. A word no codeword starts with is broken. -/
def Need.answer : Need → List Bool → Answer
  | number width, path => if path.length = width then .value (Deflate.number path) else .more
  | codeword code, path =>
    match code.lookup path with
    | some symbol => .value symbol
    | none => if code.any fun entry => path.isPrefixOf entry.1 then .more else .broken
  | nothing, _ => .more

structure State where
  field : Field
  /-- The bits of the field so far. -/
  path : List Bool
  /-- The bits of the stream so far. -/
  taken : ℕ
  /-- Whether the block is the last of its stream. -/
  final : Bool
  /-- What the stream has expanded to, most recent byte first. -/
  recent : Bytes
  deriving DecidableEq

namespace State

def goTo (s : State) (field : Field) : State := { s with field, path := [] }

def emit (s : State) (out : Bytes) : State := { s with recent := out.reverse ++ s.recent }

def endBlock (s : State) : State := s.goTo (if s.final then .done else .header)

def openBlock (s : State) (value : ℕ) : State :=
  let s := { s with final := value % 2 == 1 }
  match value / 2 with
  | 0 => s.goTo (if padTo s.taken = 0 then .storedLength else .padding (padTo s.taken))
  | 1 => s.goTo (.symbol fixedLit fixedDist)
  | 2 => s.goTo .counts
  | _ => s.goTo .invalid

def openStored (s : State) (value : ℕ) : State :=
  if value % 2 ^ 16 + value / 2 ^ 16 + 1 = 2 ^ 16 then
    if value % 2 ^ 16 = 0 then s.endBlock else s.goTo (.stored (value % 2 ^ 16))
  else s.goTo .invalid

def takeCounts (s : State) (value : ℕ) : State :=
  let counts := Counts.ofNumber value
  if counts.valid then s.goTo (.size counts []) else s.goTo .invalid

def takeSizes (s : State) (counts : Counts) (sent : List ℕ) : State :=
  if sent.length < counts.codeLengths then s.goTo (.size counts sent)
  else if space (codeLengthLengths sent) = 2 ^ 15 then
    s.goTo (.codeWidth counts (Code.ofLengths (codeLengthLengths sent)) [])
  else s.goTo .invalid

def takeWidths (s : State) (counts : Counts) (code : Code) (known : List ℕ) : State :=
  if known.length < counts.lit + counts.dist then s.goTo (.codeWidth counts code known)
  else if known.length = counts.lit + counts.dist then
    match codesOf counts known with
    | some (lit, dist) => s.goTo (.symbol lit dist)
    | none => s.goTo .invalid
  else s.goTo .invalid

def takeWidth (s : State) (counts : Counts) (code : Code) (known : List ℕ) (value : ℕ) : State :=
  if value < 16 then s.takeWidths counts code (known ++ [value])
  else
    match runOf known value with
    | some (extra, base, width) => s.goTo (.run counts code known extra base width)
    | none => s.goTo .invalid

/-- A reference: how far back, and how much. -/
def reference (window : ℕ) (s : State) (lit dist : Code) (length distance : ℕ) : State × Bytes :=
  if distance ≤ s.recent.length ∧ distance ≤ window then
    let out := copied distance length s.recent
    ((s.emit out).goTo (.symbol lit dist), out)
  else (s.goTo .invalid, [])

def takeDistance (window : ℕ) (s : State) (lit dist : Code) (length value : ℕ) : State × Bytes :=
  match distanceTable[value]? with
  | none => (s.goTo .invalid, [])
  | some (base, 0) => s.reference window lit dist length base
  | some (base, extra) => (s.goTo (.distanceExtra lit dist length extra base), [])

def takeSymbol (s : State) (lit dist : Code) (value : ℕ) : State × Bytes :=
  if value < 256 then
    ((s.emit [UInt8.ofNat value]).goTo (.symbol lit dist), [UInt8.ofNat value])
  else if value = 256 then (s.endBlock, [])
  else
    match lengthTable[value - 257]? with
    | none => (s.goTo .invalid, [])
    | some (base, 0) => (s.goTo (.distance lit dist base), [])
    | some (base, extra) => (s.goTo (.lengthExtra lit dist extra base), [])

/-- Act on the value of the field. -/
def act (window : ℕ) (s : State) (value : ℕ) : State × Bytes :=
  match s.field with
  | .header => (s.openBlock value, [])
  | .padding _ => (s.goTo .storedLength, [])
  | .storedLength => (s.openStored value, [])
  | .stored left =>
    let s := s.emit [UInt8.ofNat value]
    (if left = 1 then s.endBlock else s.goTo (.stored (left - 1)), [UInt8.ofNat value])
  | .counts => (s.takeCounts value, [])
  | .size counts sent => (s.takeSizes counts (sent ++ [value]), [])
  | .codeWidth counts code known => (s.takeWidth counts code known value, [])
  | .run counts code known _ base width =>
    (s.takeWidths counts code (known ++ .replicate (base + value) width), [])
  | .symbol lit dist => s.takeSymbol lit dist value
  | .lengthExtra lit dist _ base => (s.goTo (.distance lit dist (base + value)), [])
  | .distance lit dist length => s.takeDistance window lit dist length value
  | .distanceExtra lit dist length _ base => s.reference window lit dist length (base + value)
  | .done => (s, [])
  | .invalid => (s, [])

def push (s : State) (bit : Bool) : State :=
  { s with path := s.path ++ [bit], taken := s.taken + 1 }

def feedBit (window : ℕ) (s : State) (bit : Bool) : State × Bytes :=
  let s := s.push bit
  match s.field.need.answer s.path with
  | .more => (s, [])
  | .value value => s.act window value
  | .broken => (s.goTo .invalid, [])

def feedBits (window : ℕ) (s : State) : List Bool → State × Bytes
  | [] => (s, [])
  | bit :: bits =>
    let (s, out) := s.feedBit window bit
    let (s, out') := feedBits window s bits
    (s, out ++ out')

def start : State := ⟨.header, [], 0, false, []⟩

def phase (s : State) : Phase :=
  match s.field with
  | .done => .ended
  | .invalid => .invalid
  | _ => .live

/-- Between two blocks of a stream, with none begun. -/
def AtBlockStart (s : State) : Prop := s.field = .header ∧ s.path = []

/-- Behind the header of a stored block that is not the last, where its length is due. -/
def AtStoredLength (s : State) : Prop := s.field = .storedLength ∧ s.path = [] ∧ s.final = false

instance (s : State) : Decidable s.AtBlockStart := inferInstanceAs (Decidable (_ ∧ _))

instance (s : State) : Decidable s.AtStoredLength := inferInstanceAs (Decidable (_ ∧ _ ∧ _))

end State

/-- The inflater that lets references go back `window` bytes. -/
def machine (window : ℕ) : ByteMachine State where
  start := .start
  phase := State.phase
  feed := fun s byte => s.feedBits window (bitsOf byte)
  start_live := rfl

end WsPmd.Library.Deflate
