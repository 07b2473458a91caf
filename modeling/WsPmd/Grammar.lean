import WsPmd.Error
import WsPmd.Header
import WsPmd.Library.Quoted
import Mathlib.Data.List.DropRight

/-!
# The `Sec-WebSocket-Extensions` grammar, over raw bytes

Header values are read as bytes and never decoded. `validate` checks every line
and every element of the field before anything is selected from it, including
extensions the crate knows nothing about.
-/

namespace WsPmd.Grammar

open WsPmd.Library

/-- A Rust byte slice. -/
abbrev Bytes := List UInt8

def doubleQuote : UInt8 := 34
def backslash : UInt8 := 92
def comma : UInt8 := 44
def semicolon : UInt8 := 59
def equals : UInt8 := 61

/-- The extension token this crate implements. -/
def name : Bytes := ascii "permessage-deflate"

def marks : Quoted.Marks UInt8 := ⟨doubleQuote, backslash⟩

/-- Split on `delimiter`, honouring quoted strings and quoted pairs. A value that
ends inside either is malformed. -/
def split (value : Bytes) (delimiter : UInt8) : Except NegotiationError (List Bytes) :=
  match Quoted.split marks delimiter value with
  | none => .error .malformedHeader
  | some parts => .ok parts

/-- Split one header line into its comma-separated extension elements. -/
def elements (value : Bytes) : Except NegotiationError (List Bytes) := split value comma

/-- Split one element into its name and its semicolon-separated parameters. -/
def segments (element : Bytes) : Except NegotiationError (List Bytes) := split element semicolon

/-- `u8::is_ascii_whitespace`. -/
def isAsciiWhitespace (byte : UInt8) : Bool :=
  byte = 32 || byte = 9 || byte = 10 || byte = 12 || byte = 13

def isAsciiDigit (byte : UInt8) : Bool := 48 ≤ byte && byte ≤ 57

def trim (value : Bytes) : Bytes :=
  (value.dropWhile isAsciiWhitespace).rdropWhile isAsciiWhitespace

/-- Whether this element names `permessage-deflate`, compared exactly. -/
def isDeflate (element : Bytes) : Except NegotiationError Bool := do
  let segments ← segments element
  let name' := segments.head?.getD []
  pure (trim name' = name)

/-- An empty list position. -/
def isBlank (element : Bytes) : Bool := (trim element).isEmpty

def isTchar (byte : UInt8) : Bool :=
  byte = 33 || (35 ≤ byte && byte ≤ 39) || byte = 42 || byte = 43 || byte = 45 || byte = 46 ||
    (48 ≤ byte && byte ≤ 57) || (65 ≤ byte && byte ≤ 90) || (94 ≤ byte && byte ≤ 122) ||
    byte = 124 || byte = 126

/-- `1*<any CHAR except CTLs or separators>`. -/
def validateToken (value : Bytes) : Except NegotiationError Unit :=
  if value.isEmpty || !value.all isTchar then .error .malformedHeader else .ok ()

/-- Cut a parameter at its first `=`. -/
def splitParameter (segment : Bytes) : Bytes × Option Bytes :=
  match segment.findIdx? (· = equals) with
  | none => (segment, none)
  | some index => (segment.take index, some (segment.drop (index + 1)))

/-- The inside of a quoted string, resolving quoted pairs up to a closing quote
that must be the last byte. -/
def unquoteLoop : Bytes → Bytes → Except NegotiationError Bytes
  | [], _ => .error .malformedHeader
  | byte :: rest, output =>
    if byte = backslash then
      match rest with
      | [] => .error .malformedHeader
      | next :: rest => unquoteLoop rest (output ++ [next])
    else if byte = doubleQuote then
      if rest.isEmpty then .ok output else .error .malformedHeader
    else unquoteLoop rest (output ++ [byte])

/-- Strip one layer of quoting. A bare quote inside an unquoted value is an error. -/
def unquote : Bytes → Except NegotiationError Bytes
  | [] => .ok []
  | byte :: rest =>
    if byte = doubleQuote then unquoteLoop rest []
    else if (byte :: rest).contains doubleQuote then .error .malformedHeader
    else .ok (byte :: rest)

def validateParameter (parameter : Bytes) : Except NegotiationError Unit := do
  let (name, value) := splitParameter parameter
  validateToken (trim name)
  match value with
  | none => pure ()
  | some value =>
    -- Both spellings of a value reduce to a token.
    let value ← unquote (trim value)
    validateToken value

/-- `extension = extension-token *( ";" extension-param )`. -/
def validateElement (element : Bytes) : Except NegotiationError Unit := do
  match ← segments element with
  | [] => .error .malformedHeader
  | name :: parameters =>
    validateToken (trim name)
    parameters.forM validateParameter

/-- Visit every element of every line of the field, in order. The first error,
of the splitter or of the visit, is the answer. -/
def forElements {S : Type} (headers : HeaderMap) (init : S)
    (visit : S → Bytes → Except NegotiationError S) : Except NegotiationError S :=
  (headers.getAll .secWebSocketExtensions).foldlM
    (fun s value => do (← elements value.bytes).foldlM visit s) init

/-- The same walk, left at the first element that answers: lines behind it are
not even split. -/
def findElement {A : Type} (headers : HeaderMap)
    (visit : Bytes → Except NegotiationError (Option A)) : Except NegotiationError (Option A) :=
  (headers.getAll .secWebSocketExtensions).findSomeM?
    (fun value => do (← elements value.bytes).findSomeM? visit)

/-- Check the whole field before any element is interpreted. A field that is
present and holds no element is malformed. -/
def validate (headers : HeaderMap) : Except NegotiationError Unit := do
  let present := !(headers.getAll .secWebSocketExtensions).isEmpty
  let populated ← forElements headers false fun populated element =>
    if isBlank element then pure populated
    else do
      validateElement element
      pure true
  if present && !populated then .error .malformedHeader else pure ()

/-- The forms `client_max_window_bits` takes on the wire. -/
inductive ClientWindow where
  | absent
  | valueless
  | bits (bits : ℕ)
  deriving DecidableEq, Repr

/-- The four parameters, as they appeared on the wire. -/
structure Params where
  serverNoContextTakeover : Bool
  clientNoContextTakeover : Bool
  serverMaxWindowBits : Option ℕ
  clientMaxWindowBits : ClientWindow
  deriving DecidableEq, Repr

def setOnce {T : Type} (slot : Option T) (value : T) : Except NegotiationError (Option T) :=
  if slot.isSome then .error .duplicateParameter else .ok (some value)

/-- A flag parameter carries no value; `x=` and `x=y` are both arity errors. -/
def noValue : Option Bytes → Except NegotiationError Bool
  | none => .ok true
  | some _ => .error .parameterArity

/-- `u8::checked_mul` and `u8::checked_add`. -/
def checkedMul (a b : ℕ) : Option ℕ := if a * b < 256 then some (a * b) else none

def checkedAdd (a b : ℕ) : Option ℕ := if a + b < 256 then some (a + b) else none

/-- Window widths are `1*DIGIT` in 8..=15, without a leading zero. -/
def parseBits (value : Bytes) : Except NegotiationError ℕ := do
  let digits ← unquote (trim value)
  if digits.isEmpty || !digits.all isAsciiDigit then .error .invalidWindowBits
  else if digits.length > 1 && digits.head? = some 48 then .error .invalidWindowBits
  else
    match digits.foldlM (fun total digit =>
        (checkedMul total 10).bind fun t => checkedAdd t (digit.toNat - 48)) 0 with
    | none => .error .invalidWindowBits
    | some bits => if 8 ≤ bits && bits ≤ 15 then .ok bits else .error .invalidWindowBits

/-- The parameters read so far; an empty slot is one not seen yet. -/
structure Staged where
  serverTakeover : Option Bool
  clientTakeover : Option Bool
  serverWindow : Option ℕ
  clientWindow : Option ClientWindow
  deriving DecidableEq

def Staged.empty : Staged := ⟨none, none, none, none⟩

def serverNoContextTakeoverName : Bytes := ascii "server_no_context_takeover"
def clientNoContextTakeoverName : Bytes := ascii "client_no_context_takeover"
def serverMaxWindowBitsName : Bytes := ascii "server_max_window_bits"
def clientMaxWindowBitsName : Bytes := ascii "client_max_window_bits"

/-- The value of `client_max_window_bits`, which may be left out. -/
def parseClientWindow : Option Bytes → Except NegotiationError ClientWindow
  | some value => (parseBits value).map ClientWindow.bits
  | none => .ok .valueless

/-- Stage one parameter. Names are compared exactly, and an unregistered one is an error. -/
def parseParam (staged : Staged) (segment : Bytes) : Except NegotiationError Staged := do
  let (name, value) := splitParameter segment
  let name := trim name
  if name = serverNoContextTakeoverName then
    let flag ← noValue value
    let slot ← setOnce staged.serverTakeover flag
    pure { staged with serverTakeover := slot }
  else if name = clientNoContextTakeoverName then
    let flag ← noValue value
    let slot ← setOnce staged.clientTakeover flag
    pure { staged with clientTakeover := slot }
  else if name = serverMaxWindowBitsName then
    match value with
    | none => .error .parameterArity
    | some value =>
      let bits ← parseBits value
      let slot ← setOnce staged.serverWindow bits
      pure { staged with serverWindow := slot }
  else if name = clientMaxWindowBitsName then
    let window ← parseClientWindow value
    let slot ← setOnce staged.clientWindow window
    pure { staged with clientWindow := slot }
  else .error .unknownParameter

/-- Decode the parameters of an element already known to name `permessage-deflate`. -/
def parseParams (element : Bytes) : Except NegotiationError Params := do
  let segments ← segments element
  let staged ← segments.tail.foldlM parseParam Staged.empty
  pure {
    serverNoContextTakeover := staged.serverTakeover.getD false
    clientNoContextTakeover := staged.clientTakeover.getD false
    serverMaxWindowBits := staged.serverWindow
    clientMaxWindowBits := staged.clientWindow.getD .absent }

end WsPmd.Grammar
