import WsPmd.Grammar

/-!
# The readers of the field, over any splitter

Each reader cuts lines and elements with a splitter and works on the parts. Here the
splitter is a parameter: the crate's readers are those at its quote-aware one, and
`plainSplit` has no regard to quotes and never fails.
-/

namespace WsPmd.Field

open Grammar (Bytes Params Staged comma semicolon)

/-- A way to cut a value at a delimiter. -/
abbrev Splitter := Bytes → UInt8 → Except NegotiationError (List Bytes)

def plainSplit : Splitter := fun value delimiter => .ok (value.splitOn delimiter)

variable (split : Splitter)

def elementsBy (value : Bytes) : Except NegotiationError (List Bytes) := split value comma

def segmentsBy (element : Bytes) : Except NegotiationError (List Bytes) := split element semicolon

def isDeflateBy (element : Bytes) : Except NegotiationError Bool := do
  let segments ← segmentsBy split element
  let name' := segments.head?.getD []
  pure (Grammar.trim name' = Grammar.name)

def validateElementBy (element : Bytes) : Except NegotiationError Unit := do
  match ← segmentsBy split element with
  | [] => .error .malformedHeader
  | name :: parameters =>
    Grammar.validateToken (Grammar.trim name)
    parameters.forM Grammar.validateParameter

def forElementsBy {S : Type} (headers : HeaderMap) (init : S)
    (visit : S → Bytes → Except NegotiationError S) : Except NegotiationError S :=
  (headers.getAll .secWebSocketExtensions).foldlM
    (fun s value => do (← elementsBy split value.bytes).foldlM visit s) init

/-- What `validate` does at one element. -/
def checkElementBy (populated : Bool) (element : Bytes) : Except NegotiationError Bool :=
  if Grammar.isBlank element then pure populated
  else do
    validateElementBy split element
    pure true

def validateBy (headers : HeaderMap) : Except NegotiationError Unit := do
  let present := !(headers.getAll .secWebSocketExtensions).isEmpty
  let populated ← forElementsBy split headers false (checkElementBy split)
  if present && !populated then .error .malformedHeader else pure ()

def parseParamsBy (element : Bytes) : Except NegotiationError Params := do
  let segments ← segmentsBy split element
  let staged ← segments.tail.foldlM Grammar.parseParam Staged.empty
  pure {
    serverNoContextTakeover := staged.serverTakeover.getD false
    clientNoContextTakeover := staged.clientTakeover.getD false
    serverMaxWindowBits := staged.serverWindow
    clientMaxWindowBits := staged.clientWindow.getD .absent }

/-- The elements that name the extension, in field order. -/
def deflateElementsBy (headers : HeaderMap) : Except NegotiationError (List Bytes) :=
  forElementsBy split headers [] fun found element => do
    if ← isDeflateBy split element then pure (found ++ [element]) else pure found

/-- The crate's readers cut with the crate's splitter. -/
theorem readers_split :
    elementsBy Grammar.split = Grammar.elements ∧ segmentsBy Grammar.split = Grammar.segments ∧
      isDeflateBy Grammar.split = Grammar.isDeflate ∧
      validateElementBy Grammar.split = Grammar.validateElement ∧
      validateBy Grammar.split = Grammar.validate ∧
      parseParamsBy Grammar.split = Grammar.parseParams :=
  ⟨rfl, rfl, rfl, rfl, rfl, rfl⟩

end WsPmd.Field
