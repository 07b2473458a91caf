import WsPmd.Handshake.Selections

/-!
# What quoting decides

The quote-aware splitter and the plain one cut many values differently. A value they
cut differently has a delimiter inside a quoted string, where the grammar asks for a
token, and no token holds one; so validation refuses it whichever of the two it cuts
with, and every field it accepts reads the same under both.
-/

namespace WsPmd.Handshake

open Grammar (Bytes comma semicolon)
open WsPmd.Field

/-- Every reader finds the same in the field, whichever splitter it cuts with. -/
structure ReadsAlike (headers : HeaderMap) : Prop where
  lines : ∀ line ∈ fieldLines headers, ∃ parts, Grammar.elements line = .ok parts ∧
    elementsBy plainSplit line = .ok parts ∧ ∀ e ∈ parts,
      (∃ segments, Grammar.segments e = .ok segments ∧ segmentsBy plainSplit e = .ok segments) ∧
      isDeflateBy plainSplit e = Grammar.isDeflate e ∧
      parseParamsBy plainSplit e = Grammar.parseParams e
  selected : ∃ found, deflateElementsBy Grammar.split headers = .ok found ∧
    deflateElementsBy plainSplit headers = .ok found

/-! ## An accepted field -/

/-- An element of an accepted field has the same segments for every splitter. -/
theorem segmentsBy_fieldElements {headers : HeaderMap} (hv : Grammar.validate headers = .ok ())
    {e : Bytes} (he : e ∈ fieldElements headers) :
    ∃ segments, ∀ split, Cuts split → segmentsBy split e = .ok segments := by
  by_cases hows : Ows e
  · refine ⟨[e], fun split hc => ?_⟩
    have hcut := hc.cuts delimiter_semicolon (List.cons_ne_nil e [])
      (List.forall_mem_singleton.mpr
        ⟨hows.whole delimiter_semicolon, hows.not_mem (by decide) (by decide)⟩)
    rwa [List.intercalate_singleton] at hcut
  · have hext : Extension Ows e := by
      rcases (validate_iff headers).mp hv with hnil | ⟨hfits, -⟩
      · rw [fieldElements, hnil] at he
        cases he
      · exact hfits e he hows
    obtain ⟨before, name, after, parameters, hb, hn, ha, hp, rfl⟩ := hext
    exact ⟨_, fun split hc => segmentsBy_extension hc hb hn ha hp⟩

theorem elementsBy_fieldLines {headers : HeaderMap} (hv : Grammar.validate headers = .ok ())
    {split : Splitter} (hc : Cuts split) :
    ∀ line ∈ fieldLines headers, elementsBy split line = .ok (line.splitOn comma) := by
  intro line hl
  rcases (validate_iff headers).mp hv with hnil | ⟨hfits, -⟩
  · rw [hnil] at hl
    cases hl
  · exact elementsBy_of_fits hc (fun _ => id) fun p hp =>
      hfits p (List.mem_flatMap.mpr ⟨line, hl, hp⟩)

section Readers

variable {split : Splitter} {e : Bytes} {segments : List Bytes}

theorem isDeflateBy_of_segments (h : segmentsBy split e = .ok segments)
    (h' : Grammar.segments e = .ok segments) : isDeflateBy split e = Grammar.isDeflate e := by
  rw [isDeflateBy, h, Grammar.isDeflate, h']

theorem parseParamsBy_of_segments (h : segmentsBy split e = .ok segments)
    (h' : Grammar.segments e = .ok segments) : parseParamsBy split e = Grammar.parseParams e := by
  rw [parseParamsBy, h, Grammar.parseParams, h']

end Readers

theorem isDeflateBy_fieldElements {headers : HeaderMap} (hv : Grammar.validate headers = .ok ())
    {split : Splitter} (hc : Cuts split) {e : Bytes} (he : e ∈ fieldElements headers) :
    isDeflateBy split e = .ok (named e) := by
  obtain ⟨segments, hs⟩ := segmentsBy_fieldElements hv he
  rw [isDeflateBy_of_segments (hs split hc) (hs _ cuts_split)]
  exact isDeflate_of_mem_fieldElements hv he

theorem foldlM_concat (l found : List Bytes) :
    l.foldlM (fun found e => Except.ok (ε := NegotiationError) (found ++ [e])) found =
      .ok (found ++ l) := by
  induction l generalizing found with
  | nil => rw [List.append_nil]; rfl
  | cons e l ih =>
    rw [List.foldlM_cons]
    show l.foldlM _ (found ++ [e]) = _
    rw [ih, List.append_assoc, List.singleton_append]

/-- The elements found are the selections, for every splitter. -/
theorem deflateElementsBy_eq {headers : HeaderMap} (hv : Grammar.validate headers = .ok ())
    {split : Splitter} (hc : Cuts split) :
    deflateElementsBy split headers = .ok (selections headers) := by
  rw [deflateElementsBy, forElementsBy_eq (elementsBy_fieldLines hv hc),
    Library.Traversal.foldlM_selected (p := named) (f := fun found e => .ok (found ++ [e]))]
  · exact foldlM_concat _ []
  · intro found e he
    rw [isDeflateBy_fieldElements hv hc he]
    cases named e <;> rfl

theorem readsAlike_of_validate {headers : HeaderMap} (hv : Grammar.validate headers = .ok ()) :
    ReadsAlike headers where
  lines := by
    intro line hl
    refine ⟨_, elementsBy_fieldLines hv cuts_split line hl,
      elementsBy_fieldLines hv cuts_plainSplit line hl, fun e he => ?_⟩
    obtain ⟨segments, hs⟩ :=
      segmentsBy_fieldElements hv (List.mem_flatMap.mpr ⟨line, hl, he⟩)
    have hplain := hs _ cuts_plainSplit
    have hquoted : Grammar.segments e = .ok segments := hs _ cuts_split
    exact ⟨⟨segments, hquoted, hplain⟩, isDeflateBy_of_segments hplain hquoted,
      parseParamsBy_of_segments hplain hquoted⟩
  selected := ⟨_, deflateElementsBy_eq hv cuts_split, deflateElementsBy_eq hv cuts_plainSplit⟩

/-! ## Every field -/

theorem plainSplit_onlyMalformed (v : Bytes) (d : UInt8) : OnlyMalformed (plainSplit v d) := .ok _

/-- **Quoting can neither hide nor manufacture a selection.** Validation accepts the
same fields with the plain splitter as with the quote-aware one. Every reader finds
the same in an accepted field under both, so a field that does not read alike is
malformed under both. -/
theorem quoting_decides_nothing (headers : HeaderMap) :
    (validateBy plainSplit headers = .ok () ↔ Grammar.validate headers = .ok ()) ∧
      (Grammar.validate headers = .ok () → ReadsAlike headers) ∧
      (¬ ReadsAlike headers → Grammar.validate headers = .error .malformedHeader ∧
        validateBy plainSplit headers = .error .malformedHeader) := by
  have hverdict : validateBy plainSplit headers = .ok () ↔ Grammar.validate headers = .ok () :=
    (validateBy_iff cuts_plainSplit headers).trans (validate_iff headers).symm
  refine ⟨hverdict, readsAlike_of_validate, fun hn => ?_⟩
  have hrefused : Grammar.validate headers ≠ .ok () := fun hv => hn (readsAlike_of_validate hv)
  constructor
  · cases hv : Grammar.validate headers with
    | ok u => exact absurd hv hrefused
    | error error => rw [validate_onlyMalformed headers error hv]
  · cases hv : validateBy plainSplit headers with
    | ok u => exact absurd (hverdict.mp hv) hrefused
    | error error => rw [validateBy_onlyMalformed plainSplit_onlyMalformed headers error hv]

/-- A selection inside a quoted string. -/
def quotedSelection : HeaderMap :=
  .ofLines [.fromStatic "x; memo=\"a, permessage-deflate\"" rfl]

theorem quoting_decides_nothing_quoted :
    Grammar.validate quotedSelection = .error .malformedHeader ∧
      validateBy plainSplit quotedSelection = .error .malformedHeader := by
  refine (quoting_decides_nothing quotedSelection).2.2 fun h => ?_
  obtain ⟨parts, hquoted, hplain, -⟩ := h.lines (ascii "x; memo=\"a, permessage-deflate\"")
    (by decide +kernel)
  obtain rfl := Except.ok.inj hplain
  exact absurd hquoted (by decide +kernel)

end WsPmd.Handshake
