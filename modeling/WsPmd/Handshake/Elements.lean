import WsPmd.Field.Layout
import WsPmd.Handshake.Rendering
import WsPmd.Handshake.Selections

/-!
# Walking an accepted field

An element that trims to a rendering reads like the rendering, whatever whitespace
stands around it. So on an accepted field every reader that looks for the extension
finds nothing where no element names it, and the rendering where one does.
-/

namespace WsPmd.Handshake

open WsPmd.Library
open Grammar (Bytes Params Staged comma semicolon equals marks)
open WsPmd.Field (bind_eq_ok)

/-! ## Whitespace behind an element -/

theorem trim_trail {w : Bytes} (hw : Field.Ows w) (p : Bytes) :
    Grammar.trim (p ++ w) = Grammar.trim p := by
  have hr (t : Bytes) : (t ++ w).rdropWhile Grammar.isAsciiWhitespace =
      t.rdropWhile Grammar.isAsciiWhitespace := by
    simp only [List.rdropWhile, List.reverse_append]
    rw [List.dropWhile_append_of_pos fun b hb => hw.whitespace b (List.mem_reverse.mp hb)]
  by_cases hp : p.dropWhile Grammar.isAsciiWhitespace = []
  · have hall := List.dropWhile_eq_nil_iff.mp hp
    have hd : (p ++ w).dropWhile Grammar.isAsciiWhitespace = [] :=
      List.dropWhile_eq_nil_iff.mpr (List.forall_mem_append.mpr ⟨hall, hw.whitespace⟩)
    rw [Grammar.trim, Grammar.trim, hd, hp]
  · have hd : (p ++ w).dropWhile Grammar.isAsciiWhitespace =
        p.dropWhile Grammar.isAsciiWhitespace ++ w := by
      rw [List.dropWhile_append, if_neg (by simpa using hp)]
    rw [Grammar.trim, Grammar.trim, hd, hr]

theorem segments_trail {w : Bytes} (hw : Field.Ows w) {e last : Bytes} {init : List Bytes}
    (h : Grammar.segments e = .ok (init ++ [last])) :
    Grammar.segments (e ++ w) = .ok (init ++ [last ++ w]) := by
  have hd := Field.delimiter_semicolon
  rw [Grammar.segments, Field.split_eq_ok] at h ⊢
  have hwhole := fun p hp => Quoted.whole_of_mem_split h (p := p) hp
  have hjoin : [semicolon].intercalate (init ++ [last ++ w]) = e ++ w := by
    rw [← Quoted.join_split h]
    cases init with
    | nil => simp
    | cons p ps =>
      rw [Quoted.intercalate_concat _ _ _ (by simp), Quoted.intercalate_concat _ _ _ (by simp)]
      simp
  rw [← hjoin]
  refine Quoted.split_join hd.ne_quote (by simp) fun p hp => ?_
  rcases List.mem_append.mp hp with hp | hp
  · exact hwhole p (List.mem_append_left _ hp)
  · obtain rfl := List.mem_singleton.mp hp
    exact (hwhole last (by simp)).append (hw.whole hd)

theorem parseBits_trail {w : Bytes} (hw : Field.Ows w) (v : Bytes) :
    Grammar.parseBits (v ++ w) = Grammar.parseBits v := by
  rw [Grammar.parseBits, Grammar.parseBits, trim_trail hw]

theorem parseParam_trail {w : Bytes} (hw : Field.Ows w) (staged : Staged) (segment : Bytes) :
    Grammar.parseParam staged (segment ++ w) = Grammar.parseParam staged segment := by
  have hne : equals ∉ w := hw.not_mem (by decide) (by decide)
  rcases Field.splitParameter_cases segment with ⟨hm, hcut⟩ | ⟨name, value, rfl, hcut⟩
  · have hm' : equals ∉ segment ++ w := by
      simp only [List.mem_append, not_or]
      exact ⟨hm, hne⟩
    have hcut' := Field.splitParameter_none hm'
    simp only [Grammar.parseParam, hcut, hcut', trim_trail hw]
  · have hcut' : Grammar.splitParameter (name ++ equals :: value ++ w) =
        (name, some (value ++ w)) := by
      by_cases hn : equals ∈ name
      · -- The first cut is the only one, so a name with an equals sign has none.
        obtain ⟨before, after, rfl, hb⟩ := List.eq_append_cons_of_mem hn
        rw [List.append_assoc, List.cons_append, Field.splitParameter_some hb] at hcut
        obtain ⟨hbefore, -⟩ := Prod.mk.inj hcut
        simp at hbefore
      · rw [List.append_assoc, List.cons_append]
        exact Field.splitParameter_some hn
    simp only [Grammar.parseParam, hcut, hcut', Grammar.noValue, Grammar.parseClientWindow,
      parseBits_trail hw]

theorem parseParams_trail {w : Bytes} (hw : Field.Ows w) {e : Bytes} {parts : List Bytes}
    (h : Grammar.segments e = .ok parts) (hne : parts ≠ []) :
    Grammar.parseParams (e ++ w) = Grammar.parseParams e := by
  obtain ⟨init, last, rfl⟩ := (List.eq_nil_or_concat parts).resolve_left hne
  rw [List.concat_eq_append] at h
  rw [Grammar.parseParams, Grammar.parseParams, segments_trail hw h, h]
  cases init with
  | nil => rfl
  | cons p ps =>
    show ((ps ++ [last ++ w]).foldlM Grammar.parseParam Staged.empty >>= _) =
      ((ps ++ [last]).foldlM Grammar.parseParam Staged.empty >>= _)
    simp only [List.foldlM_append, List.foldlM_cons, parseParam_trail hw]

theorem isDeflate_trail {w : Bytes} (hw : Field.Ows w) {e : Bytes} {parts : List Bytes}
    (h : Grammar.segments e = .ok parts) (hne : parts ≠ []) :
    Grammar.isDeflate (e ++ w) = Grammar.isDeflate e := by
  obtain ⟨init, last, rfl⟩ := (List.eq_nil_or_concat parts).resolve_left hne
  rw [List.concat_eq_append] at h
  rw [Grammar.isDeflate, Grammar.isDeflate, segments_trail hw h, h]
  cases init with
  | nil =>
    show Except.ok (decide (Grammar.trim (last ++ w) = Grammar.name)) = _
    rw [trim_trail hw]
    rfl
  | cons p ps => rfl

/-! ## An element that trims to a rendering -/

section Rendered

variable {s c : Bool} {sb : Option ℕ} {cb : ClientBits} {e : Bytes}

theorem isDeflate_rendered (h : Renderable sb cb) (he : ∀ b ∈ e, isHeaderByte b = true)
    (ht : Grammar.trim e = Render.text s c sb cb) : Grammar.isDeflate e = .ok true := by
  obtain ⟨w, w', hw, hw', hsplit⟩ := Field.trim_split he
  rw [ht] at hsplit
  rw [hsplit, List.append_assoc, Field.isDeflate_pad hw,
    isDeflate_trail hw' (segments_text h s c) (by simp), isDeflate_text h]

theorem parseParams_rendered (h : Renderable sb cb) (he : ∀ b ∈ e, isHeaderByte b = true)
    (ht : Grammar.trim e = Render.text s c sb cb) :
    Grammar.parseParams e = .ok ⟨s, c, sb, (clientWindowOf cb).getD .absent⟩ := by
  obtain ⟨w, w', hw, hw', hsplit⟩ := Field.trim_split he
  rw [ht] at hsplit
  rw [hsplit, List.append_assoc, Field.parseParams_pad hw,
    parseParams_trail hw' (segments_text h s c) (by simp), parseParams_text h]

end Rendered

/-! ## Walks -/

/-- No element of the field names the extension. -/
def FreeOfDeflate (headers : HeaderMap) : Prop :=
  ∀ e ∈ fieldElements headers, Grammar.isDeflate e = .ok false

/-- One element of the field names the extension, and trims to `text`. -/
def SoleElement (headers : HeaderMap) (text : Bytes) : Prop :=
  ∃ before e after, fieldElements headers = before ++ e :: after ∧ Grammar.trim e = text ∧
    (∀ p ∈ before, Grammar.isDeflate p = .ok false) ∧
    ∀ p ∈ after, Grammar.isDeflate p = .ok false

section Readers

variable {headers : HeaderMap} (hv : Grammar.validate headers = .ok ())
include hv

/-- Elements of the field that do not name the extension are not selected. -/
theorem filter_free {l : List Bytes} (hl : ∀ p ∈ l, p ∈ fieldElements headers)
    (h : ∀ p ∈ l, Grammar.isDeflate p = .ok false) : l.filter named = [] := by
  rw [List.filter_eq_nil_iff]
  intro p hp hnamed
  have heq := isDeflate_of_mem_fieldElements hv (hl p hp)
  rw [h p hp, hnamed] at heq
  cases heq

theorem FreeOfDeflate.selections (h : FreeOfDeflate headers) : selections headers = [] :=
  filter_free hv (fun _ hp => hp) h

/-- The sole element is all that is selected, and reads like what it trims to. -/
theorem SoleElement.selections {s c : Bool} {sb : Option ℕ} {cb : ClientBits}
    (hr : Renderable sb cb) (h : SoleElement headers (Render.text s c sb cb)) :
    ∃ e, selections headers = [e] ∧ Grammar.trim e = Render.text s c sb cb ∧
      Grammar.parseParams e = .ok ⟨s, c, sb, (clientWindowOf cb).getD .absent⟩ := by
  obtain ⟨before, e, after, hpieces, ht, hb, ha⟩ := h
  have hmem {p : Bytes} (hp : p ∈ before ∨ p = e ∨ p ∈ after) : p ∈ fieldElements headers := by
    rw [hpieces, List.mem_append, List.mem_cons]
    exact hp
  have he := hmem (Or.inr (Or.inl rfl))
  have hheader := header_of_mem_fieldElements he
  have hnamed : named e = true := by
    have heq := isDeflate_of_mem_fieldElements hv he
    rw [isDeflate_rendered hr hheader ht] at heq
    exact (Except.ok.inj heq).symm
  refine ⟨e, ?_, ht, parseParams_rendered hr hheader ht⟩
  rw [Handshake.selections, hpieces, List.filter_append, List.filter_cons_of_pos hnamed,
    filter_free hv (fun p hp => hmem (Or.inl hp)) hb,
    filter_free hv (fun p hp => hmem (Or.inr (Or.inr hp))) ha]
  rfl

theorem containsDeflate_free (h : FreeOfDeflate headers) :
    containsDeflate headers = .ok false := by
  rw [containsDeflate_eq (Field.splits_of_validate hv), selectionsIn_pieces, h.selections hv]
  rfl

variable {s c : Bool} {sb : Option ℕ} {cb : ClientBits} (hr : Renderable sb cb)
  (hsole : SoleElement headers (Render.text s c sb cb))
include hr hsole

theorem soleDeflate_sole :
    soleDeflate headers = .ok (some ⟨s, c, sb, (clientWindowOf cb).getD .absent⟩) := by
  obtain ⟨e, hs, -, hparams⟩ := hsole.selections hv hr
  rw [soleDeflate_eq (Field.splits_of_validate hv), selectionsIn_pieces, hs]
  show (Grammar.parseParams e).map some = _
  rw [hparams]
  rfl

theorem countExact_sole (altered : NegotiationError) :
    countExact headers (Render.text s c sb cb) altered = .ok 1 := by
  obtain ⟨e, hs, ht, -⟩ := hsole.selections hv hr
  have hall : ∀ e' ∈ [e], Grammar.trim e' = Render.text s c sb cb :=
    List.forall_mem_singleton.mpr ht
  rw [countExact_eq (Field.splits_of_validate hv), selectionsIn_pieces, hs]
  exact if_pos hall

theorem accept_sole (config : ServerConfig) :
    ServerHandshake.accept config headers =
      .ok (select config ⟨s, c, sb, (clientWindowOf cb).getD .absent⟩) := by
  obtain ⟨e, hs, -, hparams⟩ := hsole.selections hv hr
  rw [accept_eq hv, hs, List.findSome?_singleton, hparams]
  rfl

end Readers

/-! ## Appending a rendering -/

theorem fieldElements_append (headers : HeaderMap) {sb : Option ℕ} {cb : ClientBits}
    (h : Renderable sb cb) (s c : Bool) :
    fieldElements (headers.append .secWebSocketExtensions (render s c sb cb)) =
      fieldElements headers ++ [Render.text s c sb cb] := by
  have hcomma := ((extension_text h s c).whole_comma fun _ => id).2
  simp only [fieldElements, Field.fieldLines, Field.pieces, HeaderMap.getAll_append,
    List.map_append, List.map_cons, List.map_nil, List.flatMap_append, List.flatMap_singleton,
    render]
  rw [List.splitOn_eq_singleton hcomma]

theorem validate_append {headers : HeaderMap} (hv : Grammar.validate headers = .ok ())
    {sb : Option ℕ} {cb : ClientBits} (h : Renderable sb cb) (s c : Bool) :
    Grammar.validate (headers.append .secWebSocketExtensions (render s c sb cb)) = .ok () := by
  have hext := extension_text h s c
  have hnot : ¬ Field.Ows (Render.text s c sb cb) := by
    rw [text_eq]
    intro hw
    exact token_extensionName.not_ows (List.forall_mem_append.mp hw).1
  have helements := fieldElements_append headers h s c
  unfold fieldElements at helements
  rw [Field.validate_iff, helements]
  refine Or.inr ⟨List.forall_mem_append.mpr ⟨?_, ?_⟩, Render.text s c sb cb, by simp, hnot⟩
  · rcases (Field.validate_iff headers).mp hv with hnil | ⟨hfits, -⟩
    · rw [hnil]
      exact nofun
    · exact hfits
  · exact List.forall_mem_singleton.mpr fun _ => hext

theorem soleElement_append {headers : HeaderMap} (hfree : FreeOfDeflate headers)
    {sb : Option ℕ} {cb : ClientBits} (h : Renderable sb cb) (s c : Bool) :
    SoleElement (headers.append .secWebSocketExtensions (render s c sb cb))
      (Render.text s c sb cb) :=
  ⟨fieldElements headers, Render.text s c sb cb, [], fieldElements_append headers h s c,
    trim_text h s c, hfree, nofun⟩

end WsPmd.Handshake
