import WsPmd.Field.Acceptance

/-!
# The validator accepts exactly the grammar: the whole field

`pieces` cuts the lines at every comma, blind to quotes. On an accepted field
these are the elements the quote-aware splitter finds, so the verdict is a
condition on the pieces alone, and the pieces are those of the list the lines
spell together.
-/

namespace WsPmd.Field

open WsPmd.Library
open Grammar (Bytes comma marks)

/-- The elements a splitter blind to quotes would cut the lines into. -/
def pieces (lines : List Bytes) : List Bytes := lines.flatMap (·.splitOn comma)

/-- An element that is blank or an extension. -/
def Fits (gap : Bytes → Prop) (p : Bytes) : Prop := ¬ Ows p → Extension gap p

theorem Fits.whole {gap : Bytes → Prop} (hg : ∀ w, gap w → Ows w) {p : Bytes} (h : Fits gap p) :
    Quoted.Whole marks comma p ∧ comma ∉ p := by
  by_cases hp : Ows p
  · exact ⟨hp.whole delimiter_comma, hp.not_mem (by decide) (by decide)⟩
  · exact (h hp).whole_comma hg

/-! ## One line -/

theorem header_of_mem_splitOn {line p : Bytes} (hp : p ∈ line.splitOn comma)
    (hline : ∀ b ∈ line, isHeaderByte b = true) : ∀ b ∈ p, isHeaderByte b = true := by
  intro b hb
  apply hline
  have hjoin : [comma].intercalate (line.splitOn comma) = line := List.intercalate_splitOn comma
  rw [← hjoin]
  obtain ⟨before, after, hs⟩ := List.append_of_mem hp
  cases hparts : line.splitOn comma with
  | nil => rw [hparts] at hp; cases hp
  | cons q qs =>
    rw [intercalate_eq_flatMap, List.mem_append, List.mem_flatMap]
    rw [hparts] at hp
    rcases List.mem_cons.mp hp with rfl | hp
    · exact Or.inl hb
    · exact Or.inr ⟨p, hp, List.mem_cons_of_mem _ hb⟩

section Splitting

variable {split : Splitter} (hc : Cuts split)
include hc

/-- A line whose plain pieces fit is split into them. -/
theorem elementsBy_of_fits {gap : Bytes → Prop} (hg : ∀ w, gap w → Ows w) {line : Bytes}
    (h : ∀ p ∈ line.splitOn comma, Fits gap p) :
    elementsBy split line = .ok (line.splitOn comma) := by
  have hjoin : [comma].intercalate (line.splitOn comma) = line := List.intercalate_splitOn comma
  have hsplit := hc.cuts delimiter_comma (List.splitOn_ne_nil comma line)
    fun p hp => (h p hp).whole hg
  rwa [hjoin] at hsplit

/-- A line that splits into parts that fit has no other pieces. -/
theorem splitOn_of_elementsBy {gap : Bytes → Prop} (hg : ∀ w, gap w → Ows w) {line : Bytes}
    {parts : List Bytes} (hs : elementsBy split line = .ok parts) (h : ∀ p ∈ parts, Fits gap p) :
    line.splitOn comma = parts := by
  rw [← hc.joins hs]
  exact List.splitOn_intercalate comma (fun p hp => ((h p hp).whole hg).2) (hc.ne_nil hs)

theorem checkElementBy_iff {populated r : Bool} {p : Bytes}
    (hp : ∀ b ∈ p, isHeaderByte b = true) :
    checkElementBy split populated p = .ok r ↔
      Fits Ows p ∧ r = (populated || !Grammar.isBlank p) := by
  unfold checkElementBy Fits
  by_cases hb : Grammar.isBlank p = true
  · have hw := (isBlank_iff hp).mp hb
    simp only [hb, if_true, hw, not_true_eq_false, false_implies, true_and, Bool.not_true,
      Bool.or_false]
    exact ⟨fun h => (Except.ok.inj h).symm, fun h => congrArg Except.ok h.symm⟩
  · have hw : ¬ Ows p := fun h => hb ((isBlank_iff hp).mpr h)
    rw [if_neg hb, bind_eq_ok]
    simp only [hw, not_false_eq_true, true_implies, ← validateElementBy_iff hc hp,
      Bool.not_eq_true] at hb ⊢
    simp only [hb, Bool.not_false, Bool.or_true]
    exact ⟨fun ⟨_, h, hr⟩ => ⟨h, (Except.ok.inj hr).symm⟩, fun ⟨h, hr⟩ => ⟨(), h, hr ▸ rfl⟩⟩

theorem checkElementsBy_iff {parts : List Bytes}
    (hp : ∀ p ∈ parts, ∀ b ∈ p, isHeaderByte b = true) :
    ∀ {populated r : Bool}, parts.foldlM (checkElementBy split) populated = .ok r ↔
      (∀ p ∈ parts, Fits Ows p) ∧ r = (populated || parts.any (!Grammar.isBlank ·)) := by
  induction parts with
  | nil =>
    intro populated r
    simp only [List.foldlM_nil, List.not_mem_nil, false_implies, implies_true, true_and,
      List.any_nil, Bool.or_false]
    exact ⟨fun h => (Except.ok.inj h).symm, fun h => congrArg Except.ok h.symm⟩
  | cons p parts ih =>
    intro populated r
    obtain ⟨hp1, hps⟩ := List.forall_mem_cons.mp hp
    rw [List.foldlM_cons, bind_eq_ok, List.forall_mem_cons, List.any_cons]
    simp only [checkElementBy_iff hc hp1, ih hps]
    constructor
    · rintro ⟨_, ⟨h1, rfl⟩, h2, rfl⟩
      exact ⟨⟨h1, h2⟩, by rw [Bool.or_assoc]⟩
    · rintro ⟨⟨h1, h2⟩, rfl⟩
      exact ⟨_, ⟨h1, rfl⟩, h2, by rw [Bool.or_assoc]⟩

theorem checkLineBy_iff {line : Bytes} (hline : ∀ b ∈ line, isHeaderByte b = true)
    {populated r : Bool} :
    (do (← elementsBy split line).foldlM (checkElementBy split) populated) = .ok r ↔
      (∀ p ∈ line.splitOn comma, Fits Ows p) ∧
        r = (populated || (line.splitOn comma).any (!Grammar.isBlank ·)) := by
  rw [bind_eq_ok]
  constructor
  · intro ⟨parts, hs, h⟩
    have hheader : ∀ p ∈ parts, ∀ b ∈ p, isHeaderByte b = true := by
      intro p hp b hb
      apply hline
      rw [← hc.joins hs]
      cases parts with
      | nil => cases hp
      | cons q qs =>
        rw [intercalate_eq_flatMap, List.mem_append, List.mem_flatMap]
        rcases List.mem_cons.mp hp with rfl | hp
        · exact Or.inl hb
        · exact Or.inr ⟨p, hp, List.mem_cons_of_mem _ hb⟩
    rw [checkElementsBy_iff hc hheader] at h
    rw [splitOn_of_elementsBy hc (fun _ => id) hs h.1]
    exact h
  · intro h
    exact ⟨_, elementsBy_of_fits hc (fun _ => id) h.1,
      (checkElementsBy_iff hc fun p hp => header_of_mem_splitOn hp hline).mpr h⟩

/-! ## The field -/

theorem checkLinesBy_iff {lines : List Bytes}
    (hlines : ∀ line ∈ lines, ∀ b ∈ line, isHeaderByte b = true) :
    ∀ {populated r : Bool},
      lines.foldlM (fun s line => do
          (← elementsBy split line).foldlM (checkElementBy split) s) populated = .ok r ↔
        (∀ p ∈ pieces lines, Fits Ows p) ∧
          r = (populated || (pieces lines).any (!Grammar.isBlank ·)) := by
  unfold pieces
  induction lines with
  | nil =>
    intro populated r
    simp only [List.foldlM_nil, List.flatMap_nil, List.not_mem_nil, false_implies, implies_true,
      true_and, List.any_nil, Bool.or_false]
    exact ⟨fun h => (Except.ok.inj h).symm, fun h => congrArg Except.ok h.symm⟩
  | cons line lines ih =>
    intro populated r
    obtain ⟨hl, hls⟩ := List.forall_mem_cons.mp hlines
    rw [List.foldlM_cons, bind_eq_ok, List.flatMap_cons, List.forall_mem_append, List.any_append]
    simp only [checkLineBy_iff hc hl, ih hls]
    constructor
    · rintro ⟨_, ⟨h1, rfl⟩, h2, rfl⟩
      exact ⟨⟨h1, h2⟩, by rw [Bool.or_assoc]⟩
    · rintro ⟨⟨h1, h2⟩, rfl⟩
      exact ⟨_, ⟨h1, rfl⟩, h2, by rw [Bool.or_assoc]⟩

omit hc in
theorem header_of_mem_pieces {headers : HeaderMap} {p : Bytes}
    (hp : p ∈ pieces (fieldLines headers)) : ∀ b ∈ p, isHeaderByte b = true := by
  obtain ⟨line, hl, hp⟩ := List.mem_flatMap.mp hp
  exact header_of_mem_splitOn hp (header_of_mem_fieldLines hl)

/-- The field passes when there is none, or every piece fits and one is not blank:
a verdict no splitter has a part in. -/
theorem validateBy_iff (headers : HeaderMap) :
    validateBy split headers = .ok () ↔
      fieldLines headers = [] ∨
        (∀ p ∈ pieces (fieldLines headers), Fits Ows p) ∧
          ∃ p ∈ pieces (fieldLines headers), ¬ Ows p := by
  have hblank : (pieces (fieldLines headers)).any (!Grammar.isBlank ·) = true ↔
      ∃ p ∈ pieces (fieldLines headers), ¬ Ows p := by
    rw [List.any_eq_true]
    refine exists_congr fun p => and_congr_right fun hp => ?_
    rw [← isBlank_iff (header_of_mem_pieces hp), Bool.not_eq_true', Bool.not_eq_true]
  have hpresent : (headers.getAll .secWebSocketExtensions).isEmpty =
      (fieldLines headers).isEmpty := by
    rw [fieldLines, List.isEmpty_map]
  rw [validateBy, bind_eq_ok, forElementsBy_lines, hpresent]
  simp only [checkLinesBy_iff hc (fun line hl => header_of_mem_fieldLines hl), Bool.false_or]
  rw [← hblank]
  cases hlines : fieldLines headers with
  | nil =>
    simp [pieces]
    rfl
  | cons line lines =>
    simp only [List.isEmpty_cons, Bool.not_false, Bool.true_and, reduceCtorEq, false_or]
    constructor
    · rintro ⟨r, ⟨h, rfl⟩, hr⟩
      refine ⟨h, ?_⟩
      by_contra hn
      simp only [Bool.not_eq_true] at hn
      rw [hn] at hr
      cases hr
    · rintro ⟨h, hr⟩
      exact ⟨_, ⟨h, rfl⟩, by rw [hr]; rfl⟩

end Splitting

theorem validate_iff (headers : HeaderMap) :
    Grammar.validate headers = .ok () ↔
      fieldLines headers = [] ∨
        (∀ p ∈ pieces (fieldLines headers), Fits Ows p) ∧
          ∃ p ∈ pieces (fieldLines headers), ¬ Ows p :=
  validateBy_iff cuts_split headers

/-- On an accepted field the quote-aware elements are the plain pieces. -/
theorem splits_of_validate {headers : HeaderMap} (h : Grammar.validate headers = .ok ()) :
    Splits (fieldLines headers) (·.splitOn comma) := by
  intro line hl
  rcases (validate_iff headers).mp h with hnil | ⟨hfits, -⟩
  · rw [hnil] at hl
    cases hl
  · refine elementsBy_of_fits cuts_split (fun _ => id) fun p hp => hfits p ?_
    exact List.mem_flatMap.mpr ⟨line, hl, hp⟩

/-! ## The list the lines spell -/

theorem splitOn_join {line : Bytes} {lines : List Bytes} :
    ([comma].intercalate (line :: lines)).splitOn comma = pieces (line :: lines) := by
  unfold pieces
  induction lines generalizing line with
  | nil => simp
  | cons line' lines ih =>
    rw [List.intercalate_cons_cons, List.append_assoc, List.singleton_append,
      List.splitOn_append_cons_self, ih, List.flatMap_cons (x := line)]

/-- Conforming is a condition on the pieces. -/
theorem conforms_iff {gap : Bytes → Prop} (hg : ∀ w, gap w → Ows w) (lines : List Bytes) :
    Conforms gap lines ↔
      lines = [] ∨ (∀ p ∈ pieces lines, Fits gap p) ∧ ∃ p ∈ pieces lines, ¬ Ows p := by
  unfold Conforms
  cases lines with
  | nil => simp
  | cons line lines =>
    simp only [reduceCtorEq, false_or]
    constructor
    · rintro ⟨elements, hj, ⟨e, he, hne⟩, hall⟩
      have hs : pieces (line :: lines) = elements := by
        rw [← splitOn_join, hj]
        refine List.splitOn_intercalate comma (fun p hp => ?_) (List.ne_nil_of_mem he)
        exact (Fits.whole hg (hall p hp)).2
      rw [hs]
      exact ⟨hall, e, he, hne⟩
    · rintro ⟨hall, hne⟩
      refine ⟨pieces (line :: lines), ?_, hne, hall⟩
      rw [← splitOn_join, List.intercalate_splitOn]

/-- Accepting is conforming. -/
theorem validate_iff_conforms (headers : HeaderMap) :
    Grammar.validate headers = .ok () ↔ Conforms Ows (fieldLines headers) :=
  (validate_iff headers).trans (conforms_iff (fun _ => id) _).symm

/-! ## The only error -/

/-- A computation that can fail with the malformed-header error and no other. -/
def OnlyMalformed {α : Type} (x : Except NegotiationError α) : Prop :=
  ∀ e, x = .error e → e = .malformedHeader

theorem OnlyMalformed.ok {α : Type} (a : α) :
    OnlyMalformed (.ok a : Except NegotiationError α) := by
  intro e h
  cases h

theorem OnlyMalformed.malformed {α : Type} :
    OnlyMalformed (.error .malformedHeader : Except NegotiationError α) := by
  intro e h
  exact (Except.error.inj h).symm

theorem OnlyMalformed.bind {α β : Type} {x : Except NegotiationError α}
    {f : α → Except NegotiationError β} (hx : OnlyMalformed x) (hf : ∀ a, OnlyMalformed (f a)) :
    OnlyMalformed (x >>= f) := by
  cases x with
  | error e => exact hx e rfl ▸ OnlyMalformed.malformed
  | ok a => exact hf a

theorem OnlyMalformed.foldlM {α β : Type} {f : β → α → Except NegotiationError β}
    (hf : ∀ b a, OnlyMalformed (f b a)) (l : List α) : ∀ b, OnlyMalformed (l.foldlM f b) := by
  induction l with
  | nil => exact fun b => .ok b
  | cons a l ih => exact fun b => (hf b a).bind ih

theorem OnlyMalformed.forM {α : Type} {f : α → Except NegotiationError Unit}
    (hf : ∀ a, OnlyMalformed (f a)) (l : List α) : OnlyMalformed (l.forM f) := by
  induction l with
  | nil => exact .ok ()
  | cons a l ih => exact (hf a).bind fun _ => ih

theorem split_onlyMalformed (v : Bytes) (d : UInt8) : OnlyMalformed (Grammar.split v d) := by
  unfold Grammar.split
  split
  · exact .malformed
  · exact .ok _

theorem validateToken_onlyMalformed (v : Bytes) : OnlyMalformed (Grammar.validateToken v) := by
  unfold Grammar.validateToken
  split
  · exact .malformed
  · exact .ok ()

theorem unquoteLoop_onlyMalformed (rest output : Bytes) :
    OnlyMalformed (Grammar.unquoteLoop rest output) := by
  fun_induction Grammar.unquoteLoop rest output <;>
    first | exact .malformed | exact .ok _ | assumption

theorem unquote_onlyMalformed (v : Bytes) : OnlyMalformed (Grammar.unquote v) := by
  unfold Grammar.unquote
  split
  · exact .ok _
  · split
    · exact unquoteLoop_onlyMalformed _ _
    · split
      · exact .malformed
      · exact .ok _

theorem validateParameter_onlyMalformed (p : Bytes) :
    OnlyMalformed (Grammar.validateParameter p) := by
  unfold Grammar.validateParameter
  refine (validateToken_onlyMalformed _).bind fun _ => ?_
  split
  · exact .ok ()
  · exact (unquote_onlyMalformed _).bind validateToken_onlyMalformed

section Splitting

variable {split : Splitter} (hs : ∀ v d, OnlyMalformed (split v d))
include hs

theorem validateElementBy_onlyMalformed (e : Bytes) :
    OnlyMalformed (validateElementBy split e) := by
  refine (hs e _).bind fun parts => ?_
  split
  · exact .malformed
  · exact (validateToken_onlyMalformed _).bind fun _ =>
      .forM validateParameter_onlyMalformed _

theorem checkElementBy_onlyMalformed (populated : Bool) (p : Bytes) :
    OnlyMalformed (checkElementBy split populated p) := by
  unfold checkElementBy
  split
  · exact .ok _
  · exact (validateElementBy_onlyMalformed hs p).bind fun _ => .ok true

theorem validateBy_onlyMalformed (headers : HeaderMap) :
    OnlyMalformed (validateBy split headers) := by
  have hwalk : OnlyMalformed (forElementsBy split headers false (checkElementBy split)) := by
    rw [forElementsBy_lines]
    exact .foldlM (fun s line => (hs line comma).bind
      fun parts => .foldlM (checkElementBy_onlyMalformed hs) parts s) _ _
  refine hwalk.bind fun populated => ?_
  split
  · exact .malformed
  · exact .ok ()

end Splitting

theorem validate_onlyMalformed (headers : HeaderMap) : OnlyMalformed (Grammar.validate headers) :=
  validateBy_onlyMalformed split_onlyMalformed headers

/-- **The verdict.** `validate` accepts a field exactly when its lines are one
list of the grammar, with optional whitespace on either side of an extension
token; any other field is malformed. -/
theorem validate_accepts_grammar (headers : HeaderMap) :
    (Grammar.validate headers = .ok () ↔ Conforms Ows (fieldLines headers)) ∧
      (¬ Conforms Ows (fieldLines headers) →
        Grammar.validate headers = .error .malformedHeader) := by
  refine ⟨validate_iff_conforms headers, fun hn => ?_⟩
  cases hv : Grammar.validate headers with
  | ok u => exact absurd ((validate_iff_conforms headers).mp hv) hn
  | error e => rw [validate_onlyMalformed headers e hv]

/-- A line with a space between the extension token and its first semicolon. -/
def spaced : HeaderMap := .ofLines [.fromStatic "x ;a" rfl]

/-- The grammar that leaves no room behind the extension token is not the one
the validator accepts. -/
theorem validate_accepts_gap :
    ¬ (Grammar.validate spaced = .ok () ↔ Conforms (· = []) (fieldLines spaced)) := by
  intro h
  have hok : Grammar.validate spaced = .ok () := by decide
  have hgap : ∀ w : Bytes, w = [] → Ows w := fun w hw => hw ▸ ows_nil
  rcases (conforms_iff hgap _).mp (h.mp hok) with hnil | ⟨hfits, -⟩
  · exact absurd hnil (by decide)
  · have hmem : ascii "x ;a" ∈ pieces (fieldLines spaced) := by decide
    obtain ⟨before, name, after, parameters, hb, hn, rfl, hp, he⟩ :=
      hfits _ hmem (by unfold Ows; decide)
    have hs := segments_extension hb hn ows_nil hp
    rw [← he] at hs
    have hparts : Grammar.segments (ascii "x ;a") = .ok [ascii "x ", ascii "a"] := by decide
    rw [hparts] at hs
    obtain ⟨hhead, -⟩ := List.cons.inj (Except.ok.inj hs)
    have hlast : (32 : UInt8) ∈ name := by
      have hl := congrArg List.getLast? hhead
      rw [List.append_nil, List.getLast?_append_of_ne_nil _ hn.1] at hl
      exact List.mem_of_getLast? hl.symm
    exact absurd (hn.2 _ hlast) (by decide)

end WsPmd.Field
