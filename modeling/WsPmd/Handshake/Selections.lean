import WsPmd.Field.Validate
import WsPmd.Library.Traversal
import WsPmd.Server

/-!
# The elements that name the extension

Five readers walk the field: two look for the extension, two count it and one
parses it. Each of them passes over the elements that do not name it, so each is
a function of one list, the elements that do, in field order. Which list that is
depends only on how the lines are cut; an accepted field is cut at every comma.
-/

namespace WsPmd.Handshake

open WsPmd.Library
open Grammar (Bytes Params doubleQuote comma semicolon marks)
open WsPmd.Field (bind_eq_ok)

/-! ## Naming the extension -/

/-- The bytes in front of the first semicolon trim to the extension's name. -/
def named (element : Bytes) : Bool :=
  Grammar.trim (element.takeWhile (· ≠ semicolon)) = Grammar.name

theorem mem_of_mem_trim {b : UInt8} {v : Bytes} (h : b ∈ Grammar.trim v) : b ∈ v :=
  (List.dropWhile_sublist _).subset ((List.rdropWhile_prefix _ _).subset h)

/-- Trimming drops whitespace and nothing else. -/
theorem mem_trim {b : UInt8} {v : Bytes} (h : b ∈ v)
    (hb : Grammar.isAsciiWhitespace b = false) : b ∈ Grammar.trim v := by
  have hnot {l : Bytes} (hl : ∀ a ∈ l, Grammar.isAsciiWhitespace a = true) : b ∉ l := by
    intro hm
    rw [hl b hm] at hb
    cases hb
  have hd : b ∈ v.dropWhile Grammar.isAsciiWhitespace := by
    rw [← List.takeWhile_append_dropWhile (p := Grammar.isAsciiWhitespace) (l := v),
      List.mem_append] at h
    exact h.resolve_left (hnot fun a ha => List.mem_takeWhile_imp ha)
  rw [← List.rdropWhile_append_rtakeWhile (p := Grammar.isAsciiWhitespace)
    (l := v.dropWhile Grammar.isAsciiWhitespace), List.mem_append] at hd
  exact hd.resolve_right (hnot fun a ha => List.mem_rtakeWhile_imp ha)

theorem trim_ne_name {v : Bytes} (h : doubleQuote ∈ v) : Grammar.trim v ≠ Grammar.name := by
  intro he
  have hm := mem_trim h (by decide)
  rw [he] at hm
  exact absurd hm (by decide)

/-- What stands in front of the first bare semicolon names the extension when
what stands in front of the first semicolon does: the name holds no quote. -/
theorem named_eq {first tail : Bytes} (hw : Quoted.Whole marks semicolon first)
    (ht : tail = [] ∨ ∃ rest, tail = semicolon :: rest) :
    named (first ++ tail) = decide (Grammar.trim first = Grammar.name) := by
  have hne : (semicolon : UInt8) ≠ marks.quote := by decide
  have htail : tail.takeWhile (· ≠ semicolon) = [] := by
    rcases ht with rfl | ⟨rest, rfl⟩ <;> simp
  have hcut {before after : Bytes} (h : first = before ++ after) (hq : doubleQuote ∉ before) :
      ∀ b ∈ before, decide (b ≠ semicolon) = true := by
    intro b hb
    subst h
    have hd := (hw.plain_before hq).resolve_left hne
    exact decide_eq_true fun he => hd (he ▸ hb)
  unfold named
  by_cases hq : doubleQuote ∈ first
  · obtain ⟨before, after, he, hn⟩ := List.eq_append_cons_of_mem hq
    have hm : doubleQuote ∈ (first ++ tail).takeWhile (· ≠ semicolon) := by
      rw [he, List.append_assoc, List.takeWhile_append_of_pos (hcut he hn), List.mem_append]
      refine Or.inr ?_
      rw [List.cons_append, List.takeWhile_cons_of_pos (by decide)]
      exact List.mem_cons_self
    rw [decide_eq_false (trim_ne_name hm), decide_eq_false (trim_ne_name hq)]
  · rw [List.takeWhile_append_of_pos (hcut (List.append_nil first).symm hq), htail,
      List.append_nil]

/-- On a balanced element the question always has an answer. -/
theorem isDeflate_eq {e : Bytes} (h : Quoted.Balanced marks e) :
    Grammar.isDeflate e = .ok (named e) := by
  have hsemicolon : semicolon ≠ marks.quote := by decide
  obtain ⟨parts, hs⟩ := (Quoted.split_isSome_iff hsemicolon).mpr h
  obtain ⟨first, rest, rfl, hw, he⟩ := Quoted.split_head hs
  have hn : named e = decide (Grammar.trim first = Grammar.name) := by
    rcases he with rfl | ⟨tail, rfl⟩
    · have hwhole := named_eq hw (Or.inl rfl)
      rwa [List.append_nil] at hwhole
    · exact named_eq hw (Or.inr ⟨tail, rfl⟩)
  rw [hn, Grammar.isDeflate, Grammar.segments, Field.split_eq_ok.mpr hs]
  rfl

theorem isBlank_of_named {e : Bytes} (h : named e = true) : Grammar.isBlank e = false := by
  have hm : (112 : UInt8) ∈ Grammar.trim (e.takeWhile (· ≠ semicolon)) := by
    rw [of_decide_eq_true h]
    decide
  have hmem : (112 : UInt8) ∈ Grammar.trim e :=
    mem_trim (List.takeWhile_subset _ (mem_of_mem_trim hm)) (by decide)
  exact List.isEmpty_eq_false_iff.mpr (List.ne_nil_of_mem hmem)

/-! ## Walking a field whose lines split -/

/-- The elements naming the extension, when `parts` are the elements of a line. -/
def selectionsIn (parts : Bytes → List Bytes) (headers : HeaderMap) : List Bytes :=
  ((Field.fieldLines headers).flatMap parts).filter named

section Splitting

variable {headers : HeaderMap} {parts : Bytes → List Bytes}
  (hs : Field.Splits (Field.fieldLines headers) parts)
include hs

theorem balanced_of_splits {e : Bytes} (he : e ∈ (Field.fieldLines headers).flatMap parts) :
    Quoted.Balanced marks e := by
  obtain ⟨line, hl, he⟩ := List.mem_flatMap.mp he
  exact (Quoted.whole_of_mem_split (Field.split_eq_ok.mp (hs line hl)) he).balanced

theorem forElements_selections {S : Type} {visit f : S → Bytes → Except NegotiationError S}
    (h : ∀ s e, Grammar.isDeflate e = .ok (named e) →
      visit s e = if named e then f s e else .ok s) (init : S) :
    Grammar.forElements headers init visit = (selectionsIn parts headers).foldlM f init := by
  rw [Field.forElements_eq hs]
  exact Traversal.foldlM_selected
    (fun s e he => h s e (isDeflate_eq (balanced_of_splits hs he))) init

theorem findElement_selections {A : Type}
    {visit f : Bytes → Except NegotiationError (Option A)}
    (h : ∀ e, Grammar.isDeflate e = .ok (named e) →
      visit e = if named e then f e else .ok none) :
    Grammar.findElement headers visit = (selectionsIn parts headers).findSomeM? f := by
  rw [Field.findElement_eq hs]
  exact Traversal.findSomeM_selected fun e he => h e (isDeflate_eq (balanced_of_splits hs he))

/-- A request carries an offer when an element names the extension. -/
theorem containsDeflate_eq :
    containsDeflate headers = .ok (!(selectionsIn parts headers).isEmpty) := by
  have hfind : Grammar.findElement headers (fun element => do
      if ← Grammar.isDeflate element then pure (some ()) else pure none) =
      .ok ((selectionsIn parts headers).findSome? fun _ => some ()) := by
    rw [findElement_selections hs (f := fun _ => .ok (some ())) (fun e he => by rw [he]; rfl)]
    exact Traversal.findSomeM_total fun _ _ => rfl
  rw [containsDeflate, hfind]
  cases selectionsIn parts headers <;> rfl

/-- What a count does at one element that names the extension. -/
def countOne (expected : Bytes) (altered : NegotiationError) (found : ℕ) (e : Bytes) :
    Except NegotiationError ℕ :=
  if Grammar.trim e = expected then .ok (found + 1) else .error altered

omit hs in
theorem foldlM_countOne (expected : Bytes) (altered : NegotiationError) (l : List Bytes) :
    ∀ n, l.foldlM (countOne expected altered) n =
      if ∀ e ∈ l, Grammar.trim e = expected then .ok (n + l.length) else .error altered := by
  induction l with
  | nil => exact fun n => rfl
  | cons e l ih =>
    intro n
    rw [List.foldlM_cons, List.length_cons]
    by_cases he : Grammar.trim e = expected
    · simp only [countOne, he, if_true, List.forall_mem_cons, true_and]
      show l.foldlM (countOne expected altered) (n + 1) = _
      rw [ih, Nat.add_right_comm, Nat.add_assoc]
    · simp only [countOne, he, if_false, List.forall_mem_cons, false_and]
      rfl

/-- A count succeeds when every element that names the extension is the expected one. -/
theorem countExact_eq (expected : Bytes) (altered : NegotiationError) :
    countExact headers expected altered =
      if ∀ e ∈ selectionsIn parts headers, Grammar.trim e = expected then
        .ok (selectionsIn parts headers).length
      else .error altered := by
  rw [countExact, forElements_selections hs (f := countOne expected altered), foldlM_countOne,
    Nat.zero_add]
  intro s e he
  rw [he]
  cases hn : named e
  · rfl
  · rfl

/-- What a client does at one selection: it is parsed before it is known to be
the only one. -/
def takeOne (selected : Option Params) (e : Bytes) : Except NegotiationError (Option Params) := do
  let params ← Grammar.parseParams e
  if selected.isSome then .error .duplicateExtension else pure (some params)

theorem soleDeflate_eq :
    soleDeflate headers =
      match selectionsIn parts headers with
      | [] => .ok none
      | [e] => (Grammar.parseParams e).map some
      | e :: e' :: _ => Grammar.parseParams e >>= fun _ => Grammar.parseParams e' >>= fun _ =>
        .error .duplicateExtension := by
  rw [soleDeflate, forElements_selections hs (f := takeOne)]
  · cases selectionsIn parts headers with
    | nil => rfl
    | cons e rest =>
      rw [List.foldlM_cons, takeOne]
      cases hp : Grammar.parseParams e with
      | error err => cases rest <;> simp only [hp] <;> rfl
      | ok p =>
        cases rest with
        | nil => simp only [hp]; rfl
        | cons e' rest =>
          simp only [hp]
          show (e' :: rest).foldlM takeOne (some p) = _
          rw [List.foldlM_cons, takeOne]
          cases Grammar.parseParams e' <;> rfl
  · intro s e he
    rw [he]
    cases hn : named e
    · cases Grammar.isBlank e <;> rfl
    · rw [isBlank_of_named hn]
      rfl

end Splitting

/-! ## An accepted field -/

/-- The elements of an accepted field. -/
def fieldElements (headers : HeaderMap) : List Bytes := Field.pieces (Field.fieldLines headers)

/-- The elements of an accepted field that name the extension, in field order. -/
def selections (headers : HeaderMap) : List Bytes := (fieldElements headers).filter named

theorem header_of_mem_fieldElements {headers : HeaderMap} {p : Bytes}
    (hp : p ∈ fieldElements headers) : ∀ b ∈ p, isHeaderByte b = true :=
  Field.header_of_mem_pieces hp

/-- An accepted field is cut at every comma. -/
theorem selectionsIn_pieces (headers : HeaderMap) :
    selectionsIn (·.splitOn comma) headers = selections headers := rfl

theorem isDeflate_of_mem_fieldElements {headers : HeaderMap}
    (hv : Grammar.validate headers = .ok ()) {e : Bytes} (he : e ∈ fieldElements headers) :
    Grammar.isDeflate e = .ok (named e) :=
  isDeflate_eq (balanced_of_splits (Field.splits_of_validate hv) he)

/-- The server's choice: the first alternative that parses and is not declined. -/
theorem accept_eq {headers : HeaderMap} (hv : Grammar.validate headers = .ok ())
    (config : ServerConfig) :
    ServerHandshake.accept config headers =
      .ok ((selections headers).findSome? fun e =>
        (Grammar.parseParams e).toOption.bind (select config)) := by
  rw [ServerHandshake.accept, hv]
  show Grammar.findElement headers _ = _
  rw [findElement_selections (Field.splits_of_validate hv)
    (f := fun e => .ok ((Grammar.parseParams e).toOption.bind (select config)))]
  · exact Traversal.findSomeM_total fun _ _ => rfl
  · intro e he
    rw [he]
    cases hn : named e
    · cases Grammar.isBlank e <;> rfl
    · rw [isBlank_of_named hn]
      cases Grammar.parseParams e <;> rfl

end WsPmd.Handshake
