import WsPmd.Field.Splitter
import WsPmd.Field.Syntax

/-!
# The validator accepts exactly the grammar

`validate` cuts lines at commas and elements at semicolons with a quote-aware
splitter, cuts parameters at their first `=`, trims, unquotes and checks tokens.
Each of these passes is characterised once, from the value up: unquoting, one
parameter, one element, and then the whole field. Accepted pieces hold no comma
at all, so on an accepted field the quote-aware elements are the plain ones.
-/

namespace WsPmd.Field

open WsPmd.Library
open Grammar (Bytes doubleQuote backslash comma semicolon equals marks)

/-- A Rust `?` succeeds when both halves do. -/
theorem bind_eq_ok {ε α β : Type} {x : Except ε α} {f : α → Except ε β} {b : β} :
    x >>= f = .ok b ↔ ∃ a, x = .ok a ∧ f a = .ok b := by
  cases x with
  | error e => exact ⟨fun h => (by cases h), fun ⟨a, h, _⟩ => (by cases h)⟩
  | ok a => exact ⟨fun h => ⟨a, rfl, h⟩, fun ⟨a', h, h'⟩ => by cases h; exact h'⟩

/-! ## Values -/

theorem validateToken_iff {v : Bytes} : Grammar.validateToken v = .ok () ↔ Token v := by
  have hall : v.all Grammar.isTchar = true ↔ ∀ b ∈ v, TokenByte b := by
    simp only [List.all_eq_true, isTchar_iff]
  unfold Grammar.validateToken Token
  cases v with
  | nil => simp
  | cons b v =>
    rw [← hall]
    cases (b :: v).all Grammar.isTchar <;> simp

/-- The inside of a quoted string, closing quote included, beside its content. -/
def Closed (rest content : Bytes) : Prop :=
  ∃ raw, rest = raw ++ [doubleQuote] ∧ QuotedText raw content

theorem not_closed_nil {content : Bytes} : ¬ Closed [] content := by
  intro ⟨raw, h, _⟩
  simp at h

theorem closed_quote {rest content : Bytes} :
    Closed (doubleQuote :: rest) content ↔ rest = [] ∧ content = [] := by
  constructor
  · intro ⟨raw, h, hq⟩
    cases hq with
    | nil => exact ⟨(List.cons.inj h).2, rfl⟩
    | plain hd _ _ => exact absurd (List.cons.inj h).1.symm hd
    | pair b _ => exact absurd (List.cons.inj h).1 (by decide)
  · rintro ⟨rfl, rfl⟩
    exact ⟨[], rfl, .nil⟩

theorem closed_escape {rest content : Bytes} :
    Closed (backslash :: rest) content ↔
      ∃ b rest' content', rest = b :: rest' ∧ content = b :: content' ∧ Closed rest' content' := by
  constructor
  · intro ⟨raw, h, hq⟩
    cases hq with
    | nil => exact absurd (List.cons.inj h).1 (by decide)
    | plain _ hb _ => exact absurd (List.cons.inj h).1.symm hb
    | @pair b raw content hq =>
      exact ⟨b, raw ++ [doubleQuote], content, (List.cons.inj h).2, rfl, raw, rfl, hq⟩
  · rintro ⟨b, rest', content', rfl, rfl, raw, rfl, hq⟩
    exact ⟨backslash :: b :: raw, rfl, .pair b hq⟩

theorem closed_plain {b : UInt8} {rest content : Bytes} (hq : b ≠ doubleQuote)
    (hb : b ≠ backslash) :
    Closed (b :: rest) content ↔ ∃ content', content = b :: content' ∧ Closed rest content' := by
  constructor
  · intro ⟨raw, h, hr⟩
    cases hr with
    | nil => exact absurd (List.cons.inj h).1 hq
    | @plain b' raw content _ _ hr =>
      obtain ⟨rfl, ht⟩ := List.cons.inj h
      exact ⟨content, rfl, raw, ht, hr⟩
    | pair b _ => exact absurd (List.cons.inj h).1 hb
  · rintro ⟨content', rfl, raw, rfl, hr⟩
    exact ⟨b :: raw, rfl, .plain hq hb hr⟩

theorem unquoteLoop_iff {rest output content : Bytes} :
    Grammar.unquoteLoop rest output = .ok content ↔
      ∃ inner, Closed rest inner ∧ content = output ++ inner := by
  induction rest, output using Grammar.unquoteLoop.induct with
  | case1 output => simp [Grammar.unquoteLoop, not_closed_nil]
  | case2 output => simp [Grammar.unquoteLoop, closed_escape]
  | case3 output next rest ih =>
    rw [Grammar.unquoteLoop.eq_3, if_pos rfl, ih]
    constructor
    · rintro ⟨inner, hc, rfl⟩
      exact ⟨next :: inner, closed_escape.mpr ⟨next, rest, inner, rfl, rfl, hc⟩, by simp⟩
    · rintro ⟨inner, hc, rfl⟩
      obtain ⟨b, rest', inner', he, rfl, hc⟩ := closed_escape.mp hc
      obtain ⟨rfl, rfl⟩ := List.cons.inj he
      exact ⟨inner', hc, by simp⟩
  | case4 rest output hr hb =>
    obtain rfl : rest = [] := List.isEmpty_iff.mp hr
    rw [Grammar.unquoteLoop.eq_2, if_neg hb, if_pos rfl, if_pos hr]
    simp [closed_quote, eq_comm]
  | case5 rest output hr hb =>
    have hne : rest ≠ [] := fun h => hr (List.isEmpty_iff.mpr h)
    rw [Grammar.unquoteLoop.eq_def]
    simp [hb, hr, closed_quote, hne]
  | case6 byte rest output hb hq ih =>
    rw [Grammar.unquoteLoop.eq_def]
    simp only [hb, hq, ↓reduceIte, ih, closed_plain hq hb]
    constructor
    · rintro ⟨inner, hc, rfl⟩
      exact ⟨byte :: inner, ⟨inner, rfl, hc⟩, by simp⟩
    · rintro ⟨inner, ⟨inner', rfl, hc⟩, rfl⟩
      exact ⟨inner', hc, by simp⟩

theorem unquote_iff {v content : Bytes} :
    Grammar.unquote v = .ok content ↔
      (doubleQuote ∉ v ∧ content = v) ∨ ∃ raw, v = quotedString raw ∧ QuotedText raw content := by
  cases v with
  | nil =>
    rw [Grammar.unquote]
    simp only [List.not_mem_nil, not_false_eq_true, true_and, quotedString,
      List.nil_eq, reduceCtorEq, false_and, exists_false, or_false]
    exact ⟨fun h => (Except.ok.inj h).symm, fun h => congrArg Except.ok h.symm⟩
  | cons b v =>
    by_cases hb : b = doubleQuote
    · subst hb
      rw [Grammar.unquote, if_pos rfl, unquoteLoop_iff]
      simp [quotedString, Closed]
    · have hhead (raw : Bytes) : b :: v ≠ quotedString raw := fun h => hb (List.cons.inj h).1
      rw [Grammar.unquote, if_neg hb, List.contains_eq_mem]
      simp only [hhead, false_and, exists_false, or_false]
      by_cases hc : doubleQuote ∈ b :: v
      · simp [hc]
      · rw [if_neg (by simpa using hc)]
        exact ⟨fun h => ⟨hc, (Except.ok.inj h).symm⟩, fun h => congrArg Except.ok h.2.symm⟩

/-- A value passes when its trimmed bytes are a grammar value. -/
theorem unquote_token_iff {v : Bytes} :
    (Grammar.unquote v >>= Grammar.validateToken) = .ok () ↔ Value v := by
  rw [bind_eq_ok]
  constructor
  · intro ⟨content, hu, ht⟩
    have ht := validateToken_iff.mp ht
    rcases unquote_iff.mp hu with ⟨-, rfl⟩ | ⟨raw, rfl, hq⟩
    · exact Or.inl ht
    · exact Or.inr ⟨raw, content, rfl, hq, ht⟩
  · rintro (ht | ⟨raw, content, rfl, hq, ht⟩)
    · exact ⟨v, unquote_iff.mpr (Or.inl ⟨ht.not_mem not_tokenByte_doubleQuote, rfl⟩),
        validateToken_iff.mpr ht⟩
    · exact ⟨content, unquote_iff.mpr (Or.inr ⟨raw, rfl, hq⟩), validateToken_iff.mpr ht⟩

/-- What a quoted string of a token is written with. -/
theorem QuotedText.bytes {raw content : Bytes} (h : QuotedText raw content)
    (ht : ∀ b ∈ content, TokenByte b) : ∀ b ∈ raw, b = backslash ∨ TokenByte b := by
  induction h with
  | nil => simp
  | plain _ _ _ ih =>
    obtain ⟨h1, h2⟩ := List.forall_mem_cons.mp ht
    exact List.forall_mem_cons.mpr ⟨Or.inr h1, ih h2⟩
  | pair b _ ih =>
    obtain ⟨h1, h2⟩ := List.forall_mem_cons.mp ht
    exact List.forall_mem_cons.mpr ⟨Or.inl rfl, List.forall_mem_cons.mpr ⟨Or.inr h1, ih h2⟩⟩

theorem Value.not_mem {v : Bytes} (h : Value v) {b : UInt8} (hb : ¬ TokenByte b)
    (hq : b ≠ doubleQuote) (hs : b ≠ backslash) : b ∉ v := by
  rcases h with h | ⟨raw, content, rfl, hr, ht⟩
  · exact h.not_mem hb
  · intro hm
    simp only [quotedString, List.mem_cons, List.mem_append, List.not_mem_nil, or_false] at hm
    rcases hm with hm | hm | hm
    · exact hq hm
    · rcases hr.bytes ht.2 b hm with hm | hm
      · exact hs hm
      · exact hb hm
    · exact hq hm

theorem Value.trim_pad {v w w' : Bytes} (h : Value v) (hw : Ows w) (hw' : Ows w') :
    Grammar.trim (w ++ v ++ w') = v := by
  rcases h with h | ⟨raw, content, rfl, hr, ht⟩
  · exact trim_token hw hw' h
  · exact Field.trim_pad hw hw' (by simp [quotedString]) (by rfl) (by simp [quotedString]; rfl)

/-! ## Balance -/

theorem walk_quoted {raw content : Bytes} (h : QuotedText raw content) (d : UInt8) :
    Quoted.walk marks d (true, false) raw = some (true, false) := by
  induction h with
  | nil => rfl
  | @plain b raw content hq hb _ ih =>
    have hg : Quoted.glance marks d (true, false) b = some (true, false) := by
      simp [Quoted.glance, marks, hb, hq]
    rw [Quoted.walk_cons, hg, Option.bind_some, ih]
  | @pair b raw content _ ih =>
    have hg : Quoted.glance marks d (true, false) backslash = some (true, true) := rfl
    rw [Quoted.walk_cons, hg, Option.bind_some, Quoted.walk_cons]
    exact ih

theorem whole_quotedString {raw content : Bytes} (h : QuotedText raw content) (d : UInt8) :
    Quoted.Whole marks d (quotedString raw) := by
  have hopen : Quoted.glance marks d (false, false) doubleQuote = some (true, false) := rfl
  unfold Quoted.Whole quotedString
  rw [Quoted.walk_cons, hopen, Option.bind_some, Quoted.walk_append, walk_quoted h]
  rfl

theorem Value.whole {v : Bytes} (h : Value v) {d : UInt8} (hd : ¬ TokenByte d) :
    Quoted.Whole marks d v := by
  rcases h with h | ⟨raw, content, rfl, hr, -⟩
  · exact Quoted.whole_plain (h.not_mem not_tokenByte_doubleQuote) (h.not_mem hd)
  · exact whole_quotedString hr d

/-- The delimiters of the two splits: no token holds one, no whitespace is one. -/
structure Delimiter (d : UInt8) : Prop where
  not_token : ¬ TokenByte d
  ne_space : d ≠ 32
  ne_tab : d ≠ 9
  ne_equals : d ≠ equals
  ne_quote : d ≠ doubleQuote
  ne_backslash : d ≠ backslash

theorem delimiter_comma : Delimiter comma := by constructor <;> decide
theorem delimiter_semicolon : Delimiter semicolon := by constructor <;> decide

theorem Ows.whole {w : Bytes} (h : Ows w) {d : UInt8} (hd : Delimiter d) :
    Quoted.Whole marks d w :=
  Quoted.whole_plain (h.not_mem (by decide) (by decide)) (h.not_mem hd.ne_space hd.ne_tab)

theorem Token.whole {t : Bytes} (h : Token t) {d : UInt8} (hd : Delimiter d) :
    Quoted.Whole marks d t :=
  Value.whole (Or.inl h) hd.not_token

theorem Parameter.whole {p : Bytes} (h : Parameter p) {d : UInt8} (hd : Delimiter d) :
    Quoted.Whole marks d p ∧ d ∉ p := by
  obtain ⟨before, name, after, hb, hn, ha, h⟩ := h
  have hw : Quoted.Whole marks d (before ++ name ++ after) :=
    ((hb.whole hd).append (hn.whole hd)).append (ha.whole hd)
  have hm : d ∉ before ++ name ++ after := by
    simp only [List.mem_append, not_or]
    exact ⟨⟨hb.not_mem hd.ne_space hd.ne_tab, hn.not_mem hd.not_token⟩,
      ha.not_mem hd.ne_space hd.ne_tab⟩
  rcases h with rfl | ⟨lead, value, trail, hl, hv, ht, rfl⟩
  · exact ⟨hw, hm⟩
  · have he : Quoted.Whole marks d [equals] :=
      Quoted.whole_plain (by decide) (by simpa using hd.ne_equals)
    have hv' : Quoted.Whole marks d (lead ++ value ++ trail) :=
      ((hl.whole hd).append (hv.whole hd.not_token)).append (ht.whole hd)
    refine ⟨hw.append (he.append hv'), ?_⟩
    simp only [List.mem_append, List.mem_cons, not_or] at hm ⊢
    exact ⟨hm, hd.ne_equals, ⟨hl.not_mem hd.ne_space hd.ne_tab,
      hv.not_mem hd.not_token hd.ne_quote hd.ne_backslash⟩, ht.not_mem hd.ne_space hd.ne_tab⟩

/-! ## Parameters -/

theorem splitParameter_none {segment : Bytes} (h : equals ∉ segment) :
    Grammar.splitParameter segment = (segment, none) := by
  have hf : segment.findIdx? (· = equals) = none := by
    simp only [List.findIdx?_eq_none_iff, decide_eq_false_iff_not]
    exact fun b hb he => h (he ▸ hb)
  simp only [Grammar.splitParameter, hf]

theorem splitParameter_some {name value : Bytes} (h : equals ∉ name) :
    Grammar.splitParameter (name ++ equals :: value) = (name, some value) := by
  have hf : (name ++ equals :: value).findIdx? (· = equals) = some name.length := by
    rw [List.findIdx?_append, List.findIdx?_eq_none_iff.mpr]
    · simp [List.findIdx?_cons]
    · simp only [decide_eq_false_iff_not]
      exact fun b hb he => h (he ▸ hb)
  simp only [Grammar.splitParameter, hf]
  simp

theorem splitParameter_cases (segment : Bytes) :
    (equals ∉ segment ∧ Grammar.splitParameter segment = (segment, none)) ∨
      ∃ name value, segment = name ++ equals :: value ∧
        Grammar.splitParameter segment = (name, some value) := by
  by_cases h : equals ∈ segment
  · obtain ⟨name, value, rfl, hn⟩ := List.eq_append_cons_of_mem h
    exact Or.inr ⟨name, value, rfl, splitParameter_some hn⟩
  · exact Or.inl ⟨h, splitParameter_none h⟩

theorem validateParameter_iff {p : Bytes} (hp : ∀ b ∈ p, isHeaderByte b = true) :
    Grammar.validateParameter p = .ok () ↔ Parameter p := by
  constructor
  · intro h
    rcases splitParameter_cases p with ⟨-, hs⟩ | ⟨name, value, rfl, hs⟩
    · simp only [Grammar.validateParameter, hs] at h
      obtain ⟨_, ht, -⟩ := bind_eq_ok.mp h
      obtain ⟨w, w', hw, hw', he⟩ := trim_split hp
      exact ⟨w, Grammar.trim p, w', hw, validateToken_iff.mp ht, hw', Or.inl he⟩
    · simp only [Grammar.validateParameter, hs] at h
      obtain ⟨_, ht, hv⟩ := bind_eq_ok.mp h
      obtain ⟨hpn, hpv⟩ := List.forall_mem_append.mp hp
      obtain ⟨w, w', hw, hw', he⟩ := trim_split hpn
      obtain ⟨l, l', hl, hl', he'⟩ := trim_split (List.forall_mem_cons.mp hpv).2
      exact ⟨w, _, w', hw, validateToken_iff.mp ht, hw',
        Or.inr ⟨l, _, l', hl, unquote_token_iff.mp hv, hl', by rw [← he, ← he']⟩⟩
  · intro ⟨before, name, after, hb, hn, ha, h⟩
    have hne : equals ∉ before ++ name ++ after := by
      simp only [List.mem_append, not_or]
      exact ⟨⟨hb.not_mem (by decide) (by decide), hn.not_mem not_tokenByte_equals⟩,
        ha.not_mem (by decide) (by decide)⟩
    rcases h with rfl | ⟨lead, value, trail, hl, hv, ht, rfl⟩
    · simp only [Grammar.validateParameter, splitParameter_none hne, trim_token hb ha hn]
      exact bind_eq_ok.mpr ⟨(), validateToken_iff.mpr hn, rfl⟩
    · simp only [Grammar.validateParameter, splitParameter_some hne, trim_token hb ha hn,
        hv.trim_pad hl ht]
      exact bind_eq_ok.mpr ⟨(), validateToken_iff.mpr hn, unquote_token_iff.mpr hv⟩

/-! ## Elements -/

theorem split_eq_ok {v : Bytes} {d : UInt8} {parts : List Bytes} :
    Grammar.split v d = .ok parts ↔ Quoted.split marks d v = some parts := by
  unfold Grammar.split
  cases Quoted.split marks d v <;> simp

theorem forM_eq_ok {α : Type} {f : α → Except NegotiationError Unit} {l : List α} :
    l.forM f = .ok () ↔ ∀ a ∈ l, f a = .ok () := by
  induction l with
  | nil => simp [pure, Except.pure]
  | cons a l ih =>
    have hstep : (a :: l).forM f = (do f a; l.forM f) := rfl
    rw [hstep, bind_eq_ok, List.forall_mem_cons, ← ih]
    exact ⟨fun ⟨_, h⟩ => h, fun h => ⟨(), h⟩⟩

theorem intercalate_eq_flatMap (d : UInt8) (p : Bytes) (ps : List Bytes) :
    [d].intercalate (p :: ps) = p ++ ps.flatMap (d :: ·) := by
  induction ps generalizing p with
  | nil => simp
  | cons q ps ih => rw [List.intercalate_cons_cons, ih]; simp

theorem Extension.whole_comma {gap : Bytes → Prop} (hg : ∀ w, gap w → Ows w) {e : Bytes}
    (h : Extension gap e) : Quoted.Whole marks comma e ∧ comma ∉ e := by
  obtain ⟨before, name, after, parameters, hb, hn, ha, hp, rfl⟩ := h
  have ha := hg after ha
  have hd := delimiter_comma
  have hps : Quoted.Whole marks comma (parameters.flatMap (semicolon :: ·)) ∧
      comma ∉ parameters.flatMap (semicolon :: ·) := by
    induction parameters with
    | nil => exact ⟨rfl, by simp⟩
    | cons p parameters ih =>
      obtain ⟨hp, hps⟩ := List.forall_mem_cons.mp hp
      obtain ⟨hw, hm⟩ := hp.whole hd
      obtain ⟨hws, hms⟩ := ih hps
      rw [List.flatMap_cons]
      refine ⟨Quoted.Whole.append ?_ hws, ?_⟩
      · have hs : Quoted.Whole marks comma [semicolon] := rfl
        exact hs.append hw
      · simp only [List.cons_append, List.mem_cons, List.mem_append, not_or]
        exact ⟨by decide, hm, hms⟩
  refine ⟨(((hb.whole hd).append (hn.whole hd)).append (ha.whole hd)).append hps.1, ?_⟩
  simp only [List.mem_append, not_or]
  exact ⟨⟨⟨hb.not_mem hd.ne_space hd.ne_tab, hn.not_mem hd.not_token⟩,
    ha.not_mem hd.ne_space hd.ne_tab⟩, hps.2⟩

/-- A splitter that cuts at delimiters and nowhere else, and finds its way through
parts that are balanced and hold no delimiter at all. -/
structure Cuts (split : Splitter) : Prop where
  joins : ∀ {v : Bytes} {d : UInt8} {parts : List Bytes},
    split v d = .ok parts → [d].intercalate parts = v
  ne_nil : ∀ {v : Bytes} {d : UInt8} {parts : List Bytes}, split v d = .ok parts → parts ≠ []
  cuts : ∀ {d : UInt8} {parts : List Bytes}, Delimiter d → parts ≠ [] →
    (∀ p ∈ parts, Quoted.Whole marks d p ∧ d ∉ p) → split ([d].intercalate parts) d = .ok parts

theorem cuts_split : Cuts Grammar.split where
  joins := fun h => Quoted.join_split (split_eq_ok.mp h)
  ne_nil := fun h => Quoted.split_ne_nil (split_eq_ok.mp h)
  cuts := fun hd hne h =>
    split_eq_ok.mpr (Quoted.split_join hd.ne_quote hne fun p hp => (h p hp).1)

theorem cuts_plainSplit : Cuts plainSplit where
  joins := by
    intro v d parts h
    obtain rfl := Except.ok.inj h
    exact List.intercalate_splitOn d
  ne_nil := by
    intro v d parts h
    obtain rfl := Except.ok.inj h
    exact List.splitOn_ne_nil d v
  cuts := fun {d} _ _ hne h =>
    congrArg Except.ok (List.splitOn_intercalate d (fun p hp => (h p hp).2) hne)

section Splitting

variable {split : Splitter} (hc : Cuts split)
include hc

/-- The segments of an extension: its name with the whitespace around it, then
its parameters as written. -/
theorem segmentsBy_extension {before name after : Bytes} {parameters : List Bytes}
    (hb : Ows before) (hn : Token name) (ha : Ows after) (hp : ∀ p ∈ parameters, Parameter p) :
    segmentsBy split (before ++ name ++ after ++ parameters.flatMap (semicolon :: ·)) =
      .ok ((before ++ name ++ after) :: parameters) := by
  have hd := delimiter_semicolon
  rw [segmentsBy, ← intercalate_eq_flatMap]
  refine hc.cuts hd (by simp) (List.forall_mem_cons.mpr ⟨⟨?_, ?_⟩, ?_⟩)
  · exact ((hb.whole hd).append (hn.whole hd)).append (ha.whole hd)
  · simp only [List.mem_append, not_or]
    exact ⟨⟨hb.not_mem hd.ne_space hd.ne_tab, hn.not_mem hd.not_token⟩,
      ha.not_mem hd.ne_space hd.ne_tab⟩
  · exact fun p hm => (hp p hm).whole hd

theorem validateElementBy_iff {e : Bytes} (he : ∀ b ∈ e, isHeaderByte b = true) :
    validateElementBy split e = .ok () ↔ Extension Ows e := by
  constructor
  · intro h
    obtain ⟨parts, hs, h⟩ := bind_eq_ok.mp h
    have hj := hc.joins hs
    cases parts with
    | nil => cases h
    | cons name parameters =>
      obtain ⟨_, ht, hp⟩ := bind_eq_ok.mp h
      rw [intercalate_eq_flatMap] at hj
      subst hj
      obtain ⟨hen, hep⟩ := List.forall_mem_append.mp he
      obtain ⟨w, w', hw, hw', hname⟩ := trim_split hen
      refine ⟨w, Grammar.trim name, w', parameters, hw, validateToken_iff.mp ht, hw', ?_, ?_⟩
      · intro p hm
        refine (validateParameter_iff fun b hb => hep b ?_).mp (forM_eq_ok.mp hp p hm)
        exact List.mem_flatMap.mpr ⟨p, hm, List.mem_cons_of_mem _ hb⟩
      · rw [← hname]
  · rintro ⟨before, name, after, parameters, hb, hn, ha, hp, rfl⟩
    have hep := (List.forall_mem_append.mp he).2
    rw [validateElementBy, segmentsBy_extension hc hb hn ha hp]
    refine bind_eq_ok.mpr ⟨_, rfl, bind_eq_ok.mpr ⟨(), ?_, forM_eq_ok.mpr fun p hm => ?_⟩⟩
    · rw [trim_token hb ha hn]
      exact validateToken_iff.mpr hn
    · refine (validateParameter_iff fun b hb => hep b ?_).mpr (hp p hm)
      exact List.mem_flatMap.mpr ⟨p, hm, List.mem_cons_of_mem _ hb⟩

end Splitting

theorem segments_extension {before name after : Bytes} {parameters : List Bytes}
    (hb : Ows before) (hn : Token name) (ha : Ows after) (hp : ∀ p ∈ parameters, Parameter p) :
    Grammar.segments (before ++ name ++ after ++ parameters.flatMap (semicolon :: ·)) =
      .ok ((before ++ name ++ after) :: parameters) :=
  segmentsBy_extension cuts_split hb hn ha hp

theorem validateElement_iff {e : Bytes} (he : ∀ b ∈ e, isHeaderByte b = true) :
    Grammar.validateElement e = .ok () ↔ Extension Ows e :=
  validateElementBy_iff cuts_split he

/-! ## Walking the field -/

/-- The lines of the field. -/
def fieldLines (headers : HeaderMap) : List Bytes :=
  (headers.getAll .secWebSocketExtensions).map (·.bytes)

theorem header_of_mem_fieldLines {headers : HeaderMap} {line : Bytes}
    (h : line ∈ fieldLines headers) : ∀ b ∈ line, isHeaderByte b = true := by
  obtain ⟨value, -, rfl⟩ := List.mem_map.mp h
  exact value.visible

theorem forElementsBy_lines (split : Splitter) {S : Type} (headers : HeaderMap) (init : S)
    (visit : S → Bytes → Except NegotiationError S) :
    forElementsBy split headers init visit =
      (fieldLines headers).foldlM
        (fun s line => do (← elementsBy split line).foldlM visit s) init := by
  rw [fieldLines, List.foldlM_map]
  rfl

theorem forElements_lines {S : Type} (headers : HeaderMap) (init : S)
    (visit : S → Bytes → Except NegotiationError S) :
    Grammar.forElements headers init visit =
      (fieldLines headers).foldlM
        (fun s line => do (← Grammar.elements line).foldlM visit s) init :=
  forElementsBy_lines Grammar.split headers init visit

theorem findElement_lines {A : Type} (headers : HeaderMap)
    (visit : Bytes → Except NegotiationError (Option A)) :
    Grammar.findElement headers visit =
      (fieldLines headers).findSomeM?
        (fun line => do (← Grammar.elements line).findSomeM? visit) := by
  unfold Grammar.findElement fieldLines
  induction headers.getAll .secWebSocketExtensions with
  | nil => rfl
  | cons value values ih =>
    rw [List.map_cons, List.findSomeM?_cons, List.findSomeM?_cons, ih]

/-- Every line splits, into these elements. -/
def Splits (lines : List Bytes) (parts : Bytes → List Bytes) : Prop :=
  ∀ line ∈ lines, Grammar.elements line = .ok (parts line)

theorem forElementsBy_eq {split : Splitter} {S : Type} {headers : HeaderMap}
    {parts : Bytes → List Bytes}
    (h : ∀ line ∈ fieldLines headers, elementsBy split line = .ok (parts line)) (init : S)
    (visit : S → Bytes → Except NegotiationError S) :
    forElementsBy split headers init visit =
      ((fieldLines headers).flatMap parts).foldlM visit init := by
  rw [forElementsBy_lines]
  generalize fieldLines headers = lines at h
  induction lines generalizing init with
  | nil => rfl
  | cons line lines ih =>
    obtain ⟨hl, hs⟩ := List.forall_mem_cons.mp h
    rw [List.foldlM_cons, List.flatMap_cons, List.foldlM_append, hl]
    exact bind_congr fun s => ih s hs

theorem forElements_eq {S : Type} {headers : HeaderMap} {parts : Bytes → List Bytes}
    (h : Splits (fieldLines headers) parts) (init : S)
    (visit : S → Bytes → Except NegotiationError S) :
    Grammar.forElements headers init visit =
      ((fieldLines headers).flatMap parts).foldlM visit init :=
  forElementsBy_eq h init visit

theorem findElement_eq {A : Type} {headers : HeaderMap} {parts : Bytes → List Bytes}
    (h : Splits (fieldLines headers) parts)
    (visit : Bytes → Except NegotiationError (Option A)) :
    Grammar.findElement headers visit =
      ((fieldLines headers).flatMap parts).findSomeM? visit := by
  rw [findElement_lines]
  generalize fieldLines headers = lines at h
  induction lines with
  | nil => rfl
  | cons line lines ih =>
    obtain ⟨hl, hs⟩ := List.forall_mem_cons.mp h
    rw [List.findSomeM?_cons, List.flatMap_cons, hl, ih hs]
    show ((parts line).findSomeM? visit >>= _) = _
    induction parts line with
    | nil => rfl
    | cons p ps ihp =>
      rw [List.findSomeM?_cons, List.cons_append, List.findSomeM?_cons, ← ihp, bind_assoc]
      refine bind_congr fun found => ?_
      cases found <;> rfl

end WsPmd.Field
