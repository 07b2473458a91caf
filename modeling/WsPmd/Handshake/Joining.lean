import WsPmd.Handshake.Offers

/-!
# Splitting and joining

The parts of a value are what stands between the delimiters outside its quotes.
Cutting there and joining again are inverse to each other, and a value that cannot be
cut is one that ends inside a quoted string. What is written as a quoted string with
every quote and backslash escaped is read back as it was.
-/

namespace WsPmd.Handshake

open WsPmd.Library
open Grammar (Bytes doubleQuote backslash comma semicolon marks)
open WsPmd.Field (QuotedText quotedString)

/-- A delimiter stands outside the quotes. -/
def Bare (delimiter : UInt8) (v : Bytes) : Prop :=
  ∃ before after, v = before ++ delimiter :: after ∧ QuoteBalanced before

/-- The inside of a quoted string that is not over: it may be waiting for the other
half of a quoted pair. -/
inductive Unclosed : Bytes → Prop where
  | text {raw content : Bytes} : QuotedText raw content → Unclosed raw
  | pair {raw content : Bytes} : QuotedText raw content → Unclosed (raw ++ [backslash])

/-- The value ends inside a quoted string. -/
def EndsQuoted (v : Bytes) : Prop :=
  ∃ before raw, v = before ++ doubleQuote :: raw ∧ QuoteBalanced before ∧ Unclosed raw

/-! ## Where a scan ends -/

theorem quotedText_append {raw raw' content content' : Bytes} (h : QuotedText raw content)
    (h' : QuotedText raw' content') : QuotedText (raw ++ raw') (content ++ content') := by
  induction h with
  | nil => exact h'
  | plain hq hb _ ih => exact .plain hq hb ih
  | pair b _ ih => exact .pair b ih

/-- The states a scan can end in, and what it has read in each. -/
inductive ScanEnds (v : Bytes) : Bool × Bool → Prop where
  | outside : QuoteBalanced v → ScanEnds v (false, false)
  | inside {before raw content : Bytes} : QuoteBalanced before → QuotedText raw content →
      v = before ++ doubleQuote :: raw → ScanEnds v (true, false)
  | escaped {before raw content : Bytes} : QuoteBalanced before → QuotedText raw content →
      v = before ++ doubleQuote :: (raw ++ [backslash]) → ScanEnds v (true, true)

theorem scanEnds (v : Bytes) : ScanEnds v (v.foldl (Quoted.turn marks) (false, false)) := by
  induction v using List.reverseRecOn with
  | nil => exact .outside .nil
  | append_singleton v b ih =>
    rw [List.foldl_append, List.foldl_cons, List.foldl_nil]
    have hall := quoteBalanced_iff (v := v ++ [b])
    unfold Quoted.Balanced at hall
    rw [List.foldl_append, List.foldl_cons, List.foldl_nil] at hall
    generalize v.foldl (Quoted.turn marks) (false, false) = q at ih hall ⊢
    cases ih with
    | outside hv =>
      by_cases hb : b = doubleQuote
      · subst hb
        exact .inside hv .nil rfl
      · have hturn : Quoted.turn marks (false, false) b = (false, false) := by
          simp [Quoted.turn, marks, hb]
        rw [hturn] at hall ⊢
        exact .outside (hall.mpr rfl)
    | @inside before raw content hbefore hraw hv =>
      by_cases hb : b = backslash
      · subst hb
        exact .escaped hbefore hraw (by rw [hv, List.append_assoc, List.cons_append])
      by_cases hd : b = doubleQuote
      · subst hd
        exact .outside (hall.mpr rfl)
      · have hturn : Quoted.turn marks (true, false) b = (true, false) := by
          simp [Quoted.turn, marks, hb, hd]
        rw [hturn]
        refine .inside hbefore (quotedText_append hraw (.plain hd hb .nil)) ?_
        rw [hv, List.append_assoc, List.cons_append]
    | @escaped before raw content hbefore hraw hv =>
      refine .inside hbefore (quotedText_append hraw (.pair b .nil)) ?_
      rw [hv]
      simp only [List.append_assoc, List.cons_append, List.nil_append]

/-- Inside a quoted string the scan stays until the string is closed. -/
theorem foldl_quotedText {raw content : Bytes} (h : QuotedText raw content) :
    raw.foldl (Quoted.turn marks) (true, false) = (true, false) :=
  Quoted.walk_eq_foldl (Field.walk_quoted h comma)

theorem endsQuoted_iff {v : Bytes} : EndsQuoted v ↔ ¬ Quoted.Balanced marks v := by
  constructor
  · rintro ⟨before, raw, rfl, hbefore, hraw⟩ hbalanced
    have hstart : before.foldl (Quoted.turn marks) (false, false) = (false, false) :=
      quoteBalanced_iff.mp hbefore
    unfold Quoted.Balanced at hbalanced
    rw [List.foldl_append, hstart, List.foldl_cons] at hbalanced
    change raw.foldl (Quoted.turn marks) (true, false) = (false, false) at hbalanced
    cases hraw with
    | text htext =>
      rw [foldl_quotedText htext] at hbalanced
      cases hbalanced
    | pair htext =>
      rw [List.foldl_append, foldl_quotedText htext] at hbalanced
      cases hbalanced
  · intro hopen
    have hends := scanEnds v
    unfold Quoted.Balanced at hopen
    generalize v.foldl (Quoted.turn marks) (false, false) = q at hends hopen
    cases hends with
    | outside _ => exact absurd rfl hopen
    | inside hbefore hraw hv => exact ⟨_, _, hv, hbefore, .text hraw⟩
    | escaped hbefore hraw hv => exact ⟨_, _, hv, hbefore, .pair hraw⟩

/-! ## Parts -/

/-- The parts of a split are balanced and hold no delimiter outside their quotes. -/
theorem whole_iff_bare {delimiter : UInt8} (hq : delimiter ≠ doubleQuote) {p : Bytes} :
    Quoted.Whole marks delimiter p ↔ QuoteBalanced p ∧ ¬ Bare delimiter p := by
  rw [Quoted.whole_iff (m := marks) hq, quoteBalanced_iff]
  refine and_congr_right fun _ => ?_
  constructor
  · intro h ⟨before, after, hp, hbefore⟩
    exact h before after hp (quoteBalanced_iff.mp hbefore)
  · intro h before after hp hbefore
    exact h ⟨before, after, hp, quoteBalanced_iff.mpr hbefore⟩

/-- A value splits unless it ends inside a quoted string. -/
theorem split_eq_error {delimiter : UInt8} (hq : delimiter ≠ doubleQuote) {v : Bytes} :
    (∃ e, Grammar.split v delimiter = .error e) ↔ EndsQuoted v := by
  rw [endsQuoted_iff, ← Quoted.split_isSome_iff (m := marks) hq, Grammar.split]
  cases Quoted.split marks delimiter v <;> simp

theorem split_of_balanced {delimiter : UInt8} (hq : delimiter ≠ doubleQuote) {v : Bytes}
    (h : QuoteBalanced v) : ∃ parts, Grammar.split v delimiter = .ok parts := by
  obtain ⟨parts, hs⟩ := (Quoted.split_isSome_iff (m := marks) hq).mpr (quoteBalanced_iff.mp h)
  exact ⟨parts, Field.split_eq_ok.mpr hs⟩

/-! ## Quoted strings -/

/-- A backslash in front of every quote and every backslash. -/
def escape (s : Bytes) : Bytes :=
  s.flatMap fun b => if b = doubleQuote ∨ b = backslash then [backslash, b] else [b]

theorem escape_text (s : Bytes) : QuotedText (escape s) s := by
  induction s with
  | nil => exact .nil
  | cons b s ih =>
    unfold escape at ih ⊢
    rw [List.flatMap_cons]
    split
    · exact .pair b ih
    · next hb =>
      obtain ⟨hq, hs⟩ := not_or.mp hb
      exact .plain hq hs ih

/-- **Splitting and joining are inverse.** What is cut at a delimiter joins to what it
was, and its parts can be cut again at either delimiter; what is joined from balanced
parts without a bare delimiter is cut into them. Only a value that ends inside a
quoted string cannot be cut. An escaped string is unquoted to what it stands for. -/
theorem splitting_inverts_joining (delimiter : UInt8)
    (hd : delimiter = comma ∨ delimiter = semicolon) :
    (∀ v parts, Grammar.split v delimiter = .ok parts →
      [delimiter].intercalate parts = v ∧ ∀ p ∈ parts,
        QuoteBalanced p ∧ ¬ Bare delimiter p ∧
        (∃ again, Grammar.split p comma = .ok again) ∧
        ∃ again, Grammar.split p semicolon = .ok again) ∧
    (∀ parts, parts ≠ [] → (∀ p ∈ parts, QuoteBalanced p ∧ ¬ Bare delimiter p) →
      Grammar.split ([delimiter].intercalate parts) delimiter = .ok parts) ∧
    (∀ v, (∃ e, Grammar.split v delimiter = .error e) ↔ EndsQuoted v) ∧
    ∀ s, Grammar.unquote (quotedString (escape s)) = .ok s := by
  have hq : delimiter ≠ doubleQuote := by
    rcases hd with rfl | rfl <;> decide
  refine ⟨fun v parts hs => ?_, fun parts hne hparts => ?_, fun v => split_eq_error hq,
    fun s => Field.unquote_iff.mpr (Or.inr ⟨_, rfl, escape_text s⟩)⟩
  · have hsplit := Field.split_eq_ok.mp hs
    refine ⟨Quoted.join_split hsplit, fun p hp => ?_⟩
    obtain ⟨hbalanced, hbare⟩ := (whole_iff_bare hq).mp (Quoted.whole_of_mem_split hsplit hp)
    exact ⟨hbalanced, hbare, split_of_balanced (by decide) hbalanced,
      split_of_balanced (by decide) hbalanced⟩
  · exact Field.split_eq_ok.mpr
      (Quoted.split_join hq hne fun p hp => (whole_iff_bare hq).mpr (hparts p hp))

/-- A comma inside a quoted string, behind an escaped quote. -/
theorem splitting_inverts_joining_quoted :
    [comma].intercalate [ascii "x;a=\"\\\",\"", ascii " y"] = ascii "x;a=\"\\\",\", y" :=
  ((splitting_inverts_joining comma (Or.inl rfl)).1 _ _ (by decide +kernel)).1

end WsPmd.Handshake
