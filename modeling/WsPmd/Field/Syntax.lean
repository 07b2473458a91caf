import WsPmd.Grammar
import Mathlib.Tactic.Common

/-!
# The field as a grammar

What a conforming `Sec-WebSocket-Extensions` field is, stated over bytes with no
reference to a splitter: tokens, quoted strings, parameters, extensions and the
comma-separated list. The lemmas say which bytes each form can hold and that
each form is balanced, which is what lets any splitter find its way through it.
-/

namespace WsPmd.Field

open WsPmd.Library
open Grammar (Bytes doubleQuote backslash comma semicolon equals marks)

/-- The separators of RFC 2616, space and horizontal tab among them. -/
def separators : Bytes := ascii "()<>@,;:\\\"/[]?=\x7b\x7d" ++ [32, 9]

/-- A CHAR that is neither a CTL nor a separator. -/
def TokenByte (b : UInt8) : Prop := 32 ≤ b ∧ b < 127 ∧ b ∉ separators

instance (b : UInt8) : Decidable (TokenByte b) :=
  inferInstanceAs (Decidable (_ ∧ _ ∧ _))

def Token (t : Bytes) : Prop := t ≠ [] ∧ ∀ b ∈ t, TokenByte b

/-- Optional whitespace: spaces and horizontal tabs. -/
def Ows (w : Bytes) : Prop := ∀ b ∈ w, b = 32 ∨ b = 9

/-- The inside of a quoted string beside what it stands for. -/
inductive QuotedText : Bytes → Bytes → Prop where
  | nil : QuotedText [] []
  | plain {b : UInt8} {raw content : Bytes} (hq : b ≠ doubleQuote) (hb : b ≠ backslash) :
      QuotedText raw content → QuotedText (b :: raw) (b :: content)
  | pair (b : UInt8) {raw content : Bytes} :
      QuotedText raw content → QuotedText (backslash :: b :: raw) (b :: content)

def quotedString (raw : Bytes) : Bytes := doubleQuote :: (raw ++ [doubleQuote])

/-- A token, or a quoted string whose content is one. -/
def Value (v : Bytes) : Prop :=
  Token v ∨ ∃ raw content, v = quotedString raw ∧ QuotedText raw content ∧ Token content

def Parameter (p : Bytes) : Prop :=
  ∃ before name after, Ows before ∧ Token name ∧ Ows after ∧
    (p = before ++ name ++ after ∨
      ∃ lead value trail, Ows lead ∧ Value value ∧ Ows trail ∧
        p = before ++ name ++ after ++ equals :: (lead ++ value ++ trail))

/-- An extension token and its parameters. `gap` is what may stand between the
token and the first semicolon. -/
def Extension (gap : Bytes → Prop) (e : Bytes) : Prop :=
  ∃ (before name after : Bytes) (parameters : List Bytes),
    Ows before ∧ Token name ∧ gap after ∧ (∀ p ∈ parameters, Parameter p) ∧
    e = before ++ name ++ after ++ parameters.flatMap (semicolon :: ·)

/-- The lines read as one comma-separated list: at least one element is not
blank, and every element that is not blank is an extension. -/
def Conforms (gap : Bytes → Prop) (lines : List Bytes) : Prop :=
  lines = [] ∨ ∃ elements, [comma].intercalate lines = [comma].intercalate elements ∧
    (∃ e ∈ elements, ¬ Ows e) ∧ ∀ e ∈ elements, ¬ Ows e → Extension gap e

/-! ## Bytes -/

private theorem forall_byte {P : UInt8 → Prop} (h : ∀ n : Fin 256, P (UInt8.ofNat n.val)) :
    ∀ b, P b := by
  intro b
  have hb := h ⟨b.toNat, b.toNat_lt⟩
  simpa using hb

theorem isTchar_iff : ∀ b, Grammar.isTchar b = true ↔ TokenByte b :=
  forall_byte (by decide +kernel)

theorem tokenByte_not_whitespace : ∀ b, TokenByte b → Grammar.isAsciiWhitespace b = false :=
  forall_byte (by decide +kernel)

/-- On header bytes the whitespace the source trims is space and tab. -/
theorem whitespace_of_header :
    ∀ b, isHeaderByte b = true → Grammar.isAsciiWhitespace b = true → b = 32 ∨ b = 9 :=
  forall_byte (by decide +kernel)

theorem not_tokenByte_doubleQuote : ¬ TokenByte doubleQuote := by decide

theorem not_tokenByte_equals : ¬ TokenByte equals := by decide

theorem Ows.whitespace {w : Bytes} (h : Ows w) : ∀ b ∈ w, Grammar.isAsciiWhitespace b = true := by
  intro b hb
  rcases h b hb with rfl | rfl <;> decide

theorem Ows.append {w w' : Bytes} (h : Ows w) (h' : Ows w') : Ows (w ++ w') :=
  List.forall_mem_append.mpr ⟨h, h'⟩

theorem ows_nil : Ows [] := by simp [Ows]

theorem Ows.not_mem {w : Bytes} (h : Ows w) {b : UInt8} (h1 : b ≠ 32) (h2 : b ≠ 9) : b ∉ w := by
  intro hb
  rcases h b hb with rfl | rfl
  · exact h1 rfl
  · exact h2 rfl

theorem Token.not_mem {t : Bytes} (h : Token t) {b : UInt8} (hb : ¬ TokenByte b) : b ∉ t :=
  fun hm => hb (h.2 b hm)

theorem Token.not_ows {t : Bytes} (h : Token t) : ¬ Ows t := by
  obtain ⟨hne, ht⟩ := h
  cases t with
  | nil => exact absurd rfl hne
  | cons b t =>
    intro hw
    have hb := tokenByte_not_whitespace b (ht b (by simp))
    rw [hw.whitespace b (by simp)] at hb
    cases hb

/-! ## Trimming -/

theorem trim_pad {w t w' : Bytes} (hw : Ows w) (hw' : Ows w') (ht : t ≠ [])
    (hhead : Grammar.isAsciiWhitespace (t.head ht) = false)
    (hlast : Grammar.isAsciiWhitespace (t.getLast ht) = false) :
    Grammar.trim (w ++ t ++ w') = t := by
  have hd : (w ++ t ++ w').dropWhile Grammar.isAsciiWhitespace = t ++ w' := by
    rw [List.append_assoc, List.dropWhile_append_of_pos hw.whitespace]
    cases t with
    | nil => exact absurd rfl ht
    | cons b t => simp only [List.head_cons] at hhead; simp [hhead]
  have hr : (t ++ w').rdropWhile Grammar.isAsciiWhitespace =
      t.rdropWhile Grammar.isAsciiWhitespace := by
    simp only [List.rdropWhile, List.reverse_append]
    rw [List.dropWhile_append_of_pos]
    intro b hb
    exact hw'.whitespace b (List.mem_reverse.mp hb)
  rw [Grammar.trim, hd, hr, List.rdropWhile_eq_self_iff]
  intro hl
  rw [hlast]
  decide

theorem trim_token {w t w' : Bytes} (hw : Ows w) (hw' : Ows w') (ht : Token t) :
    Grammar.trim (w ++ t ++ w') = t :=
  trim_pad hw hw' ht.1 (tokenByte_not_whitespace _ (ht.2 _ (List.head_mem _)))
    (tokenByte_not_whitespace _ (ht.2 _ (List.getLast_mem _)))

/-- Every value is its trimmed part between two runs of whitespace. -/
theorem trim_split {v : Bytes} (hv : ∀ b ∈ v, isHeaderByte b = true) :
    ∃ w w', Ows w ∧ Ows w' ∧ v = w ++ Grammar.trim v ++ w' := by
  let d := v.dropWhile Grammar.isAsciiWhitespace
  have h1 : v.takeWhile Grammar.isAsciiWhitespace ++ d = v := List.takeWhile_append_dropWhile
  have h2 : Grammar.trim v ++ d.rtakeWhile Grammar.isAsciiWhitespace = d :=
    List.rdropWhile_append_rtakeWhile
  refine ⟨v.takeWhile Grammar.isAsciiWhitespace, d.rtakeWhile Grammar.isAsciiWhitespace,
    ?_, ?_, ?_⟩
  · intro b hb
    exact whitespace_of_header b (hv b ((List.takeWhile_subset _) hb)) (List.mem_takeWhile_imp hb)
  · intro b hb
    have hbd : b ∈ d := (List.rtakeWhile_suffix _ _).subset hb
    exact whitespace_of_header b (hv b ((List.dropWhile_sublist _).subset hbd))
      (List.mem_rtakeWhile_imp hb)
  · rw [List.append_assoc, h2, h1]

theorem isBlank_iff {v : Bytes} (hv : ∀ b ∈ v, isHeaderByte b = true) :
    Grammar.isBlank v = true ↔ Ows v := by
  constructor
  · intro h
    obtain ⟨w, w', hw, hw', he⟩ := trim_split hv
    rw [List.isEmpty_iff.mp h, List.append_nil] at he
    rw [he]
    exact hw.append hw'
  · intro h
    have hd : v.dropWhile Grammar.isAsciiWhitespace = [] :=
      List.dropWhile_eq_nil_iff.mpr h.whitespace
    simp [Grammar.isBlank, Grammar.trim, hd]

end WsPmd.Field
