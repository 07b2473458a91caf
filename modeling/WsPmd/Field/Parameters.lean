import WsPmd.Field.Acceptance
import WsPmd.Library.Traversal
import WsPmd.Negotiated
import Mathlib.Data.List.Forall2
import Mathlib.Data.List.Nodup

/-!
# What the parameters of an element mean

The grammar lets one parameter be written in many ways: with whitespace around
its parts, and with its value bare, quoted or escaped. `Reading` is what is left
when the writing is taken away. The parser depends on the readings alone; it
accepts a list of them when none offends, and otherwise reports the first that
does.
-/

namespace WsPmd.Field

open WsPmd.Library
open Grammar (Bytes ClientWindow Params Staged equals semicolon doubleQuote
  serverNoContextTakeoverName clientNoContextTakeoverName serverMaxWindowBitsName
  clientMaxWindowBitsName)

/-! ## Readings -/

/-- What a value stands for: itself, or the content of the quoted string it is. -/
def Denotes (value content : Bytes) : Prop :=
  (Token value ∧ content = value) ∨
    ∃ raw, value = quotedString raw ∧ QuotedText raw content ∧ Token content

/-- The name of a parameter, and what its value stands for if it has one. -/
structure Reading where
  name : Bytes
  value : Option Bytes
  deriving DecidableEq

/-- `p` is one way to write `r`. -/
def Reads (p : Bytes) (r : Reading) : Prop :=
  ∃ before after, Ows before ∧ Token r.name ∧ Ows after ∧
    ((r.value = none ∧ p = before ++ r.name ++ after) ∨
      ∃ lead value trail content, Ows lead ∧ Denotes value content ∧ Ows trail ∧
        r.value = some content ∧
        p = before ++ r.name ++ after ++ equals :: (lead ++ value ++ trail))

/-- `e` is one way to write an extension with these parameters. -/
def Spells (e : Bytes) (readings : List Reading) : Prop :=
  ∃ before name after parameters, Ows before ∧ Token name ∧ Ows after ∧
    List.Forall₂ Reads parameters readings ∧
    e = before ++ name ++ after ++ parameters.flatMap (semicolon :: ·)

theorem value_iff_denotes {v : Bytes} : Value v ↔ ∃ content, Denotes v content := by
  constructor
  · rintro (ht | ⟨raw, content, rfl, hq, ht⟩)
    · exact ⟨v, Or.inl ⟨ht, rfl⟩⟩
    · exact ⟨content, Or.inr ⟨raw, rfl, hq, ht⟩⟩
  · rintro ⟨content, ⟨ht, -⟩ | ⟨raw, rfl, hq, ht⟩⟩
    · exact Or.inl ht
    · exact Or.inr ⟨raw, content, rfl, hq, ht⟩

theorem parameter_iff_reads {p : Bytes} : Parameter p ↔ ∃ r, Reads p r := by
  constructor
  · rintro ⟨before, name, after, hb, hn, ha, rfl | ⟨lead, value, trail, hl, hv, ht, rfl⟩⟩
    · exact ⟨⟨name, none⟩, before, after, hb, hn, ha, Or.inl ⟨rfl, rfl⟩⟩
    · obtain ⟨content, hd⟩ := value_iff_denotes.mp hv
      exact ⟨⟨name, some content⟩, before, after, hb, hn, ha,
        Or.inr ⟨lead, value, trail, content, hl, hd, ht, rfl, rfl⟩⟩
  · rintro ⟨r, before, after, hb, hn, ha, ⟨-, rfl⟩ |
      ⟨lead, value, trail, content, hl, hd, ht, -, rfl⟩⟩
    · exact ⟨before, r.name, after, hb, hn, ha, Or.inl rfl⟩
    · exact ⟨before, r.name, after, hb, hn, ha,
        Or.inr ⟨lead, value, trail, hl, value_iff_denotes.mpr ⟨content, hd⟩, ht, rfl⟩⟩

theorem parameters_iff_reads {parameters : List Bytes} :
    (∀ p ∈ parameters, Parameter p) ↔ ∃ readings, List.Forall₂ Reads parameters readings := by
  induction parameters with
  | nil => simp
  | cons p parameters ih =>
    rw [List.forall_mem_cons, ih, parameter_iff_reads]
    constructor
    · rintro ⟨⟨r, hr⟩, readings, hrs⟩
      exact ⟨r :: readings, .cons hr hrs⟩
    · rintro ⟨_, h⟩
      cases h with
      | cons hr hrs => exact ⟨⟨_, hr⟩, _, hrs⟩

/-- Every extension of the grammar has readings. -/
theorem extension_iff_spells {e : Bytes} : Extension Ows e ↔ ∃ readings, Spells e readings := by
  constructor
  · rintro ⟨before, name, after, parameters, hb, hn, ha, hp, rfl⟩
    obtain ⟨readings, hr⟩ := parameters_iff_reads.mp hp
    exact ⟨readings, before, name, after, parameters, hb, hn, ha, hr, rfl⟩
  · rintro ⟨readings, before, name, after, parameters, hb, hn, ha, hr, rfl⟩
    exact ⟨before, name, after, parameters, hb, hn, ha, parameters_iff_reads.mpr ⟨readings, hr⟩,
      rfl⟩

theorem unquote_denotes {value content : Bytes} (h : Denotes value content) :
    Grammar.unquote value = .ok content := by
  rw [unquote_iff]
  rcases h with ⟨ht, rfl⟩ | ⟨raw, rfl, hq, -⟩
  · exact Or.inl ⟨ht.not_mem not_tokenByte_doubleQuote, rfl⟩
  · exact Or.inr ⟨raw, rfl, hq⟩

/-! ## Numerals -/

/-- A byte's digit, rendered, is the byte. -/
theorem digit_rendered : ∀ d, Grammar.isAsciiDigit d = true →
    UInt8.ofNat (Nat.digitChar (d.toNat - 48)).toNat = d := by
  have h : ∀ n : Fin 256, Grammar.isAsciiDigit (UInt8.ofNat n.val) = true →
      UInt8.ofNat (Nat.digitChar ((UInt8.ofNat n.val).toNat - 48)).toNat = UInt8.ofNat n.val := by
    decide +kernel
  intro d
  have hd := h ⟨d.toNat, d.toNat_lt⟩
  simpa using hd

theorem isAsciiDigit_iff {d : UInt8} :
    Grammar.isAsciiDigit d = true ↔ 48 ≤ d.toNat ∧ d.toNat ≤ 57 := by
  simp [Grammar.isAsciiDigit, UInt8.le_iff_toNat_le]

/-- One step of the numeral being read, checked against the byte it is held in. -/
def readDigit (total : ℕ) (digit : UInt8) : Option ℕ :=
  (Grammar.checkedMul total 10).bind fun t => Grammar.checkedAdd t (digit.toNat - 48)

theorem readDigit_eq_some {total n : ℕ} {digit : UInt8} (h : readDigit total digit = some n) :
    n = total * 10 + (digit.toNat - 48) ∧ n < 256 := by
  obtain ⟨t, hm, ha⟩ := Option.bind_eq_some_iff.mp h
  unfold Grammar.checkedMul at hm
  unfold Grammar.checkedAdd at ha
  split at hm
  · obtain rfl := Option.some.inj hm
    split at ha
    · obtain rfl := Option.some.inj ha
      exact ⟨rfl, by assumption⟩
    · cases ha
  · cases hm

/-- Digits behind a numeral are the rest of a longer one: nothing was lost to
the width of a byte on the way. -/
theorem decimal_append {digits : Bytes} (hd : ∀ d ∈ digits, Grammar.isAsciiDigit d = true) :
    ∀ {total n : ℕ}, 0 < total → digits.foldlM readDigit total = some n →
      Render.decimal total ++ digits = Render.decimal n := by
  induction digits with
  | nil =>
    intro total n _ h
    rw [List.append_nil, Option.some.inj h]
  | cons d digits ih =>
    intro total n ht h
    obtain ⟨hd1, hds⟩ := List.forall_mem_cons.mp hd
    rw [List.foldlM_cons] at h
    obtain ⟨next, hnext, h⟩ := Option.bind_eq_some_iff.mp h
    obtain ⟨rfl, -⟩ := readDigit_eq_some hnext
    obtain ⟨hlo, hhi⟩ := isAsciiDigit_iff.mp hd1
    have hlt : d.toNat - 48 < 10 := by omega
    have hcat : Nat.toDigits 10 (total * 10 + (d.toNat - 48)) =
        Nat.toDigits 10 total ++ [Nat.digitChar (d.toNat - 48)] := by
      rw [Nat.mul_comm total 10, ← Nat.toDigits_append_toDigits (by decide) ht hlt,
        Nat.toDigits_of_lt_base hlt]
    have hstep : Render.decimal (total * 10 + (d.toNat - 48)) = Render.decimal total ++ [d] := by
      simp only [Render.decimal, hcat, List.map_append, List.map_cons, List.map_nil,
        digit_rendered d hd1]
    rw [← ih hds (by omega) h, hstep, List.append_assoc, List.singleton_append]

/-- The widths a value can state, looked up by their numerals. -/
def findWidth (content : Bytes) : Option ℕ :=
  (List.range' 8 8).find? fun n => content = Render.decimal n

theorem findWidth_eq_some {content : Bytes} {n : ℕ} :
    findWidth content = some n ↔ (8 ≤ n ∧ n ≤ 15) ∧ content = Render.decimal n := by
  constructor
  · intro h
    have hp := List.find?_some h
    have hm := List.mem_range'_1.mp (List.mem_of_find?_eq_some h)
    exact ⟨by omega, of_decide_eq_true hp⟩
  · rintro ⟨⟨hlo, hhi⟩, rfl⟩
    interval_cases n <;> decide

def widthOf (content : Bytes) : Except NegotiationError ℕ :=
  match findWidth content with
  | some n => .ok n
  | none => .error .invalidWindowBits

/-- What `parse_bits` does once the value is unquoted. -/
def readBits (digits : Bytes) : Except NegotiationError ℕ :=
  if digits.isEmpty || !digits.all Grammar.isAsciiDigit then .error .invalidWindowBits
  else if digits.length > 1 && digits.head? = some 48 then .error .invalidWindowBits
  else
    match digits.foldlM readDigit 0 with
    | none => .error .invalidWindowBits
    | some bits => if 8 ≤ bits && bits ≤ 15 then .ok bits else .error .invalidWindowBits

theorem readBits_ok {digits : Bytes} {n : ℕ} (h : readBits digits = .ok n) :
    (8 ≤ n ∧ n ≤ 15) ∧ digits = Render.decimal n := by
  unfold readBits at h
  split at h
  · cases h
  next hdigits =>
  split at h
  · cases h
  next hzero =>
  split at h
  · cases h
  next bits hfold =>
  split at h
  · next hrange =>
    obtain rfl := Except.ok.inj h
    simp only [Bool.and_eq_true, decide_eq_true_eq] at hrange
    refine ⟨hrange, ?_⟩
    cases digits with
    | nil => simp at hdigits
    | cons d rest =>
      simp only [List.isEmpty_cons, List.all_cons, Bool.false_or, Bool.not_eq_true',
        Bool.not_eq_false, Bool.and_eq_true, List.all_eq_true] at hdigits
      obtain ⟨hd, hrest⟩ := hdigits
      rw [List.foldlM_cons] at hfold
      obtain ⟨first, hfirst, hfold⟩ := Option.bind_eq_some_iff.mp hfold
      obtain ⟨rfl, -⟩ := readDigit_eq_some hfirst
      rw [Nat.zero_mul, Nat.zero_add] at hfold
      obtain ⟨hlo, hhi⟩ := isAsciiDigit_iff.mp hd
      have hone : Render.decimal (d.toNat - 48) = [d] := by
        simp only [Render.decimal, Nat.toDigits_of_lt_base (show d.toNat - 48 < 10 by omega),
          List.map_cons, List.map_nil, digit_rendered d hd]
      by_cases hz : d.toNat - 48 = 0
      · -- A leading zero stands alone, and zero is no width.
        have hd48 : d = 48 := by
          apply UInt8.toNat_inj.mp
          show d.toNat = 48
          omega
        have hnil : rest = [] := by
          simpa [hd48] using hzero
        subst hnil
        have hbits : d.toNat - 48 = bits := Option.some.inj hfold
        omega
      · rw [← decimal_append hrest (by omega) hfold, hone]
        rfl
  · cases h

theorem readBits_eq (digits : Bytes) : readBits digits = widthOf digits := by
  unfold widthOf
  cases hw : findWidth digits with
  | some n =>
    obtain ⟨⟨hlo, hhi⟩, rfl⟩ := findWidth_eq_some.mp hw
    interval_cases n <;> decide
  | none =>
    cases hr : readBits digits with
    | ok n => rw [findWidth_eq_some.mpr (readBits_ok hr)] at hw; cases hw
    | error e =>
      unfold readBits at hr
      (repeat' split at hr) <;> first | exact hr.symm ▸ rfl | cases hr

theorem parseBits_denotes {lead value trail content : Bytes} (hl : Ows lead)
    (hd : Denotes value content) (ht : Ows trail) :
    Grammar.parseBits (lead ++ value ++ trail) = widthOf content := by
  rw [Grammar.parseBits, (value_iff_denotes.mpr ⟨content, hd⟩).trim_pad hl ht, unquote_denotes hd,
    ← readBits_eq]
  rfl

/-! ## One parameter -/

/-- What each parameter takes for a value. -/
def readServerWindow : Option Bytes → Except NegotiationError ℕ
  | none => .error .parameterArity
  | some content => widthOf content

def readClientWindow : Option Bytes → Except NegotiationError ClientWindow
  | none => .ok .valueless
  | some content => (widthOf content).map .bits

/-- A value goes into its slot, if the slot is free. -/
def fill {T : Type} (read : Option Bytes → Except NegotiationError T) (value : Option Bytes)
    (slot : Option T) : Except NegotiationError (Option T) := do
  let t ← read value
  Grammar.setOnce slot t

/-- Staging a parameter, as a function of its reading. -/
def stage (staged : Staged) (r : Reading) : Except NegotiationError Staged :=
  if r.name = serverNoContextTakeoverName then
    (fill (T := Bool) Grammar.noValue r.value staged.serverTakeover).map
      fun slot => { staged with serverTakeover := slot }
  else if r.name = clientNoContextTakeoverName then
    (fill Grammar.noValue r.value staged.clientTakeover).map
      fun slot => { staged with clientTakeover := slot }
  else if r.name = serverMaxWindowBitsName then
    (fill readServerWindow r.value staged.serverWindow).map
      fun slot => { staged with serverWindow := slot }
  else if r.name = clientMaxWindowBitsName then
    (fill readClientWindow r.value staged.clientWindow).map
      fun slot => { staged with clientWindow := slot }
  else .error .unknownParameter

theorem fill_map {T : Type} {read : Option Bytes → Except NegotiationError T}
    {value : Option Bytes} {slot : Option T} {put : Option T → Staged} :
    (do
      let t ← read value
      let slot ← Grammar.setOnce slot t
      pure (put slot)) = (fill read value slot).map put := by
  unfold fill
  cases read value with
  | error e => rfl
  | ok t =>
    show (Grammar.setOnce slot t >>= fun s => pure (put s)) = (Grammar.setOnce slot t).map put
    cases Grammar.setOnce slot t <;> rfl

/-- The parser depends on the reading alone. -/
theorem parseParam_reads {p : Bytes} {r : Reading} (h : Reads p r) (staged : Staged) :
    Grammar.parseParam staged p = stage staged r := by
  obtain ⟨before, after, hb, hn, ha, h⟩ := h
  have hne : equals ∉ before ++ r.name ++ after := by
    simp only [List.mem_append, not_or]
    exact ⟨⟨hb.not_mem (by decide) (by decide), hn.not_mem not_tokenByte_equals⟩,
      ha.not_mem (by decide) (by decide)⟩
  have htrim := trim_token hb ha hn
  unfold stage
  rcases h with ⟨hv, rfl⟩ | ⟨lead, value, trail, content, hl, hd, ht, hv, rfl⟩
  · rw [hv]
    simp only [Grammar.parseParam, splitParameter_none hne, htrim, ← fill_map]
    rfl
  · rw [hv]
    simp only [Grammar.parseParam, splitParameter_some hne, htrim, ← fill_map,
      parseBits_denotes hl hd ht, Grammar.parseClientWindow]
    rfl

/-! ## What is accepted, and what offends -/

/-- The parameters RFC 7692 defines. -/
def parameterNames : List Bytes :=
  [serverNoContextTakeoverName, clientNoContextTakeoverName, serverMaxWindowBitsName,
    clientMaxWindowBitsName]

def isFlag (name : Bytes) : Prop :=
  name = serverNoContextTakeoverName ∨ name = clientNoContextTakeoverName

def isWindow (name : Bytes) : Prop :=
  name = serverMaxWindowBitsName ∨ name = clientMaxWindowBitsName

/-- The numeral of a window width: no leading zero, from 8 to 15. -/
def WidthNumeral (content : Bytes) : Prop :=
  ∃ n, (8 ≤ n ∧ n ≤ 15) ∧ content = Render.decimal n

/-- A list of parameters none of which offends. -/
structure WellFormed (readings : List Reading) : Prop where
  known : ∀ r ∈ readings, r.name ∈ parameterNames
  once : (readings.map (·.name)).Nodup
  bare : ∀ r ∈ readings, isFlag r.name → r.value = none
  valued : ∀ r ∈ readings, r.name = serverMaxWindowBitsName → r.value ≠ none
  width : ∀ r ∈ readings, isWindow r.name → ∀ content, r.value = some content →
    WidthNumeral content

/-- The parameters that are present, and nothing else. -/
structure Records (readings : List Reading) (params : Params) : Prop where
  server_takeover : params.serverNoContextTakeover = true ↔
    ⟨serverNoContextTakeoverName, none⟩ ∈ readings
  client_takeover : params.clientNoContextTakeover = true ↔
    ⟨clientNoContextTakeoverName, none⟩ ∈ readings
  server_window : ∀ n, params.serverMaxWindowBits = some n ↔
    (8 ≤ n ∧ n ≤ 15) ∧ ⟨serverMaxWindowBitsName, some (Render.decimal n)⟩ ∈ readings
  client_valueless : params.clientMaxWindowBits = .valueless ↔
    ⟨clientMaxWindowBitsName, none⟩ ∈ readings
  client_window : ∀ n, params.clientMaxWindowBits = .bits n ↔
    (8 ≤ n ∧ n ≤ 15) ∧ ⟨clientMaxWindowBitsName, some (Render.decimal n)⟩ ∈ readings

/-- What is wrong with one parameter, behind the ones before it. A parameter that
repeats another is first held to its own rule. -/
inductive Offence (before : List Reading) (r : Reading) : NegotiationError → Prop where
  | unknown (h : r.name ∉ parameterNames) : Offence before r .unknownParameter
  | flag (h : isFlag r.name) (hv : r.value ≠ none) : Offence before r .parameterArity
  | bare (h : r.name = serverMaxWindowBitsName) (hv : r.value = none) :
      Offence before r .parameterArity
  | width (h : isWindow r.name) (content : Bytes) (hv : r.value = some content)
      (hn : ¬ WidthNumeral content) : Offence before r .invalidWindowBits
  | again (h : WellFormed [r]) (hb : r.name ∈ before.map (·.name)) :
      Offence before r .duplicateParameter

theorem wellFormed_nil : WellFormed [] :=
  ⟨nofun, List.nodup_nil, nofun, nofun, nofun⟩

theorem wellFormed_append {before after : List Reading} :
    WellFormed (before ++ after) ↔ WellFormed before ∧ WellFormed after ∧
      ∀ r ∈ after, r.name ∉ before.map (·.name) := by
  have hdisjoint : (before.map (·.name)).Disjoint (after.map (·.name)) ↔
      ∀ r ∈ after, r.name ∉ before.map (·.name) := by
    simp only [List.disjoint_right, List.forall_mem_map]
  constructor
  · intro h
    have honce := h.once
    rw [List.map_append, List.nodup_append', hdisjoint] at honce
    have hl : ∀ r ∈ before, r ∈ before ++ after := fun r hr => List.mem_append_left _ hr
    have hr : ∀ r ∈ after, r ∈ before ++ after := fun r hr => List.mem_append_right _ hr
    exact ⟨⟨fun r hm => h.known r (hl r hm), honce.1, fun r hm => h.bare r (hl r hm),
        fun r hm => h.valued r (hl r hm), fun r hm => h.width r (hl r hm)⟩,
      ⟨fun r hm => h.known r (hr r hm), honce.2.1, fun r hm => h.bare r (hr r hm),
        fun r hm => h.valued r (hr r hm), fun r hm => h.width r (hr r hm)⟩, honce.2.2⟩
  · rintro ⟨hb, ha, hfresh⟩
    refine ⟨List.forall_mem_append.mpr ⟨hb.known, ha.known⟩, ?_,
      List.forall_mem_append.mpr ⟨hb.bare, ha.bare⟩,
      List.forall_mem_append.mpr ⟨hb.valued, ha.valued⟩,
      List.forall_mem_append.mpr ⟨hb.width, ha.width⟩⟩
    rw [List.map_append, List.nodup_append', hdisjoint]
    exact ⟨hb.once, ha.once, hfresh⟩

/-- An offending parameter keeps the list from being well formed. -/
theorem Offence.not_wellFormed {before after : List Reading} {r : Reading} {e : NegotiationError}
    (h : Offence before r e) : ¬ WellFormed (before ++ r :: after) := by
  intro hw
  have hm : r ∈ before ++ r :: after := by simp
  cases h with
  | unknown h => exact h (hw.known r hm)
  | flag h hv => exact hv (hw.bare r hm h)
  | bare h hv => exact hw.valued r hm h hv
  | width h content hv hn => exact hn (hw.width r hm h content hv)
  | again _ hb => exact (wellFormed_append.mp hw).2.2 r List.mem_cons_self hb

/-! ## The four slots -/

/-- A slot is empty while its name has not been read, and holds what its value means. -/
structure Holds {T : Type} (name : Bytes) (read : Option Bytes → Except NegotiationError T)
    (readings : List Reading) (slot : Option T) : Prop where
  empty : slot = none → name ∉ readings.map (·.name)
  full : ∀ t, slot = some t → ∃ value, ⟨name, value⟩ ∈ readings ∧ read value = .ok t

structure StagedHolds (readings : List Reading) (staged : Staged) : Prop where
  serverTakeover :
    Holds serverNoContextTakeoverName Grammar.noValue readings staged.serverTakeover
  clientTakeover :
    Holds clientNoContextTakeoverName Grammar.noValue readings staged.clientTakeover
  serverWindow : Holds serverMaxWindowBitsName readServerWindow readings staged.serverWindow
  clientWindow : Holds clientMaxWindowBitsName readClientWindow readings staged.clientWindow

section Slots

variable {T : Type} {name : Bytes} {read : Option Bytes → Except NegotiationError T}
  {before : List Reading} {r : Reading} {slot : Option T}

theorem Holds.other (h : Holds name read before slot) (hr : r.name ≠ name) :
    Holds name read (before ++ [r]) slot := by
  constructor
  · intro hs
    rw [List.map_append, List.mem_append, not_or]
    exact ⟨h.empty hs, by simpa using Ne.symm hr⟩
  · intro t ht
    obtain ⟨value, hm, hv⟩ := h.full t ht
    exact ⟨value, List.mem_append_left _ hm, hv⟩

/-- Filling a slot succeeds on a sound parameter that is the first of its name. -/
theorem fill_spec (hr : r.name = name) (hs : Holds name read before slot)
    (hsound : ∀ t, read r.value = .ok t → WellFormed [r])
    (hbad : ∀ e, read r.value = .error e → Offence before r e) :
    (∃ slot', fill read r.value slot = .ok slot' ∧ WellFormed [r] ∧
        r.name ∉ before.map (·.name) ∧ Holds name read (before ++ [r]) slot') ∨
      ∃ e, fill read r.value slot = .error e ∧ Offence before r e := by
  unfold fill
  cases hread : read r.value with
  | error e => exact Or.inr ⟨e, rfl, hbad e hread⟩
  | ok t =>
    cases slot with
    | some held =>
      obtain ⟨value, hm, -⟩ := hs.full held rfl
      refine Or.inr ⟨_, rfl, .again (hsound t hread) ?_⟩
      rw [hr]
      exact List.mem_map.mpr ⟨_, hm, rfl⟩
    | none =>
      refine Or.inl ⟨some t, rfl, hsound t hread, hr ▸ hs.empty rfl, nofun, ?_⟩
      intro t' ht
      obtain rfl := Option.some.inj ht
      refine ⟨r.value, List.mem_append_right _ ?_, hread⟩
      rw [← hr]
      exact List.mem_singleton_self r

end Slots

section Sound

variable {before : List Reading} {r : Reading}

theorem isFlag.not_isWindow {name : Bytes} (h : isFlag name) : ¬ isWindow name := by
  unfold isWindow
  rcases h with rfl | rfl <;> decide

theorem flag_sound (h : isFlag r.name) {t : Bool} (hr : Grammar.noValue r.value = .ok t) :
    WellFormed [r] := by
  have hv : r.value = none := by
    cases hv : r.value with
    | none => rfl
    | some v => rw [hv] at hr; cases hr
  have hname : r.name ∈ parameterNames := by
    rcases h with h | h <;> rw [h] <;> decide
  refine ⟨by simpa using hname, List.nodup_singleton _, by simpa using fun _ => hv, ?_, ?_⟩
  · simp only [List.mem_singleton, forall_eq]
    exact fun hw => absurd (Or.inl hw) h.not_isWindow
  · simp only [List.mem_singleton, forall_eq]
    exact fun hw => absurd hw h.not_isWindow

theorem flag_bad (h : isFlag r.name) {e : NegotiationError}
    (hr : Grammar.noValue r.value = .error e) : Offence before r e := by
  cases hv : r.value with
  | none => rw [hv] at hr; cases hr
  | some v =>
    rw [hv] at hr
    obtain rfl := Except.error.inj hr
    exact .flag h (by rw [hv]; nofun)

theorem widthOf_ok {content : Bytes} {n : ℕ} :
    widthOf content = .ok n ↔ (8 ≤ n ∧ n ≤ 15) ∧ content = Render.decimal n := by
  rw [← findWidth_eq_some, widthOf]
  cases findWidth content <;> simp

theorem widthOf_error {content : Bytes} {e : NegotiationError} (h : widthOf content = .error e) :
    e = .invalidWindowBits ∧ ¬ WidthNumeral content := by
  constructor
  · unfold widthOf at h
    split at h
    · cases h
    · exact (Except.error.inj h).symm
  · rintro ⟨n, hn⟩
    rw [widthOf_ok.mpr hn] at h
    cases h

theorem readServerWindow_ok {value : Option Bytes} {n : ℕ} :
    readServerWindow value = .ok n ↔
      (8 ≤ n ∧ n ≤ 15) ∧ value = some (Render.decimal n) := by
  cases value with
  | none => simp [readServerWindow]
  | some content => simp only [readServerWindow, widthOf_ok, Option.some.injEq]

theorem readClientWindow_valueless {value : Option Bytes} :
    readClientWindow value = .ok .valueless ↔ value = none := by
  cases value with
  | none => simp [readClientWindow]
  | some content => cases hw : widthOf content <;> simp [readClientWindow, hw, Except.map]

theorem readClientWindow_bits {value : Option Bytes} {n : ℕ} :
    readClientWindow value = .ok (.bits n) ↔
      (8 ≤ n ∧ n ≤ 15) ∧ value = some (Render.decimal n) := by
  cases value with
  | none => simp [readClientWindow]
  | some content =>
    rw [Option.some.injEq, ← widthOf_ok]
    cases hw : widthOf content <;> simp [readClientWindow, hw, Except.map]

theorem readClientWindow_ne_absent {value : Option Bytes} :
    readClientWindow value ≠ .ok .absent := by
  cases value with
  | none => simp [readClientWindow]
  | some content => cases hw : widthOf content <;> simp [readClientWindow, hw, Except.map]

/-- A window parameter with a good value, or with none where that is allowed. -/
theorem window_sound (h : isWindow r.name)
    (hv : r.name = serverMaxWindowBitsName → r.value ≠ none)
    (hn : ∀ content, r.value = some content → WidthNumeral content) : WellFormed [r] := by
  have hname : r.name ∈ parameterNames := by
    rcases h with h | h <;> rw [h] <;> decide
  refine ⟨by simpa using hname, List.nodup_singleton _, ?_, by simpa using hv, by simpa using
    fun _ => hn⟩
  simp only [List.mem_singleton, forall_eq]
  exact fun hf => absurd h hf.not_isWindow

theorem serverWindow_sound (h : r.name = serverMaxWindowBitsName) {n : ℕ}
    (hr : readServerWindow r.value = .ok n) : WellFormed [r] := by
  obtain ⟨hrange, hv⟩ := readServerWindow_ok.mp hr
  refine window_sound (Or.inl h) (fun _ => by rw [hv]; nofun) fun content hc => ?_
  rw [hv] at hc
  exact ⟨n, hrange, (Option.some.inj hc).symm⟩

theorem serverWindow_bad (h : r.name = serverMaxWindowBitsName) {e : NegotiationError}
    (hr : readServerWindow r.value = .error e) : Offence before r e := by
  cases hv : r.value with
  | none =>
    rw [hv] at hr
    obtain rfl := Except.error.inj hr
    exact .bare h hv
  | some content =>
    rw [hv] at hr
    obtain ⟨rfl, hn⟩ := widthOf_error hr
    exact .width (Or.inl h) content hv hn

theorem clientWindow_sound (h : r.name = clientMaxWindowBitsName) {w : ClientWindow}
    (hr : readClientWindow r.value = .ok w) : WellFormed [r] := by
  have hne : r.name ≠ serverMaxWindowBitsName := by rw [h]; decide
  refine window_sound (Or.inr h) (fun hs => absurd hs hne) fun content hc => ?_
  cases w with
  | absent => exact absurd hr readClientWindow_ne_absent
  | valueless => rw [readClientWindow_valueless.mp hr] at hc; cases hc
  | bits n =>
    obtain ⟨hrange, hv⟩ := readClientWindow_bits.mp hr
    rw [hv] at hc
    exact ⟨n, hrange, (Option.some.inj hc).symm⟩

theorem clientWindow_bad (h : r.name = clientMaxWindowBitsName) {e : NegotiationError}
    (hr : readClientWindow r.value = .error e) : Offence before r e := by
  cases hv : r.value with
  | none => rw [hv] at hr; cases hr
  | some content =>
    rw [hv, readClientWindow] at hr
    cases hw : widthOf content with
    | ok n => rw [hw] at hr; cases hr
    | error e' =>
      rw [hw] at hr
      obtain rfl := Except.error.inj hr
      obtain ⟨rfl, hn⟩ := widthOf_error hw
      exact .width (Or.inr h) content hv hn

end Sound

/-! ## Reading them all -/

/-- One parameter is staged, or it offends. -/
theorem stage_spec {before : List Reading} {staged : Staged} (hs : StagedHolds before staged)
    (r : Reading) :
    (∃ staged', stage staged r = .ok staged' ∧ WellFormed [r] ∧ r.name ∉ before.map (·.name) ∧
        StagedHolds (before ++ [r]) staged') ∨
      ∃ e, stage staged r = .error e ∧ Offence before r e := by
  unfold stage
  by_cases h1 : r.name = serverNoContextTakeoverName
  · rw [if_pos h1]
    rcases fill_spec h1 hs.serverTakeover (fun t => flag_sound (Or.inl h1))
      (fun e => flag_bad (Or.inl h1)) with ⟨slot, hf, hsound, hfresh, hh⟩ | ⟨e, hf, ho⟩
    · refine Or.inl ⟨_, by rw [hf]; rfl, hsound, hfresh, hh, ?_, ?_, ?_⟩
      · exact hs.clientTakeover.other (by rw [h1]; decide)
      · exact hs.serverWindow.other (by rw [h1]; decide)
      · exact hs.clientWindow.other (by rw [h1]; decide)
    · exact Or.inr ⟨e, by rw [hf]; rfl, ho⟩
  rw [if_neg h1]
  by_cases h2 : r.name = clientNoContextTakeoverName
  · rw [if_pos h2]
    rcases fill_spec h2 hs.clientTakeover (fun t => flag_sound (Or.inr h2))
      (fun e => flag_bad (Or.inr h2)) with ⟨slot, hf, hsound, hfresh, hh⟩ | ⟨e, hf, ho⟩
    · refine Or.inl ⟨_, by rw [hf]; rfl, hsound, hfresh, ?_, hh, ?_, ?_⟩
      · exact hs.serverTakeover.other h1
      · exact hs.serverWindow.other (by rw [h2]; decide)
      · exact hs.clientWindow.other (by rw [h2]; decide)
    · exact Or.inr ⟨e, by rw [hf]; rfl, ho⟩
  rw [if_neg h2]
  by_cases h3 : r.name = serverMaxWindowBitsName
  · rw [if_pos h3]
    rcases fill_spec h3 hs.serverWindow (fun t => serverWindow_sound h3)
      (fun e => serverWindow_bad h3) with ⟨slot, hf, hsound, hfresh, hh⟩ | ⟨e, hf, ho⟩
    · refine Or.inl ⟨_, by rw [hf]; rfl, hsound, hfresh, ?_, ?_, hh, ?_⟩
      · exact hs.serverTakeover.other h1
      · exact hs.clientTakeover.other h2
      · exact hs.clientWindow.other (by rw [h3]; decide)
    · exact Or.inr ⟨e, by rw [hf]; rfl, ho⟩
  rw [if_neg h3]
  by_cases h4 : r.name = clientMaxWindowBitsName
  · rw [if_pos h4]
    rcases fill_spec h4 hs.clientWindow (fun t => clientWindow_sound h4)
      (fun e => clientWindow_bad h4) with ⟨slot, hf, hsound, hfresh, hh⟩ | ⟨e, hf, ho⟩
    · refine Or.inl ⟨_, by rw [hf]; rfl, hsound, hfresh, ?_, ?_, ?_, hh⟩
      · exact hs.serverTakeover.other h1
      · exact hs.clientTakeover.other h2
      · exact hs.serverWindow.other h3
    · exact Or.inr ⟨e, by rw [hf]; rfl, ho⟩
  rw [if_neg h4]
  exact Or.inr ⟨_, rfl, .unknown (by simp [parameterNames, h1, h2, h3, h4])⟩

/-- What is wrong with a parameter alone is wrong with it as the first one. -/
theorem Offence.alone {before : List Reading} {r : Reading} {e : NegotiationError}
    (h : Offence before r e) :
    (stage Staged.empty r = .error e ∧ ¬ WellFormed [r]) ∨
      (e = .duplicateParameter ∧ WellFormed [r]) := by
  have hm : r ∈ [r] := List.mem_singleton_self r
  unfold stage
  cases h with
  | unknown h =>
    refine Or.inl ⟨?_, fun hw => h (hw.known r hm)⟩
    simp only [parameterNames, List.mem_cons, List.not_mem_nil, or_false, not_or] at h
    obtain ⟨h1, h2, h3, h4⟩ := h
    rw [if_neg h1, if_neg h2, if_neg h3, if_neg h4]
  | flag h hv =>
    refine Or.inl ⟨?_, fun hw => hv (hw.bare r hm h)⟩
    obtain ⟨v, hv⟩ := Option.ne_none_iff_exists'.mp hv
    rw [hv]
    rcases h with h | h <;> rw [h] <;> rfl
  | bare h hv =>
    refine Or.inl ⟨?_, fun hw => hw.valued r hm h hv⟩
    rw [hv, h]
    rfl
  | width h content hv hn =>
    refine Or.inl ⟨?_, fun hw => hn (hw.width r hm h content hv)⟩
    have hwidth : widthOf content = .error .invalidWindowBits := by
      cases hc : widthOf content with
      | ok n => exact absurd ⟨n, widthOf_ok.mp hc⟩ hn
      | error e => rw [(widthOf_error hc).1]
    have hserver : fill readServerWindow (some content) none = .error .invalidWindowBits := by
      rw [fill, readServerWindow, hwidth]
      rfl
    have hclient : fill readClientWindow (some content) none = .error .invalidWindowBits := by
      rw [fill, readClientWindow, hwidth]
      rfl
    rw [hv]
    rcases h with h | h <;> rw [h]
    · show (fill readServerWindow (some content) none).map _ = _
      rw [hserver]
      rfl
    · show (fill readClientWindow (some content) none).map _ = _
      rw [hclient]
      rfl
  | again h hb => exact Or.inr ⟨rfl, h⟩

/-- A parameter offends in one way. -/
theorem Offence.unique {before : List Reading} {r : Reading} {e e' : NegotiationError}
    (h : Offence before r e) (h' : Offence before r e') : e = e' := by
  rcases h.alone with ⟨hs, hw⟩ | ⟨rfl, hw⟩ <;> rcases h'.alone with ⟨hs', hw'⟩ | ⟨rfl, hw'⟩
  · exact Except.error.inj (hs.symm.trans hs')
  · exact absurd hw' hw
  · exact absurd hw hw'
  · rfl

/-- A list of parameters is staged whole, or up to the first that offends. -/
theorem stage_all (readings : List Reading) :
    (∃ staged, readings.foldlM stage Staged.empty = .ok staged ∧ WellFormed readings ∧
        StagedHolds readings staged) ∨
      ∃ before r after e, readings = before ++ r :: after ∧ WellFormed before ∧
        Offence before r e ∧ readings.foldlM stage Staged.empty = .error e := by
  induction readings using List.reverseRecOn with
  | nil => exact Or.inl ⟨_, rfl, wellFormed_nil, ⟨⟨nofun, nofun⟩, ⟨nofun, nofun⟩, ⟨nofun, nofun⟩,
      ⟨nofun, nofun⟩⟩⟩
  | append_singleton readings r ih =>
    rw [List.foldlM_append]
    rcases ih with ⟨staged, hf, hw, hs⟩ | ⟨before, r', after, e, rfl, hw, ho, hf⟩
    · rw [hf]
      rcases stage_spec hs r with ⟨staged', hr, hsound, hfresh, hs'⟩ | ⟨e, hr, ho⟩
      · refine Or.inl ⟨staged', ?_, wellFormed_append.mpr ⟨hw, hsound, ?_⟩, hs'⟩
        · show [r].foldlM stage staged = _
          rw [List.foldlM_cons, hr]
          rfl
        · simpa using hfresh
      · refine Or.inr ⟨readings, r, [], e, rfl, hw, ho, ?_⟩
        show [r].foldlM stage staged = _
        rw [List.foldlM_cons, hr]
        rfl
    · exact Or.inr ⟨before, r', after ++ [r], e, by simp, hw, ho, by rw [hf]; rfl⟩

/-- What a finished stage says. -/
def recorded (staged : Staged) : Params where
  serverNoContextTakeover := staged.serverTakeover.getD false
  clientNoContextTakeover := staged.clientTakeover.getD false
  serverMaxWindowBits := staged.serverWindow
  clientMaxWindowBits := staged.clientWindow.getD .absent

/-- The parser is a walk over the readings. -/
theorem parseParams_spells {e : Bytes} {readings : List Reading} (h : Spells e readings) :
    Grammar.parseParams e = (readings.foldlM stage Staged.empty).map recorded := by
  obtain ⟨before, name, after, parameters, hb, hn, ha, hr, rfl⟩ := h
  have hp := parameters_iff_reads.mpr ⟨readings, hr⟩
  have hfold : ∀ staged, parameters.foldlM Grammar.parseParam staged =
      readings.foldlM stage staged := by
    clear hp
    induction hr with
    | nil => exact fun _ => rfl
    | cons h _ ih =>
      intro staged
      rw [List.foldlM_cons, List.foldlM_cons, parseParam_reads h]
      exact bind_congr ih
  rw [Grammar.parseParams, segments_extension hb hn ha hp]
  show (parameters.foldlM Grammar.parseParam Staged.empty >>= _) = _
  rw [hfold]
  cases readings.foldlM stage Staged.empty <;> rfl

/-- In a well-formed list a name has one value. -/
theorem WellFormed.value_eq {readings : List Reading} (h : WellFormed readings) {name : Bytes}
    {value value' : Option Bytes} (hm : ⟨name, value⟩ ∈ readings)
    (hm' : ⟨name, value'⟩ ∈ readings) :
    value = value' :=
  congrArg Reading.value (List.inj_on_of_nodup_map h.once hm hm' rfl)

/-- What a slot says of its one value. -/
theorem Holds.eq_some_iff {T : Type} {name : Bytes}
    {read : Option Bytes → Except NegotiationError T} {readings : List Reading} {slot : Option T}
    (h : Holds name read readings slot) (hw : WellFormed readings) {t : T} {value : Option Bytes}
    (hread : ∀ value', read value' = .ok t ↔ value' = value) :
    slot = some t ↔ ⟨name, value⟩ ∈ readings := by
  constructor
  · intro hs
    obtain ⟨value', hm, hv⟩ := h.full t hs
    exact (hread value').mp hv ▸ hm
  · intro hm
    cases hs : slot with
    | none => exact absurd (List.mem_map.mpr ⟨_, hm, rfl⟩) (h.empty hs)
    | some t' =>
      obtain ⟨value', hm', hv⟩ := h.full t' hs
      obtain rfl := hw.value_eq hm hm'
      rw [(hread value).mpr rfl] at hv
      exact congrArg some (Except.ok.inj hv).symm

theorem noValue_ok {value : Option Bytes} : Grammar.noValue value = .ok true ↔ value = none := by
  cases value <;> simp [Grammar.noValue]

/-- A window that is held under its numeral. -/
theorem Holds.window_iff {T : Type} {name : Bytes} {read : Option Bytes → Except NegotiationError T}
    {readings : List Reading} {slot : Option T} (h : Holds name read readings slot)
    (hw : WellFormed readings) {t : T} {n : ℕ}
    (hread : ∀ value, read value = .ok t ↔ (8 ≤ n ∧ n ≤ 15) ∧ value = some (Render.decimal n)) :
    slot = some t ↔ (8 ≤ n ∧ n ≤ 15) ∧ ⟨name, some (Render.decimal n)⟩ ∈ readings := by
  by_cases hn : 8 ≤ n ∧ n ≤ 15
  · have hnumeral : ∀ value, read value = .ok t ↔ value = some (Render.decimal n) := by
      intro value
      rw [hread value, and_iff_right hn]
    rw [h.eq_some_iff hw hnumeral]
    exact (and_iff_right hn).symm
  · refine iff_of_false (fun hs => ?_) fun hm => hn hm.1
    obtain ⟨value, -, hv⟩ := h.full t hs
    exact hn ((hread value).mp hv).1

theorem records_recorded {readings : List Reading} {staged : Staged} (hw : WellFormed readings)
    (hs : StagedHolds readings staged) : Records readings (recorded staged) := by
  have hflag {name : Bytes} {slot : Option Bool}
      (h : Holds name Grammar.noValue readings slot) :
      slot.getD false = true ↔ ⟨name, none⟩ ∈ readings := by
    rw [← h.eq_some_iff hw fun _ => noValue_ok]
    cases slot with
    | none => simp
    | some b => cases b <;> simp
  have hnot : staged.clientWindow ≠ some .absent := by
    intro ha
    obtain ⟨value, -, hv⟩ := hs.clientWindow.full _ ha
    exact readClientWindow_ne_absent hv
  have hclient (w : ClientWindow) (hw : w ≠ .absent) :
      staged.clientWindow.getD .absent = w ↔ staged.clientWindow = some w := by
    cases hc : staged.clientWindow with
    | none => simpa using Ne.symm hw
    | some w' => simp
  refine ⟨hflag hs.serverTakeover, hflag hs.clientTakeover, fun n => ?_, ?_, fun n => ?_⟩
  · exact hs.serverWindow.window_iff hw fun _ => readServerWindow_ok
  · exact (hclient .valueless nofun).trans
      (hs.clientWindow.eq_some_iff hw fun _ => readClientWindow_valueless)
  · exact (hclient (.bits n) nofun).trans
      (hs.clientWindow.window_iff hw fun _ => readClientWindow_bits)

theorem Records.unique {readings : List Reading} {params params' : Params}
    (h : Records readings params) (h' : Records readings params') : params = params' := by
  obtain ⟨s, c, sw, cw⟩ := params
  obtain ⟨s', c', sw', cw'⟩ := params'
  have hs : s = s' := Bool.eq_iff_iff.mpr (h.server_takeover.trans h'.server_takeover.symm)
  have hc : c = c' := Bool.eq_iff_iff.mpr (h.client_takeover.trans h'.client_takeover.symm)
  have hsw : sw = sw' :=
    Option.ext fun n => (h.server_window n).trans (h'.server_window n).symm
  have hv := h.client_valueless.trans h'.client_valueless.symm
  have hb := fun n => (h.client_window n).trans (h'.client_window n).symm
  have hcw : cw = cw' := by
    cases cw with
    | valueless => exact (hv.mp rfl).symm
    | bits n => exact ((hb n).mp rfl).symm
    | absent =>
      cases cw' with
      | absent => rfl
      | valueless => exact absurd (hv.mpr rfl) nofun
      | bits n => exact absurd ((hb n).mpr rfl) nofun
  rw [hs, hc, hsw, hcw]

/-- Order does not matter to a list, nor to what it records. -/
theorem WellFormed.perm {readings readings' : List Reading} (h : WellFormed readings)
    (hp : readings.Perm readings') : WellFormed readings' where
  known := fun r hr => h.known r (hp.mem_iff.mpr hr)
  once := (hp.map _).nodup_iff.mp h.once
  bare := fun r hr => h.bare r (hp.mem_iff.mpr hr)
  valued := fun r hr => h.valued r (hp.mem_iff.mpr hr)
  width := fun r hr => h.width r (hp.mem_iff.mpr hr)

theorem Records.perm {readings readings' : List Reading} {params : Params}
    (h : Records readings params) (hp : readings.Perm readings') : Records readings' params where
  server_takeover := h.server_takeover.trans hp.mem_iff
  client_takeover := h.client_takeover.trans hp.mem_iff
  server_window := fun n => (h.server_window n).trans (and_congr_right fun _ => hp.mem_iff)
  client_valueless := h.client_valueless.trans hp.mem_iff
  client_window := fun n => (h.client_window n).trans (and_congr_right fun _ => hp.mem_iff)

theorem parseParams_eq_ok {e : Bytes} {readings : List Reading} (h : Spells e readings)
    {params : Params} :
    Grammar.parseParams e = .ok params ↔ WellFormed readings ∧ Records readings params := by
  rw [parseParams_spells h]
  rcases stage_all readings with ⟨staged, hf, hw, hs⟩ | ⟨before, r, after, err, rfl, -, ho, hf⟩
  · rw [hf]
    have hr := records_recorded hw hs
    constructor
    · intro hp
      obtain rfl := Except.ok.inj hp
      exact ⟨hw, hr⟩
    · rintro ⟨-, hp⟩
      exact congrArg Except.ok (hr.unique hp)
  · rw [hf]
    exact ⟨fun hp => (by cases hp), fun hp => absurd hp.1 ho.not_wellFormed⟩

/-- The error is the first offender's, which no other parameter shares. -/
theorem parseParams_eq_error {e : Bytes} {readings : List Reading} (h : Spells e readings)
    {err : NegotiationError} :
    Grammar.parseParams e = .error err ↔ ∃ before r after,
      readings = before ++ r :: after ∧ WellFormed before ∧ Offence before r err := by
  rw [parseParams_spells h]
  have hstage : readings.foldlM stage Staged.empty = .error err ↔
      (readings.foldlM stage Staged.empty).map recorded = .error err := by
    cases readings.foldlM stage Staged.empty <;> simp [Except.map]
  rw [← hstage, Traversal.foldlM_eq_error]
  constructor
  · rintro ⟨before, r, after, staged, rfl, hf, he⟩
    rcases stage_all before with ⟨staged', hf', hw, hs⟩ | ⟨_, _, _, err', _, _, _, hf'⟩
    · obtain rfl := Except.ok.inj (hf.symm.trans hf')
      rcases stage_spec hs r with ⟨_, hr, -⟩ | ⟨err', hr, ho⟩
      · rw [hr] at he; cases he
      · rw [hr] at he
        exact ⟨before, r, after, rfl, hw, Except.error.inj he ▸ ho⟩
    · rw [hf] at hf'; cases hf'
  · rintro ⟨before, r, after, rfl, hw, ho⟩
    rcases stage_all before with ⟨staged, hf, -, hs⟩ | ⟨_, _, _, _, rfl, -, ho', -⟩
    · rcases stage_spec hs r with ⟨_, -, hsound, hfresh, -⟩ | ⟨err', hr, ho'⟩
      · refine absurd (wellFormed_append.mpr ⟨hw, hsound, ?_⟩) ho.not_wellFormed
        simpa using hfresh
      · exact ⟨before, r, after, staged, rfl, hf, ho'.unique ho ▸ hr⟩
    · exact absurd hw ho'.not_wellFormed

/-- The writing of the parameters does not matter, and their order only to which
of several errors comes first. -/
theorem parseParams_perm {e e' : Bytes} {readings readings' : List Reading} (h : Spells e readings)
    (h' : Spells e' readings') (hp : readings'.Perm readings) (params : Params) :
    Grammar.parseParams e' = .ok params ↔ Grammar.parseParams e = .ok params := by
  rw [parseParams_eq_ok h, parseParams_eq_ok h']
  exact ⟨fun hw => ⟨hw.1.perm hp, hw.2.perm hp⟩,
    fun hw => ⟨hw.1.perm hp.symm, hw.2.perm hp.symm⟩⟩

/-- **Parameters are read exactly.** Every extension of the grammar is some list
of parameters, written down. Parsing it succeeds when none of them offends, with
exactly the parameters that are present; else it reports the first that offends.
How they are written changes nothing, and their order no success. -/
theorem parameters_exact (e : Bytes) (he : Extension Ows e) :
    (∃ readings, Spells e readings) ∧
      ∀ readings, Spells e readings →
        (∀ params, Grammar.parseParams e = .ok params ↔
          WellFormed readings ∧ Records readings params) ∧
        (∀ err, Grammar.parseParams e = .error err ↔ ∃ before r after,
          readings = before ++ r :: after ∧ WellFormed before ∧ Offence before r err) ∧
        (∀ e', Spells e' readings → Grammar.parseParams e' = Grammar.parseParams e) ∧
        ∀ e' readings', Spells e' readings' → readings'.Perm readings → ∀ params,
          (Grammar.parseParams e' = .ok params ↔ Grammar.parseParams e = .ok params) := by
  refine ⟨extension_iff_spells.mp he, fun readings hr => ⟨fun params => parseParams_eq_ok hr,
    fun err => parseParams_eq_error hr, fun e' hr' => ?_, fun e' readings' hr' hp =>
      parseParams_perm hr hr' hp⟩⟩
  rw [parseParams_spells hr, parseParams_spells hr']

/-- A width in quotes, with a quoted pair inside, behind a flag. -/
def quotedWidth : Bytes :=
  ascii "permessage-deflate; client_no_context_takeover ;server_max_window_bits = \"1\\2\""

theorem parameters_exact_quoted :
    ∃ readings, Spells quotedWidth readings ∧ WellFormed readings ∧
      Records readings ⟨false, true, some 12, .absent⟩ := by
  have hheader : ∀ b ∈ quotedWidth, isHeaderByte b = true :=
    List.all_eq_true.mp (by decide +kernel)
  have he : Extension Ows quotedWidth := (validateElement_iff hheader).mp (by decide +kernel)
  obtain ⟨⟨readings, hr⟩, hall⟩ := parameters_exact quotedWidth he
  exact ⟨readings, hr, ((hall readings hr).1 _).mp (by decide +kernel)⟩

end WsPmd.Field
