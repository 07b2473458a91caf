import WsPmd.Field.Validate
import WsPmd.Negotiated

/-!
# Reading back what was rendered

A rendered element is the extension token and at most one parameter of each
kind, joined with semicolons. Each parameter is staged into a slot of its own,
so parsing gives back exactly the values that were rendered, with the absent
ones at their defaults.
-/

namespace WsPmd.Handshake

open WsPmd.Library
open Grammar (Bytes ClientWindow Params Staged comma semicolon marks)

/-- A width that may appear on the wire. -/
def WireBits (bits : ℕ) : Prop := 8 ≤ bits ∧ bits ≤ 15

theorem WireBits.cases {P : ℕ → Prop} (h8 : P 8) (h9 : P 9) (h10 : P 10) (h11 : P 11)
    (h12 : P 12) (h13 : P 13) (h14 : P 14) (h15 : P 15) : ∀ {bits}, WireBits bits → P bits := by
  intro bits ⟨hlo, hhi⟩
  interval_cases bits <;> assumption

/-! ## The parameters -/

def flagParameter (flag : Bool) (name : Bytes) : List Bytes := if flag then [32 :: name] else []

def bitsParameter (name : Bytes) (bits : ℕ) : Bytes :=
  32 :: (name ++ Grammar.equals :: Render.decimal bits)

def serverBitsParameter : Option ℕ → List Bytes
  | none => []
  | some bits => [bitsParameter Grammar.serverMaxWindowBitsName bits]

def clientBitsParameter : ClientBits → List Bytes
  | .omitted => []
  | .valueless => [32 :: Grammar.clientMaxWindowBitsName]
  | .bits bits => [bitsParameter Grammar.clientMaxWindowBitsName bits]

/-- The parameters of a rendered element, in order. -/
def parameters (s c : Bool) (sb : Option ℕ) (cb : ClientBits) : List Bytes :=
  flagParameter s Grammar.serverNoContextTakeoverName ++
    flagParameter c Grammar.clientNoContextTakeoverName ++
    serverBitsParameter sb ++ clientBitsParameter cb

theorem text_eq (s c : Bool) (sb : Option ℕ) (cb : ClientBits) :
    Render.text s c sb cb =
      Grammar.name ++ (parameters s c sb cb).flatMap (semicolon :: ·) := by
  have hs : (flagParameter s Grammar.serverNoContextTakeoverName).flatMap (semicolon :: ·) =
      if s then Render.serverTakeoverText else [] := by cases s <;> rfl
  have hc : (flagParameter c Grammar.clientNoContextTakeoverName).flatMap (semicolon :: ·) =
      if c then Render.clientTakeoverText else [] := by cases c <;> rfl
  have hsb : (serverBitsParameter sb).flatMap (semicolon :: ·) = Render.serverText sb := by
    cases sb with
    | none => rfl
    | some bits =>
      rw [Render.serverText, show Render.serverBitsText =
        semicolon :: 32 :: (Grammar.serverMaxWindowBitsName ++ [Grammar.equals]) from rfl]
      simp [serverBitsParameter, bitsParameter]
  have hcb : (clientBitsParameter cb).flatMap (semicolon :: ·) = Render.clientText cb := by
    cases cb with
    | omitted => rfl
    | valueless => rfl
    | bits bits =>
      rw [Render.clientText, show Render.clientBitsText =
        semicolon :: 32 :: (Grammar.clientMaxWindowBitsName ++ [Grammar.equals]) from rfl]
      simp [clientBitsParameter, bitsParameter]
  rw [parameters, List.flatMap_append, List.flatMap_append, List.flatMap_append, hs, hc, hsb, hcb,
    Render.text]
  simp only [List.append_assoc]

/-- The widths a rendering names. -/
structure Renderable (sb : Option ℕ) (cb : ClientBits) : Prop where
  server : ∀ bits, sb = some bits → WireBits bits
  client : ∀ bits, cb = .bits bits → WireBits bits

/-! ## A rendered element is an extension -/

private theorem token_name {t : Bytes} (h : (!t.isEmpty && t.all Grammar.isTchar) = true) :
    Field.Token t := by
  simp only [Bool.and_eq_true, Bool.not_eq_true', List.all_eq_true, Field.isTchar_iff] at h
  exact ⟨List.isEmpty_eq_false_iff.mp h.1, h.2⟩

private theorem ows_space : Field.Ows [32] := by simp [Field.Ows]

theorem parameter_flag {name : Bytes} (h : Field.Token name) : Field.Parameter (32 :: name) :=
  ⟨[32], name, [], ows_space, h, Field.ows_nil, Or.inl (by simp)⟩

theorem parameter_bits {name : Bytes} (hn : Field.Token name) {bits : ℕ} (hb : WireBits bits) :
    Field.Parameter (bitsParameter name bits) := by
  have hd : Field.Token (Render.decimal bits) :=
    WireBits.cases (P := fun bits => Field.Token (Render.decimal bits))
      (token_name rfl) (token_name rfl) (token_name rfl) (token_name rfl) (token_name rfl)
      (token_name rfl) (token_name rfl) (token_name rfl) hb
  refine ⟨[32], name, [], ows_space, hn, Field.ows_nil, Or.inr ⟨[], Render.decimal bits, [],
    Field.ows_nil, Or.inl hd, Field.ows_nil, ?_⟩⟩
  simp [bitsParameter]

theorem parameters_wellFormed {sb : Option ℕ} {cb : ClientBits} (h : Renderable sb cb)
    (s c : Bool) : ∀ p ∈ parameters s c sb cb, Field.Parameter p := by
  have hflag (flag : Bool) {name : Bytes} (hn : Field.Token name) :
      ∀ p ∈ flagParameter flag name, Field.Parameter p := by
    cases flag
    · exact nofun
    · exact List.forall_mem_singleton.mpr (parameter_flag hn)
  simp only [parameters, List.forall_mem_append]
  refine ⟨⟨⟨hflag s (token_name rfl), hflag c (token_name rfl)⟩, ?_⟩, ?_⟩
  · cases sb with
    | none => exact nofun
    | some bits =>
      exact List.forall_mem_singleton.mpr (parameter_bits (token_name rfl) (h.server bits rfl))
  · cases cb with
    | omitted => exact nofun
    | valueless => exact List.forall_mem_singleton.mpr (parameter_flag (token_name rfl))
    | bits bits =>
      exact List.forall_mem_singleton.mpr (parameter_bits (token_name rfl) (h.client bits rfl))

theorem token_extensionName : Field.Token Grammar.name := token_name rfl

theorem extension_text {sb : Option ℕ} {cb : ClientBits} (h : Renderable sb cb) (s c : Bool) :
    Field.Extension Field.Ows (Render.text s c sb cb) :=
  ⟨[], Grammar.name, [], parameters s c sb cb, Field.ows_nil, token_extensionName, Field.ows_nil,
    parameters_wellFormed h s c, by rw [text_eq]; simp⟩

theorem segments_text {sb : Option ℕ} {cb : ClientBits} (h : Renderable sb cb) (s c : Bool) :
    Grammar.segments (Render.text s c sb cb) = .ok (Grammar.name :: parameters s c sb cb) := by
  have hs := Field.segments_extension Field.ows_nil token_extensionName Field.ows_nil
    (parameters_wellFormed h s c)
  rw [text_eq]
  simpa using hs

/-! ## Parsing gives the values back -/

theorem parseParam_serverTakeover {staged : Staged} (h : staged.serverTakeover = none) :
    Grammar.parseParam staged (32 :: Grammar.serverNoContextTakeoverName) =
      .ok { staged with serverTakeover := some true } := by
  have hcut : Grammar.splitParameter (32 :: Grammar.serverNoContextTakeoverName) =
      (32 :: Grammar.serverNoContextTakeoverName, none) := by decide
  have htrim : Grammar.trim (32 :: Grammar.serverNoContextTakeoverName) =
      Grammar.serverNoContextTakeoverName := by decide
  simp only [Grammar.parseParam, hcut, htrim, if_true, h]
  rfl

theorem parseParam_clientTakeover {staged : Staged} (h : staged.clientTakeover = none) :
    Grammar.parseParam staged (32 :: Grammar.clientNoContextTakeoverName) =
      .ok { staged with clientTakeover := some true } := by
  have hcut : Grammar.splitParameter (32 :: Grammar.clientNoContextTakeoverName) =
      (32 :: Grammar.clientNoContextTakeoverName, none) := by decide
  have htrim : Grammar.trim (32 :: Grammar.clientNoContextTakeoverName) =
      Grammar.clientNoContextTakeoverName := by decide
  have hne : Grammar.clientNoContextTakeoverName ≠ Grammar.serverNoContextTakeoverName := by decide
  simp only [Grammar.parseParam, hcut, htrim, hne, if_true, if_false, h]
  rfl

theorem parseBits_decimal {bits : ℕ} (h : WireBits bits) :
    Grammar.parseBits (Render.decimal bits) = .ok bits :=
  WireBits.cases (P := fun bits => Grammar.parseBits (Render.decimal bits) = .ok bits)
    rfl rfl rfl rfl rfl rfl rfl rfl h

theorem splitParameter_bits {name : Bytes} (h : Grammar.equals ∉ name) (bits : ℕ) :
    Grammar.splitParameter (bitsParameter name bits) =
      (32 :: name, some (Render.decimal bits)) := by
  have hname : Grammar.equals ∉ 32 :: name := by
    simp only [List.mem_cons, not_or]
    exact ⟨by decide, h⟩
  exact Field.splitParameter_some hname

theorem parseParam_serverBits {staged : Staged} (h : staged.serverWindow = none) {bits : ℕ}
    (hb : WireBits bits) :
    Grammar.parseParam staged (bitsParameter Grammar.serverMaxWindowBitsName bits) =
      .ok { staged with serverWindow := some bits } := by
  have hname : Grammar.equals ∉ Grammar.serverMaxWindowBitsName := by decide
  have hcut := splitParameter_bits hname bits
  have htrim : Grammar.trim (32 :: Grammar.serverMaxWindowBitsName) =
      Grammar.serverMaxWindowBitsName := by decide
  have hne1 : Grammar.serverMaxWindowBitsName ≠ Grammar.serverNoContextTakeoverName := by decide
  have hne2 : Grammar.serverMaxWindowBitsName ≠ Grammar.clientNoContextTakeoverName := by decide
  simp only [Grammar.parseParam, hcut, htrim, hne1, hne2, if_true, if_false,
    parseBits_decimal hb, h]
  rfl

/-- The parsed form of a rendered client width. -/
def clientWindowOf : ClientBits → Option ClientWindow
  | .omitted => none
  | .valueless => some .valueless
  | .bits bits => some (.bits bits)

theorem parseParams_clientBits {staged : Staged} (h : staged.clientWindow = none)
    {cb : ClientBits} (hb : ∀ bits, cb = .bits bits → WireBits bits) :
    (clientBitsParameter cb).foldlM Grammar.parseParam staged =
      .ok { staged with clientWindow := clientWindowOf cb } := by
  have htrim : Grammar.trim (32 :: Grammar.clientMaxWindowBitsName) =
      Grammar.clientMaxWindowBitsName := by decide
  have hne1 : Grammar.clientMaxWindowBitsName ≠ Grammar.serverNoContextTakeoverName := by decide
  have hne2 : Grammar.clientMaxWindowBitsName ≠ Grammar.clientNoContextTakeoverName := by decide
  have hne3 : Grammar.clientMaxWindowBitsName ≠ Grammar.serverMaxWindowBitsName := by decide
  cases cb with
  | omitted =>
    obtain ⟨_, _, _, _⟩ := staged
    simp only at h
    subst h
    rfl
  | valueless =>
    have hcut : Grammar.splitParameter (32 :: Grammar.clientMaxWindowBitsName) =
        (32 :: Grammar.clientMaxWindowBitsName, none) := by decide
    simp only [clientBitsParameter, List.foldlM_cons, List.foldlM_nil, Grammar.parseParam, hcut,
      htrim, hne1, hne2, hne3, if_true, if_false, h]
    rfl
  | bits bits =>
    have hname : Grammar.equals ∉ Grammar.clientMaxWindowBitsName := by decide
    have hcut := splitParameter_bits hname bits
    simp only [clientBitsParameter, List.foldlM_cons, List.foldlM_nil, Grammar.parseParam, hcut,
      htrim, hne1, hne2, hne3, if_true, if_false, Grammar.parseClientWindow,
      parseBits_decimal (hb bits rfl), h]
    rfl

/-- **Parsing inverts rendering.** -/
theorem parseParams_text {sb : Option ℕ} {cb : ClientBits} (h : Renderable sb cb) (s c : Bool) :
    Grammar.parseParams (Render.text s c sb cb) =
      .ok ⟨s, c, sb, (clientWindowOf cb).getD .absent⟩ := by
  have hs : (flagParameter s Grammar.serverNoContextTakeoverName).foldlM Grammar.parseParam
      Staged.empty = .ok { Staged.empty with serverTakeover := if s then some true else none } := by
    cases s with
    | false => rfl
    | true =>
      have hparam := parseParam_serverTakeover (show Staged.empty.serverTakeover = none from rfl)
      simp only [flagParameter, if_true, List.foldlM_cons, List.foldlM_nil, hparam]
      rfl
  have hc (staged : Staged) (hn : staged.clientTakeover = none) :
      (flagParameter c Grammar.clientNoContextTakeoverName).foldlM Grammar.parseParam staged =
        .ok { staged with clientTakeover := if c then some true else none } := by
    cases c with
    | false =>
      obtain ⟨_, _, _, _⟩ := staged
      simp only at hn
      subst hn
      rfl
    | true =>
      simp only [flagParameter, if_true, List.foldlM_cons, List.foldlM_nil,
        parseParam_clientTakeover hn]
      rfl
  have hsb (staged : Staged) (hn : staged.serverWindow = none) :
      (serverBitsParameter sb).foldlM Grammar.parseParam staged =
        .ok { staged with serverWindow := sb } := by
    cases sb with
    | none =>
      obtain ⟨_, _, _, _⟩ := staged
      simp only at hn
      subst hn
      rfl
    | some bits =>
      simp only [serverBitsParameter, List.foldlM_cons, List.foldlM_nil,
        parseParam_serverBits hn (h.server bits rfl)]
      rfl
  have hfold : (parameters s c sb cb).foldlM Grammar.parseParam Staged.empty =
      .ok ⟨if s then some true else none, if c then some true else none, sb,
        clientWindowOf cb⟩ := by
    rw [parameters, List.foldlM_append, List.foldlM_append, List.foldlM_append, hs]
    show (((flagParameter c _).foldlM Grammar.parseParam _ >>= _) >>= _) = _
    rw [hc _ rfl]
    show ((serverBitsParameter sb).foldlM Grammar.parseParam _ >>= _) = _
    rw [hsb _ rfl]
    exact parseParams_clientBits rfl h.client
  rw [Grammar.parseParams, segments_text h]
  show ((parameters s c sb cb).foldlM Grammar.parseParam Staged.empty >>= _) = _
  rw [hfold]
  cases s <;> cases c <;> rfl

theorem isDeflate_text {sb : Option ℕ} {cb : ClientBits} (h : Renderable sb cb) (s c : Bool) :
    Grammar.isDeflate (Render.text s c sb cb) = .ok true := by
  rw [Grammar.isDeflate, segments_text h]
  rfl

/-! ## Trimming leaves it alone -/

private theorem getLast_parameters {sb : Option ℕ} {cb : ClientBits} (h : Renderable sb cb)
    (s c : Bool) : ∀ p ∈ parameters s c sb cb, ∃ b ∈ p.getLast?, Field.TokenByte b := by
  have hflag (flag : Bool) {name : Bytes}
      (hn : ∃ b ∈ (32 :: name).getLast?, Field.TokenByte b) :
      ∀ p ∈ flagParameter flag name, ∃ b ∈ p.getLast?, Field.TokenByte b := by
    cases flag
    · exact nofun
    · exact List.forall_mem_singleton.mpr hn
  have hbits {name : Bytes} {bits : ℕ} (hb : WireBits bits) :
      ∃ b ∈ (bitsParameter name bits).getLast?, Field.TokenByte b := by
    have hd : ∃ b ∈ (Render.decimal bits).getLast?, Field.TokenByte b :=
      WireBits.cases (P := fun bits => ∃ b ∈ (Render.decimal bits).getLast?, Field.TokenByte b)
        ⟨56, rfl, by decide⟩ ⟨57, rfl, by decide⟩ ⟨48, rfl, by decide⟩ ⟨49, rfl, by decide⟩
        ⟨50, rfl, by decide⟩ ⟨51, rfl, by decide⟩ ⟨52, rfl, by decide⟩ ⟨53, rfl, by decide⟩ hb
    obtain ⟨b, hlast, ht⟩ := hd
    refine ⟨b, ?_, ht⟩
    rw [bitsParameter, show 32 :: (name ++ Grammar.equals :: Render.decimal bits) =
      (32 :: (name ++ [Grammar.equals])) ++ Render.decimal bits by simp, List.getLast?_append,
      Option.mem_def.mp hlast]
    rfl
  simp only [parameters, List.forall_mem_append]
  refine ⟨⟨⟨hflag s ⟨114, rfl, by decide⟩, hflag c ⟨114, rfl, by decide⟩⟩, ?_⟩, ?_⟩
  · cases sb with
    | none => exact nofun
    | some bits => exact List.forall_mem_singleton.mpr (hbits (h.server bits rfl))
  · cases cb with
    | omitted => exact nofun
    | valueless => exact List.forall_mem_singleton.mpr ⟨115, rfl, by decide⟩
    | bits bits => exact List.forall_mem_singleton.mpr (hbits (h.client bits rfl))

theorem trim_text {sb : Option ℕ} {cb : ClientBits} (h : Renderable sb cb) (s c : Bool) :
    Grammar.trim (Render.text s c sb cb) = Render.text s c sb cb := by
  have hne : Render.text s c sb cb ≠ [] := by
    rw [text_eq]
    exact List.append_ne_nil_of_left_ne_nil token_extensionName.1 _
  have hlast : ∃ b ∈ (Render.text s c sb cb).getLast?, Field.TokenByte b := by
    rw [text_eq]
    have hps := getLast_parameters h s c
    generalize parameters s c sb cb = ps at hps
    induction ps using List.reverseRecOn with
    | nil => exact ⟨101, rfl, by decide⟩
    | append_singleton ps p _ =>
      obtain ⟨b, hb, ht⟩ := hps p (by simp)
      refine ⟨b, ?_, ht⟩
      rw [List.flatMap_append, List.flatMap_singleton, List.getLast?_append, List.getLast?_append,
        List.getLast?_cons, Option.mem_def.mp hb]
      rfl
  have hhead : (Render.text s c sb cb).head hne = 112 := by
    rw [List.head_eq_iff_head?_eq_some, text_eq]
    rfl
  obtain ⟨b, hb, ht⟩ := hlast
  have hend : (Render.text s c sb cb).getLast hne = b :=
    (List.getLast_eq_iff_getLast?_eq_some hne).mpr hb
  have hpad := Field.trim_pad Field.ows_nil Field.ows_nil hne (hhead ▸ rfl)
    (hend ▸ Field.tokenByte_not_whitespace b ht)
  simpa using hpad

end WsPmd.Handshake
