import WsPmd.Field.Validate
import WsPmd.Server
import Mathlib.Logic.Relation
import Mathlib.Data.List.Forall2

/-!
# Field-line layout does not matter

Merging two adjacent lines with a comma changes the pieces of the field in one
way: whitespace behind the comma moves in front of the piece that follows. No
reader of an element looks at that whitespace, and a field that is refused is
refused with the one error there is, so every consumer answers the same.
-/

namespace WsPmd.Field

open WsPmd.Library
open Grammar (Bytes comma semicolon marks)

/-- One merge of two adjacent lines. -/
inductive Merge : List Bytes → List Bytes → Prop where
  | join (before after : List Bytes) (a b w : Bytes) (hw : Ows w) :
      Merge (before ++ a :: b :: after) (before ++ (a ++ comma :: (w ++ b)) :: after)

/-- Any number of merges. -/
def Merged : List Bytes → List Bytes → Prop := Relation.ReflTransGen Merge

/-- One element with more whitespace in front of it. -/
def Shifted (p q : Bytes) : Prop := ∃ w, Ows w ∧ q = w ++ p

/-! ## Elements -/

theorem trim_lead {w : Bytes} (hw : Ows w) (p : Bytes) :
    Grammar.trim (w ++ p) = Grammar.trim p := by
  rw [Grammar.trim, Grammar.trim, List.dropWhile_append_of_pos hw.whitespace]

theorem isBlank_pad {w : Bytes} (hw : Ows w) (p : Bytes) :
    Grammar.isBlank (w ++ p) = Grammar.isBlank p := by
  rw [Grammar.isBlank, Grammar.isBlank, trim_lead hw]

theorem ows_pad {w : Bytes} (hw : Ows w) (p : Bytes) : Ows (w ++ p) ↔ Ows p :=
  ⟨fun h => (List.forall_mem_append.mp h).2, fun h => hw.append h⟩

theorem extension_pad {w : Bytes} (hw : Ows w) (p : Bytes) :
    Extension Ows (w ++ p) ↔ Extension Ows p := by
  constructor
  · intro ⟨before, name, after, parameters, hb, hn, ha, hp, he⟩
    have hsplit : w ++ p = before ++ (name ++ (after ++ parameters.flatMap (semicolon :: ·))) := by
      rw [he]
      simp only [List.append_assoc]
    rcases List.append_eq_append_iff.mp hsplit with ⟨rest, rfl, hrest⟩ | ⟨rest, rfl, hrest⟩
    · refine ⟨rest, name, after, parameters, (List.forall_mem_append.mp hb).2, hn, ha, hp, ?_⟩
      rw [hrest]
      simp only [List.append_assoc]
    · -- A token holds no whitespace, so nothing of `w` can reach into the name.
      cases rest with
      | nil => exact ⟨[], name, after, parameters, ows_nil, hn, ha, hp, by simpa using hrest.symm⟩
      | cons b rest =>
        obtain ⟨hne, ht⟩ := hn
        cases name with
        | nil => exact absurd rfl hne
        | cons c name =>
          obtain ⟨rfl, -⟩ := List.cons.inj hrest
          have hs := hw.whitespace c (by simp)
          rw [tokenByte_not_whitespace c (ht c (by simp))] at hs
          cases hs
  · rintro ⟨before, name, after, parameters, hb, hn, ha, hp, rfl⟩
    exact ⟨w ++ before, name, after, parameters, hw.append hb, hn, ha, hp, by
      simp only [List.append_assoc]⟩

theorem segments_pad {w : Bytes} (hw : Ows w) (p : Bytes) :
    Grammar.segments (w ++ p) =
      (Grammar.segments p).map (List.modifyHead (w ++ ·)) := by
  have hquote : marks.quote ∉ w := hw.not_mem (by decide) (by decide)
  have hplain : semicolon ∉ w := hw.not_mem (by decide) (by decide)
  have hs := Quoted.split_lead hquote hplain p
  unfold Grammar.segments Grammar.split
  rw [hs]
  cases Quoted.split marks semicolon p <;> rfl

theorem isDeflate_pad {w : Bytes} (hw : Ows w) (p : Bytes) :
    Grammar.isDeflate (w ++ p) = Grammar.isDeflate p := by
  unfold Grammar.isDeflate
  rw [segments_pad hw]
  cases Grammar.segments p with
  | error e => rfl
  | ok parts =>
    cases parts with
    | nil => rfl
    | cons part parts =>
      show Except.ok (decide (Grammar.trim (w ++ part) = Grammar.name)) = _
      rw [trim_lead hw]
      rfl

theorem parseParams_pad {w : Bytes} (hw : Ows w) (p : Bytes) :
    Grammar.parseParams (w ++ p) = Grammar.parseParams p := by
  unfold Grammar.parseParams
  rw [segments_pad hw]
  cases Grammar.segments p with
  | error e => rfl
  | ok parts => cases parts <;> rfl

/-! ## Pieces -/

theorem Merge.pieces {lines lines' : List Bytes} (h : Merge lines lines') :
    List.Forall₂ Shifted (Field.pieces lines) (Field.pieces lines') := by
  have hrefl : ∀ l : List Bytes, List.Forall₂ Shifted l l :=
    fun l => List.forall₂_same.mpr fun p _ => ⟨[], ows_nil, rfl⟩
  obtain ⟨before, after, a, b, w, hw⟩ := h
  have hhead : List.Forall₂ Shifted (b.splitOn comma) ((w ++ b).splitOn comma) := by
    have hplain : comma ∉ w := hw.not_mem (by decide) (by decide)
    cases hb : b.splitOn comma with
    | nil => exact absurd hb (List.splitOn_ne_nil _ _)
    | cons p ps =>
      have hcut : (w ++ b).splitOn comma = (w ++ p) :: ps := by
        clear hw
        induction w with
        | nil => exact hb
        | cons c w ih =>
          simp only [List.mem_cons, not_or] at hplain
          rw [List.cons_append, List.splitOn_cons_eq_if_modifyHead, if_neg (by
            simpa using Ne.symm hplain.1), ih hplain.2]
          rfl
      rw [hcut]
      exact .cons ⟨w, hw, rfl⟩ (hrefl ps)
  unfold Field.pieces
  simp only [List.flatMap_append, List.flatMap_cons, List.splitOn_append_cons_self,
    List.append_assoc]
  exact List.rel_append (hrefl _) (List.rel_append (hrefl _) (List.rel_append hhead (hrefl _)))

theorem Shifted.trans {p q r : Bytes} (h : Shifted p q) (h' : Shifted q r) : Shifted p r := by
  obtain ⟨w, hw, rfl⟩ := h
  obtain ⟨w', hw', rfl⟩ := h'
  exact ⟨w' ++ w, hw'.append hw, (List.append_assoc _ _ _).symm⟩

theorem forall₂_shifted_trans {l l' l'' : List Bytes} (h : List.Forall₂ Shifted l l')
    (h' : List.Forall₂ Shifted l' l'') : List.Forall₂ Shifted l l'' := by
  induction h generalizing l'' with
  | nil => exact h'
  | cons hp _ ih =>
    cases h' with
    | cons hq h' => exact .cons (hp.trans hq) (ih h')

/-- What survives any number of merges: the pieces up to whitespace in front of
them, and whether there is a line at all. -/
structure SameList (lines lines' : List Bytes) : Prop where
  pieces : List.Forall₂ Shifted (Field.pieces lines) (Field.pieces lines')
  absent : lines = [] ↔ lines' = []

theorem Merged.sameList {lines lines' : List Bytes} (h : Merged lines lines') :
    SameList lines lines' := by
  induction h with
  | refl =>
    exact ⟨List.forall₂_same.mpr fun p _ => ⟨[], ows_nil, rfl⟩, Iff.rfl⟩
  | tail _ hm ih =>
    refine ⟨forall₂_shifted_trans ih.pieces hm.pieces, ih.absent.trans ?_⟩
    obtain ⟨before, after, a, b, w, hw⟩ := hm
    simp

/-! ## Walks -/

theorem foldlM_shifted {S : Type} {visit : S → Bytes → Except NegotiationError S}
    (hv : ∀ s w p, Ows w → visit s (w ++ p) = visit s p) {l l' : List Bytes}
    (h : List.Forall₂ Shifted l l') : ∀ init, l'.foldlM visit init = l.foldlM visit init := by
  induction h with
  | nil => exact fun _ => rfl
  | cons hp _ ih =>
    obtain ⟨w, hw, rfl⟩ := hp
    intro init
    rw [List.foldlM_cons, List.foldlM_cons, hv _ _ _ hw]
    exact bind_congr ih

theorem findSomeM_shifted {A : Type} {visit : Bytes → Except NegotiationError (Option A)}
    (hv : ∀ w p, Ows w → visit (w ++ p) = visit p) {l l' : List Bytes}
    (h : List.Forall₂ Shifted l l') : l'.findSomeM? visit = l.findSomeM? visit := by
  induction h with
  | nil => rfl
  | cons hp _ ih =>
    obtain ⟨w, hw, rfl⟩ := hp
    rw [List.findSomeM?_cons, List.findSomeM?_cons, hv _ _ hw, ih]

section Consumers

variable {headers headers' : HeaderMap}

theorem SameList.validate (h : SameList (fieldLines headers) (fieldLines headers')) :
    Grammar.validate headers' = Grammar.validate headers := by
  have hfits : ∀ {l l' : List Bytes}, List.Forall₂ Shifted l l' →
      ((∀ p ∈ l', Fits Ows p) ↔ ∀ p ∈ l, Fits Ows p) ∧
        ((∃ p ∈ l', ¬ Ows p) ↔ ∃ p ∈ l, ¬ Ows p) := by
    intro l l' hl
    induction hl with
    | nil => exact ⟨Iff.rfl, Iff.rfl⟩
    | cons hp _ ih =>
      obtain ⟨w, hw, rfl⟩ := hp
      simp only [List.forall_mem_cons, List.exists_mem_cons_iff, Fits, ows_pad hw,
        extension_pad hw]
      exact ⟨and_congr_right fun _ => ih.1, or_congr_right ih.2⟩
  have hiff : Grammar.validate headers' = .ok () ↔ Grammar.validate headers = .ok () := by
    rw [validate_iff, validate_iff, h.absent, (hfits h.pieces).1, (hfits h.pieces).2]
  cases hv : Grammar.validate headers with
  | ok u => exact hiff.mpr hv
  | error e =>
    cases hv' : Grammar.validate headers' with
    | ok u => rw [hiff.mp hv'] at hv; cases hv
    | error e' =>
      rw [validate_onlyMalformed headers e hv, validate_onlyMalformed headers' e' hv']

theorem SameList.forElements (h : SameList (fieldLines headers) (fieldLines headers'))
    (hv : Grammar.validate headers = .ok ()) {S : Type} (init : S)
    {visit : S → Bytes → Except NegotiationError S}
    (hvisit : ∀ s w p, Ows w → visit s (w ++ p) = visit s p) :
    Grammar.forElements headers' init visit = Grammar.forElements headers init visit := by
  rw [forElements_eq (splits_of_validate hv),
    forElements_eq (splits_of_validate (h.validate.trans hv))]
  exact foldlM_shifted hvisit h.pieces init

theorem SameList.findElement (h : SameList (fieldLines headers) (fieldLines headers'))
    (hv : Grammar.validate headers = .ok ()) {A : Type}
    {visit : Bytes → Except NegotiationError (Option A)}
    (hvisit : ∀ w p, Ows w → visit (w ++ p) = visit p) :
    Grammar.findElement headers' visit = Grammar.findElement headers visit := by
  rw [findElement_eq (splits_of_validate hv),
    findElement_eq (splits_of_validate (h.validate.trans hv))]
  exact findSomeM_shifted hvisit h.pieces

/-- A consumer that validates first need only agree on accepted fields. -/
theorem SameList.validated (h : SameList (fieldLines headers) (fieldLines headers')) {A : Type}
    {rest rest' : Except NegotiationError A}
    (hr : Grammar.validate headers = .ok () → rest' = rest) :
    (do Grammar.validate headers'; rest') = (do Grammar.validate headers; rest) := by
  rw [h.validate]
  cases hv : Grammar.validate headers with
  | error e => rfl
  | ok u => exact hr hv

theorem SameList.soleDeflate (h : SameList (fieldLines headers) (fieldLines headers'))
    (hv : Grammar.validate headers = .ok ()) :
    WsPmd.soleDeflate headers' = WsPmd.soleDeflate headers := by
  refine h.forElements hv none fun s w p hw => ?_
  rw [isBlank_pad hw, isDeflate_pad hw, parseParams_pad hw]

theorem SameList.countExact (h : SameList (fieldLines headers) (fieldLines headers'))
    (hv : Grammar.validate headers = .ok ()) (expected : Bytes) (altered : NegotiationError) :
    WsPmd.countExact headers' expected altered = WsPmd.countExact headers expected altered := by
  refine h.forElements hv 0 fun s w p hw => ?_
  rw [trim_lead hw, isDeflate_pad hw]

theorem SameList.accept (h : SameList (fieldLines headers) (fieldLines headers'))
    (config : ServerConfig) :
    ServerHandshake.accept config headers' = ServerHandshake.accept config headers := by
  refine h.validated fun hv => h.findElement hv fun w p hw => ?_
  rw [isBlank_pad hw, isDeflate_pad hw, parseParams_pad hw]

theorem SameList.clientFinish (h : SameList (fieldLines headers) (fieldLines headers'))
    (handshake : ClientHandshake) (composition : PmdComposition) :
    handshake.finish headers' composition = handshake.finish headers composition := by
  refine h.validated fun hv => ?_
  rw [h.soleDeflate hv]

theorem SameList.serverFinish (h : SameList (fieldLines headers) (fieldLines headers'))
    (handshake : ServerHandshake) (composition : PmdComposition) :
    handshake.finish headers' composition = handshake.finish headers composition := by
  refine h.validated fun hv => ?_
  rw [h.countExact hv]

/-- **Merging adjacent lines changes no answer**: the validator's verdict, the
server's choice, and what either side concludes from a response. -/
theorem layout_irrelevant (h : Merged (fieldLines headers) (fieldLines headers')) :
    Grammar.validate headers' = Grammar.validate headers ∧
      (∀ config, ServerHandshake.accept config headers' = ServerHandshake.accept config headers) ∧
      (∀ (handshake : ClientHandshake) (composition : PmdComposition),
        handshake.finish headers' composition = handshake.finish headers composition) ∧
      ∀ (handshake : ServerHandshake) (composition : PmdComposition),
        handshake.finish headers' composition = handshake.finish headers composition :=
  have hs := h.sameList
  ⟨hs.validate, hs.accept, hs.clientFinish, hs.serverFinish⟩

end Consumers

/-- A quote left open on the first line is closed on the second. -/
def openQuote : HeaderMap :=
  .ofLines [.fromStatic "x;a=\"b" rfl, .fromStatic "c\"" rfl]

def closedQuote : HeaderMap := .ofLines [.fromStatic "x;a=\"b, c\"" rfl]

theorem layout_irrelevant_quote :
    Grammar.validate closedQuote = Grammar.validate openQuote ∧
      (∀ config,
        ServerHandshake.accept config closedQuote = ServerHandshake.accept config openQuote) ∧
      (∀ (handshake : ClientHandshake) (composition : PmdComposition),
        handshake.finish closedQuote composition = handshake.finish openQuote composition) ∧
      ∀ (handshake : ServerHandshake) (composition : PmdComposition),
        handshake.finish closedQuote composition = handshake.finish openQuote composition :=
  layout_irrelevant (Relation.ReflTransGen.single
    (Merge.join [] [] (ascii "x;a=\"b") (ascii "c\"") [32] (by simp [Ows])))

end WsPmd.Field
