import WsPmd.Handshake.Choice
import WsPmd.Handshake.Refinement

/-!
# Grammar faults come first

A field is validated before anything is selected from it. What is left to the
later passes, which split, segment and unquote the field again, is a field they
cannot find malformed: each of them either answers or names a parameter.
-/

namespace WsPmd.Handshake

open WsPmd.Library
open Grammar (Bytes Params semicolon marks)
open WsPmd.Field (bind_eq_ok)

theorem validate_rejects {headers : HeaderMap} (h : Grammar.validate headers ≠ .ok ()) :
    Grammar.validate headers = .error .malformedHeader := by
  cases hv : Grammar.validate headers with
  | ok u => exact absurd hv h
  | error e => rw [Field.validate_onlyMalformed headers e hv]

/-- A blank position has no parameters to fail on. -/
theorem parseParams_blank {e : Bytes} (h : Field.Ows e) :
    Grammar.parseParams e = .ok ⟨false, false, none, .absent⟩ := by
  have hs : Grammar.segments e = .ok [e] :=
    Field.split_eq_ok.mpr (Quoted.split_whole (h.whole Field.delimiter_semicolon))
  rw [Grammar.parseParams, hs]
  rfl

theorem parseParams_not_malformed {headers : HeaderMap} (hv : Grammar.validate headers = .ok ())
    {e : Bytes} (he : e ∈ fieldElements headers) :
    Grammar.parseParams e ≠ .error .malformedHeader := by
  by_cases hows : Field.Ows e
  · rw [parseParams_blank hows]
    nofun
  · have hext : Field.Extension Field.Ows e := by
      rcases (Field.validate_iff headers).mp hv with hnil | ⟨hfits, -⟩
      · rw [fieldElements, hnil] at he
        cases he
      · exact hfits e he hows
    intro h
    exact absurd (parseParams_error_mem hext h) (by decide)

theorem agree_not_malformed (offer : SealedOffer) (params : Params) :
    offer.agree params ≠ .error .malformedHeader := by
  unfold SealedOffer.agree
  split
  · nofun
  · unfold SealedOffer.serverWindow SealedOffer.clientWindow
    cases params.serverMaxWindowBits <;> cases params.clientMaxWindowBits <;>
      simp only <;> (repeat' split) <;> nofun

theorem soleDeflate_not_malformed {headers : HeaderMap} (hv : Grammar.validate headers = .ok ()) :
    soleDeflate headers ≠ .error .malformedHeader := by
  have hparse {e : Bytes} (he : e ∈ selections headers) :=
    parseParams_not_malformed hv (List.mem_of_mem_filter he)
  rw [soleDeflate_eq (Field.splits_of_validate hv), selectionsIn_pieces]
  match hs : selections headers with
  | [] => exact nofun
  | [e] => exact Traversal.map_ne_error (hparse (by rw [hs]; simp))
  | e :: e' :: rest =>
    refine Traversal.bind_ne_error (hparse (by rw [hs]; simp)) fun _ => ?_
    exact Traversal.bind_ne_error (hparse (by rw [hs]; simp)) fun _ => nofun

theorem clientFinish_not_malformed {headers : HeaderMap} (hv : Grammar.validate headers = .ok ())
    (handshake : ClientHandshake) (composition : PmdComposition) :
    handshake.finish headers composition ≠ .error .malformedHeader := by
  rw [clientFinish_eq hv]
  refine Traversal.bind_ne_error (soleDeflate_not_malformed hv) fun sole => ?_
  cases sole with
  | none => nofun
  | some params =>
    cases handshake.offer with
    | none => nofun
    | some offer =>
      simp only
      split
      · nofun
      · exact Traversal.map_ne_error (agree_not_malformed offer params)

theorem serverFinish_not_malformed {headers : HeaderMap} (hv : Grammar.validate headers = .ok ())
    (handshake : ServerHandshake) (composition : PmdComposition) :
    handshake.finish headers composition ≠ .error .malformedHeader := by
  rw [serverFinish_eq hv]
  (repeat' split) <;> nofun

/-- **Grammar outranks everything.** A server refuses a request, and either side
reports a malformed response, exactly when the field is not of the grammar.
Behind the validator every pass over the field splits, and finds at most a
parameter to object to. -/
theorem grammar_outranks (headers : HeaderMap) :
    (∀ config,
      ((∃ e, ServerHandshake.accept config headers = .error e) ↔
        Grammar.validate headers ≠ .ok ()) ∧
      ∀ e, ServerHandshake.accept config headers = .error e → e = .malformedHeader) ∧
    (∀ (handshake : ClientHandshake) (composition : PmdComposition),
      handshake.finish headers composition = .error .malformedHeader ↔
        Grammar.validate headers ≠ .ok ()) ∧
    (∀ (handshake : ServerHandshake) (composition : PmdComposition),
      handshake.finish headers composition = .error .malformedHeader ↔
        Grammar.validate headers ≠ .ok ()) ∧
    (Grammar.validate headers = .ok () → ∀ line ∈ Field.fieldLines headers,
      ∃ parts, Grammar.elements line = .ok parts ∧ ∀ e ∈ parts,
        (∃ answer, Grammar.isDeflate e = .ok answer) ∧
        Grammar.parseParams e ≠ .error .malformedHeader) := by
  by_cases hv : Grammar.validate headers = .ok ()
  · refine ⟨fun config => ?_, fun handshake composition => ?_, fun handshake composition => ?_,
      fun _ line hl => ?_⟩
    · rw [accept_eq hv]
      exact ⟨iff_of_false nofun (not_not.mpr hv), nofun⟩
    · exact iff_of_false (clientFinish_not_malformed hv handshake composition) (not_not.mpr hv)
    · exact iff_of_false (serverFinish_not_malformed hv handshake composition) (not_not.mpr hv)
    · refine ⟨_, Field.splits_of_validate hv line hl, fun e he => ?_⟩
      have hm : e ∈ fieldElements headers := List.mem_flatMap.mpr ⟨line, hl, he⟩
      exact ⟨⟨_, isDeflate_of_mem_fieldElements hv hm⟩, parseParams_not_malformed hv hm⟩
  · have he := validate_rejects hv
    refine ⟨fun config => ?_, fun handshake composition => ?_, fun handshake composition => ?_,
      fun h => absurd h hv⟩
    · have haccept : ServerHandshake.accept config headers = .error .malformedHeader := by
        rw [ServerHandshake.accept, he]
        rfl
      rw [haccept]
      exact ⟨iff_of_true ⟨_, rfl⟩ hv, fun e h => (Except.error.inj h).symm⟩
    · refine iff_of_true ?_ hv
      rw [ClientHandshake.finish, he]
      rfl
    · refine iff_of_true ?_ hv
      rw [ServerHandshake.finish, he]
      rfl

/-- A bare quote behind a parameter, in a line that splits. -/
def bareQuote : HeaderMap :=
  .ofLines [.fromStatic "permessage-deflate; server_max_window_bits=1\"2\"" rfl]

theorem grammar_outranks_bareQuote :
    ∀ config, ServerHandshake.accept config bareQuote = .error .malformedHeader := by
  intro config
  obtain ⟨e, he⟩ := ((grammar_outranks bareQuote).1 config).1.mpr (by decide +kernel)
  rw [he, ((grammar_outranks bareQuote).1 config).2 e he]

end WsPmd.Handshake
