import WsPmd.Field.Parameters
import WsPmd.Handshake.Selections

/-!
# The client's agreement

A client finishes with the refinement of what it sealed, or with the reason there
is none. The refinement is stated as a relation between the sealed configuration
and the parameters of the response; `agree` computes it, and `finish` looks for
the one element to compute it on.
-/

namespace WsPmd.Handshake

open Grammar (Bytes ClientWindow Params)
open WsPmd.Field (bind_eq_ok)

/-! ## Refinement -/

/-- The response keeps within the offer. -/
structure Refines (config : ClientConfig) (response : Params) : Prop where
  takeover : config.requiresServerNoContextTakeover = true →
    response.serverNoContextTakeover = true
  server : (∃ bits, response.serverMaxWindowBits = some bits ∧
      bits ≤ config.offeredServerMaxWindowBits) ∨
    (response.serverMaxWindowBits = none ∧ config.offeredServerMaxWindowBits = 15)
  client : response.clientMaxWindowBits = .absent ∨
    ∃ bits, response.clientMaxWindowBits = .bits bits ∧ 9 ≤ bits

/-- A client's window, held to the offer. -/
def heldClientWindow (config : ClientConfig) : ClientWindow → ℕ
  | .bits bits => min config.offeredClientMaxWindowBits bits
  | .absent => config.offeredClientMaxWindowBits
  | .valueless => config.offeredClientMaxWindowBits

/-- What the client holds to from then on. -/
structure Agrees (config : ClientConfig) (response : Params) (n : Negotiated) : Prop where
  role : n.role = .client
  local_takeover : n.localNoContextTakeover =
    (config.offersClientNoContextTakeover || response.clientNoContextTakeover)
  peer_takeover : n.peerNoContextTakeover = response.serverNoContextTakeover
  peer_window : n.peerMaxWindowBits = response.serverMaxWindowBits.getD 15
  local_window : n.localMaxWindowBits = heldClientWindow config response.clientMaxWindowBits

theorem serverWindow_eq_ok {offer : SealedOffer} {response : Params} {bits : ℕ} :
    offer.serverWindow response = .ok bits ↔
      ((∃ b, response.serverMaxWindowBits = some b ∧ b ≤ offer.config.offeredServerMaxWindowBits) ∨
        (response.serverMaxWindowBits = none ∧ offer.config.offeredServerMaxWindowBits = 15)) ∧
      bits = response.serverMaxWindowBits.getD 15 := by
  have hle : offer.config.offeredServerMaxWindowBits ≤ 15 :=
    offer.config.serverMaxWindowBits.property.2
  unfold SealedOffer.serverWindow maxWindowBits
  cases response.serverMaxWindowBits with
  | some b =>
    by_cases hb : b > offer.config.offeredServerMaxWindowBits
    · simp [hb]
    · simp [hb, Nat.not_lt.mp hb, eq_comm]
  | none =>
    by_cases hb : offer.config.offeredServerMaxWindowBits < 15
    · simp [hb, Nat.ne_of_lt hb]
    · have h15 : offer.config.offeredServerMaxWindowBits = 15 := by omega
      simp [h15, eq_comm]

theorem clientWindow_eq_ok {offer : SealedOffer} {response : Params} {bits : ℕ} :
    offer.clientWindow response = .ok bits ↔
      (response.clientMaxWindowBits = .absent ∨
        ∃ b, response.clientMaxWindowBits = .bits b ∧ 9 ≤ b) ∧
      bits = heldClientWindow offer.config response.clientMaxWindowBits := by
  unfold SealedOffer.clientWindow
  cases response.clientMaxWindowBits with
  | absent => simp [heldClientWindow, eq_comm]
  | valueless => simp
  | bits b =>
    by_cases hb : b < 9
    · simp [hb]
    · simp [hb, Nat.not_lt.mp hb, heldClientWindow, Nat.min_comm, eq_comm]

/-- The one computed agreement is the one there is. -/
theorem agree_eq_ok {offer : SealedOffer} {response : Params} {n : Negotiated} :
    offer.agree response = .ok n ↔
      Refines offer.config response ∧ Agrees offer.config response n := by
  unfold SealedOffer.agree
  by_cases ht : offer.config.requiresServerNoContextTakeover = true ∧
      response.serverNoContextTakeover = false
  · have hnot : ¬ Refines offer.config response := fun h => by
      rw [h.takeover ht.1] at ht
      cases ht.2
    rw [ht.1, ht.2]
    simp [hnot]
  · have hhonoured : ¬ (offer.config.requiresServerNoContextTakeover &&
        !response.serverNoContextTakeover) = true := by
      simpa using ht
    have htakeover : offer.config.requiresServerNoContextTakeover = true →
        response.serverNoContextTakeover = true := by
      intro h
      by_contra hn
      exact ht ⟨h, by simpa using hn⟩
    rw [if_neg hhonoured, bind_eq_ok]
    simp only [bind_eq_ok, serverWindow_eq_ok, clientWindow_eq_ok]
    constructor
    · rintro ⟨_, ⟨hserver, rfl⟩, _, ⟨hclient, rfl⟩, hn⟩
      obtain rfl := Except.ok.inj hn
      exact ⟨⟨htakeover, hserver, hclient⟩, rfl, rfl, rfl, rfl, rfl⟩
    · rintro ⟨hr, ha⟩
      refine ⟨_, ⟨hr.server, rfl⟩, _, ⟨hr.client, rfl⟩, ?_⟩
      obtain ⟨role, sn, cn, sw, cw⟩ := n
      obtain ⟨hrole, hlt, hpt, hpw, hlw⟩ := ha
      obtain rfl : role = .client := hrole
      exact congrArg Except.ok (by rw [← hlw, ← hpw, ← hpt, ← hlt]; rfl)

/-! ## Finishing -/

/-- What a client makes of a conforming response, in its order of precedence. -/
theorem clientFinish_eq {response : HeaderMap} (hv : Grammar.validate response = .ok ())
    (handshake : ClientHandshake) (composition : PmdComposition) :
    handshake.finish response composition =
      (soleDeflate response).bind fun
        | none => .ok none
        | some params =>
          match handshake.offer with
          | none => .error .unsolicitedExtension
          | some offer =>
            if composition = .conflict then .error .extensionConflict
            else (offer.agree params).map some := by
  rw [ClientHandshake.finish, hv]
  show (soleDeflate response >>= _) = (soleDeflate response >>= _)
  rfl

theorem soleDeflate_ok {response : HeaderMap} (hv : Grammar.validate response = .ok ())
    {sole : Option Params} :
    soleDeflate response = .ok sole ↔
      (selections response = [] ∧ sole = none) ∨
        ∃ e params, selections response = [e] ∧ Grammar.parseParams e = .ok params ∧
          sole = some params := by
  rw [soleDeflate_eq (Field.splits_of_validate hv), selectionsIn_pieces]
  match selections response with
  | [] => simp [eq_comm]
  | [e] =>
    cases hp : Grammar.parseParams e with
    | error err => simp [hp, Except.map]
    | ok params => simp [hp, Except.map, eq_comm]
  | e :: e' :: rest =>
    constructor
    · intro h
      obtain ⟨_, -, h⟩ := bind_eq_ok.mp h
      obtain ⟨_, -, h⟩ := bind_eq_ok.mp h
      cases h
    · rintro (⟨h, -⟩ | ⟨_, _, h, -⟩) <;> cases h

theorem clientFinish_none {response : HeaderMap} (hv : Grammar.validate response = .ok ())
    (handshake : ClientHandshake) (composition : PmdComposition) :
    handshake.finish response composition = .ok none ↔ selections response = [] := by
  rw [clientFinish_eq hv]
  constructor
  · intro h
    obtain ⟨sole, hsole, h⟩ := bind_eq_ok.mp h
    rcases (soleDeflate_ok hv).mp hsole with ⟨hnil, -⟩ | ⟨e, params, -, -, rfl⟩
    · exact hnil
    · generalize handshake.offer = sealedOffer at h
      cases sealedOffer with
      | none => cases h
      | some offer =>
        simp only at h
        split at h
        · cases h
        · cases ha : offer.agree params <;> rw [ha] at h <;> cases h
  · intro hnil
    exact bind_eq_ok.mpr ⟨none, (soleDeflate_ok hv).mpr (Or.inl ⟨hnil, rfl⟩), rfl⟩

theorem clientFinish_some {response : HeaderMap} (hv : Grammar.validate response = .ok ())
    {handshake : ClientHandshake} {composition : PmdComposition} {n : Negotiated} :
    handshake.finish response composition = .ok (some n) ↔
      ∃ offer, handshake.offer = some offer ∧ composition = .compatible ∧
        ∃ e params, selections response = [e] ∧ Grammar.parseParams e = .ok params ∧
          offer.agree params = .ok n := by
  rw [clientFinish_eq hv]
  constructor
  · intro h
    obtain ⟨sole, hsole, h⟩ := bind_eq_ok.mp h
    rcases (soleDeflate_ok hv).mp hsole with ⟨-, rfl⟩ | ⟨e, params, he, hp, rfl⟩
    · cases h
    · cases hoffer : handshake.offer with
      | none => rw [hoffer] at h; cases h
      | some offer =>
        rw [hoffer] at h
        cases composition with
        | conflict => cases h
        | compatible =>
          cases ha : offer.agree params with
          | error err => simp only [ha] at h; cases h
          | ok n' =>
            simp only [ha] at h
            obtain rfl := Option.some.inj (Except.ok.inj h)
            exact ⟨offer, rfl, rfl, e, params, he, hp, ha⟩
  · rintro ⟨offer, hoffer, rfl, e, params, he, hp, ha⟩
    refine bind_eq_ok.mpr ⟨some params, (soleDeflate_ok hv).mpr (Or.inr ⟨e, params, he, hp, rfl⟩),
      ?_⟩
    simp only [hoffer, ha]
    rfl

/-- A sealed handshake carries the configuration its offer was installed with. -/
theorem offer_of_seal {config : ClientConfig} {request request' sent : HeaderMap}
    {offer : ClientOffer} {handshake : ClientHandshake}
    (hinstall : ClientOffer.install config request = .ok (offer, request'))
    (hseal : offer.sealOffer sent = .ok handshake) :
    ∃ sealedOffer, handshake.offer = some sealedOffer ∧ sealedOffer.config = config := by
  obtain ⟨found, -, hinstall⟩ := bind_eq_ok.mp hinstall
  split at hinstall
  · cases hinstall
  obtain ⟨rfl, -⟩ := Prod.mk.inj (Except.ok.inj hinstall)
  obtain ⟨count, -, hseal⟩ := bind_eq_ok.mp hseal
  split at hseal
  · obtain rfl := Except.ok.inj hseal
    exact ⟨_, rfl, rfl⟩
  · cases hseal

theorem offer_of_sealWithoutOffer {sent : HeaderMap} {handshake : ClientHandshake}
    (h : ClientHandshake.sealWithoutOffer sent = .ok handshake) : handshake.offer = none := by
  obtain ⟨found, -, h⟩ := bind_eq_ok.mp h
  split at h
  · cases h
  · obtain rfl := Except.ok.inj h
    rfl

/-- **The client's agreement is the refinement of its offer.** Without an element
of the extension the server declined; with exactly one, whose parameters refine
what was sealed, and nothing in the way of composing, the client holds to what
both sides said. A client that offered nothing agrees to nothing. -/
theorem clientFinish_refines :
    (∀ (config : ClientConfig) (request request' sent response : HeaderMap) (offer : ClientOffer)
        (handshake : ClientHandshake) (composition : PmdComposition),
      ClientOffer.install config request = .ok (offer, request') →
      offer.sealOffer sent = .ok handshake →
      Field.Conforms Field.Ows (Field.fieldLines response) →
      (handshake.finish response composition = .ok none ↔ selections response = []) ∧
        ∀ n, handshake.finish response composition = .ok (some n) ↔
          composition = .compatible ∧ ∃ e params, selections response = [e] ∧
            Grammar.parseParams e = .ok params ∧ Refines config params ∧ Agrees config params n) ∧
      ∀ (sent response : HeaderMap) (handshake : ClientHandshake) (composition : PmdComposition)
        (n : Negotiated), ClientHandshake.sealWithoutOffer sent = .ok handshake →
        handshake.finish response composition ≠ .ok (some n) := by
  constructor
  · intro config request request' sent response offer handshake composition hinstall hseal hc
    have hv := (Field.validate_iff_conforms response).mpr hc
    obtain ⟨sealedOffer, hoffer, rfl⟩ := offer_of_seal hinstall hseal
    refine ⟨clientFinish_none hv handshake composition, fun n => ?_⟩
    rw [clientFinish_some hv]
    simp only [hoffer, Option.some.injEq, agree_eq_ok, exists_eq_left']
  · intro sent response handshake composition n hseal hfinish
    obtain ⟨_, hvalid, -⟩ := bind_eq_ok.mp hfinish
    obtain ⟨offer, hoffer, -⟩ := (clientFinish_some hvalid).mp hfinish
    rw [offer_of_sealWithoutOffer hseal] at hoffer
    cases hoffer

/-- An offer that bounds the server, and the answer that stays within it. -/
def boundedClient : ClientConfig := { ClientConfig.new with serverMaxWindowBits := ⟨12, by decide⟩ }

def boundedOffer : HeaderMap :=
  HeaderMap.new.append .secWebSocketExtensions (renderOffer boundedClient)

def boundedAnswer : HeaderMap := .ofLines [.fromStatic "x" rfl,
  .fromStatic "permessage-deflate; server_max_window_bits=10; client_max_window_bits=11" rfl]

theorem clientFinish_refines_bounded :
    (ClientHandshake.mk (some ⟨boundedClient, renderOffer boundedClient⟩)).finish boundedAnswer
      .compatible = .ok (some ⟨.client, false, false, 10, 11⟩) :=
  ((clientFinish_refines.1 boundedClient .new boundedOffer boundedOffer boundedAnswer
    ⟨boundedClient, renderOffer boundedClient⟩ _ .compatible (by decide +kernel)
    (by decide +kernel) ((Field.validate_iff_conforms _).mp (by decide +kernel))).2 _).mpr
    ⟨rfl, ascii " permessage-deflate; server_max_window_bits=10; client_max_window_bits=11" |>.tail,
      ⟨false, false, some 10, .bits 11⟩, by decide +kernel, by decide +kernel,
      ⟨nofun, Or.inl ⟨10, rfl, by decide⟩, Or.inr ⟨11, rfl, by decide⟩⟩,
      ⟨rfl, rfl, rfl, rfl, rfl⟩⟩

/-! ## How many selections -/

/-- None of the element's parameters offends. -/
def Sound (e : Bytes) : Prop := ∃ readings, Field.Spells e readings ∧ Field.WellFormed readings

/-- A selection of an accepted field is an extension of the grammar. -/
theorem extension_of_mem_selections {headers : HeaderMap}
    (hv : Grammar.validate headers = .ok ()) {e : Bytes} (he : e ∈ selections headers) :
    Field.Extension Field.Ows e := by
  obtain ⟨hm, hn⟩ := List.mem_filter.mp he
  have hows : ¬ Field.Ows e := by
    rw [← Field.isBlank_iff (header_of_mem_fieldElements hm), isBlank_of_named hn]
    exact nofun
  rcases (Field.validate_iff headers).mp hv with hnil | ⟨hfits, -⟩
  · rw [fieldElements, hnil] at hm
    cases hm
  · exact hfits e hm hows

theorem sound_iff {e : Bytes} (he : Field.Extension Field.Ows e) :
    Sound e ↔ ∃ params, Grammar.parseParams e = .ok params := by
  constructor
  · rintro ⟨readings, hr, hw⟩
    cases hp : Grammar.parseParams e with
    | ok params => exact ⟨params, rfl⟩
    | error err =>
      obtain ⟨before, r, after, rfl, -, ho⟩ := (Field.parseParams_eq_error hr).mp hp
      exact absurd hw ho.not_wellFormed
  · rintro ⟨params, hp⟩
    obtain ⟨readings, hr⟩ := Field.extension_iff_spells.mp he
    exact ⟨readings, hr, ((Field.parseParams_eq_ok hr).mp hp).1⟩

/-- The errors a parameter can cause. -/
def parameterErrors : List NegotiationError :=
  [.unknownParameter, .duplicateParameter, .invalidWindowBits, .parameterArity]

theorem parseParams_error_mem {e : Bytes} (he : Field.Extension Field.Ows e)
    {err : NegotiationError} (h : Grammar.parseParams e = .error err) : err ∈ parameterErrors := by
  obtain ⟨readings, hr⟩ := Field.extension_iff_spells.mp he
  obtain ⟨_, _, _, -, -, ho⟩ := (Field.parseParams_eq_error hr).mp h
  cases ho <;> decide

/-- Two selections are a duplicate, one that was never offered is unsolicited. -/
structure CountReported (handshake : ClientHandshake) (response : HeaderMap)
    (composition : PmdComposition) : Prop where
  duplicate : handshake.offer.isSome → 2 ≤ (selections response).length →
    handshake.finish response composition = .error .duplicateExtension
  unsolicited : handshake.offer = none → (selections response).length = 1 →
    handshake.finish response composition = .error .unsolicitedExtension

/-- No parameter stands in the way of the count. -/
structure CountVisible (handshake : ClientHandshake) (response : HeaderMap) : Prop where
  duplicate : handshake.offer.isSome → 2 ≤ (selections response).length →
    ∀ e ∈ (selections response).take 2, Sound e
  unsolicited : handshake.offer = none → (selections response).length = 1 →
    ∀ e ∈ selections response, Sound e

/-- A second selection is a duplicate when the first two parse. -/
theorem clientFinish_duplicate {response : HeaderMap} (hv : Grammar.validate response = .ok ())
    (handshake : ClientHandshake) (composition : PmdComposition)
    (hlen : 2 ≤ (selections response).length) :
    handshake.finish response composition = .error .duplicateExtension ↔
      ∀ e ∈ (selections response).take 2, Sound e := by
  have hext {e : Bytes} (he : e ∈ selections response) := extension_of_mem_selections hv he
  have hsole := soleDeflate_eq (Field.splits_of_validate hv)
  rw [selectionsIn_pieces] at hsole
  rw [clientFinish_eq hv, hsole]
  match hs : selections response with
  | [] => simp [hs] at hlen
  | [_] => simp [hs] at hlen
  | e :: e' :: rest =>
    rw [hs] at hext
    have he := hext (e := e) (by simp)
    have he' := hext (e := e') (by simp)
    simp only [List.take_succ_cons, List.take_zero, List.forall_mem_cons, List.not_mem_nil,
      false_implies, implies_true, and_true, sound_iff he, sound_iff he']
    cases hp : Grammar.parseParams e with
    | error err =>
      have hm := parseParams_error_mem he hp
      constructor
      · intro h
        obtain rfl := Except.error.inj h
        exact absurd hm (by decide)
      · rintro ⟨⟨_, h⟩, -⟩
        cases h
    | ok params =>
      cases hp' : Grammar.parseParams e' with
      | error err =>
        have hm := parseParams_error_mem he' hp'
        constructor
        · intro h
          obtain rfl := Except.error.inj h
          exact absurd hm (by decide)
        · rintro ⟨-, _, h⟩
          cases h
      | ok params' => exact ⟨fun _ => ⟨⟨params, rfl⟩, params', rfl⟩, fun _ => rfl⟩

/-- A selection nobody asked for is unsolicited when it parses. -/
theorem clientFinish_unsolicited {response : HeaderMap} (hv : Grammar.validate response = .ok ())
    {handshake : ClientHandshake} (hoffer : handshake.offer = none) (composition : PmdComposition)
    (hlen : (selections response).length = 1) :
    handshake.finish response composition = .error .unsolicitedExtension ↔
      ∀ e ∈ selections response, Sound e := by
  obtain ⟨e, hs⟩ := List.length_eq_one_iff.mp hlen
  have he := extension_of_mem_selections hv (e := e) (by rw [hs]; simp)
  have hsole : soleDeflate response = (Grammar.parseParams e).map some := by
    rw [soleDeflate_eq (Field.splits_of_validate hv), selectionsIn_pieces, hs]
  rw [clientFinish_eq hv, hsole, hs, List.forall_mem_singleton, sound_iff he, hoffer]
  cases hp : Grammar.parseParams e with
  | error err =>
    have hm := parseParams_error_mem he hp
    constructor
    · intro h
      obtain rfl := Except.error.inj h
      exact absurd hm (by decide)
    · rintro ⟨_, h⟩
      cases h
  | ok params => exact ⟨fun _ => ⟨params, rfl⟩, fun _ => rfl⟩

/-- **When the count decides.** A client reports a duplicated or an unsolicited
selection exactly when no parameter fault is met before the count is known. -/
theorem selection_count_decides_iff (handshake : ClientHandshake) (response : HeaderMap)
    (composition : PmdComposition)
    (hc : Field.Conforms Field.Ows (Field.fieldLines response)) :
    CountReported handshake response composition ↔ CountVisible handshake response := by
  have hv := (Field.validate_iff_conforms response).mpr hc
  constructor
  · intro h
    refine ⟨fun ho hlen => ?_, fun ho hlen => ?_⟩
    · exact (clientFinish_duplicate hv handshake composition hlen).mp (h.duplicate ho hlen)
    · exact (clientFinish_unsolicited hv ho composition hlen).mp (h.unsolicited ho hlen)
  · intro h
    refine ⟨fun ho hlen => ?_, fun ho hlen => ?_⟩
    · exact (clientFinish_duplicate hv handshake composition hlen).mpr (h.duplicate ho hlen)
    · exact (clientFinish_unsolicited hv ho composition hlen).mpr (h.unsolicited ho hlen)

/-- Two selections, the first with a parameter nobody defined. -/
def twoSelections : HeaderMap :=
  .ofLines [.fromStatic "permessage-deflate; foo" rfl, .fromStatic "permessage-deflate" rfl]

/-- One selection with such a parameter. -/
def oneSelection : HeaderMap := .ofLines [.fromStatic "permessage-deflate; foo" rfl]

/-- The parameter is reported, and neither a second selection nor one that nobody
asked for. -/
theorem selection_count_hidden :
    (Field.Conforms Field.Ows (Field.fieldLines twoSelections) ∧
      (ClientHandshake.mk (some ⟨.new, renderOffer .new⟩)).finish twoSelections .compatible =
        .error .unknownParameter ∧
      ¬ CountReported ⟨some ⟨.new, renderOffer .new⟩⟩ twoSelections .compatible) ∧
    Field.Conforms Field.Ows (Field.fieldLines oneSelection) ∧
      (ClientHandshake.mk none).finish oneSelection .compatible = .error .unknownParameter ∧
      ¬ CountReported ⟨none⟩ oneSelection .compatible := by
  have htwo : (ClientHandshake.mk (some ⟨.new, renderOffer .new⟩)).finish twoSelections
      .compatible = .error .unknownParameter := by decide +kernel
  have hone : (ClientHandshake.mk none).finish oneSelection .compatible =
      .error .unknownParameter := by decide +kernel
  refine ⟨⟨(Field.validate_iff_conforms _).mp (by decide +kernel), htwo, fun h => ?_⟩,
    (Field.validate_iff_conforms _).mp (by decide +kernel), hone, fun h => ?_⟩
  · have hdup := h.duplicate rfl (by decide +kernel)
    rw [htwo] at hdup
    cases hdup
  · have hunsolicited := h.unsolicited rfl (by decide +kernel)
    rw [hone] at hunsolicited
    cases hunsolicited

/-- Two selections on one line, each of them an answer that parses. -/
def soundSelections : HeaderMap :=
  .ofLines [.fromStatic "permessage-deflate, permessage-deflate; client_max_window_bits=11" rfl]

theorem soundSelections_sound : ∀ e ∈ selections soundSelections, Sound e := by
  have hv : Grammar.validate soundSelections = .ok () := by decide +kernel
  have hboth : selections soundSelections = [ascii "permessage-deflate",
      ascii " permessage-deflate; client_max_window_bits=11"] := by decide +kernel
  intro e he
  refine (sound_iff (extension_of_mem_selections hv he)).mpr ?_
  rw [hboth] at he
  rcases List.mem_pair.mp he with rfl | rfl
  · exact ⟨⟨false, false, none, .absent⟩, by decide +kernel⟩
  · exact ⟨⟨false, false, none, .bits 11⟩, by decide +kernel⟩

theorem selection_count_decides_two :
    (ClientHandshake.mk (some ⟨.new, renderOffer .new⟩)).finish soundSelections .conflict =
      .error .duplicateExtension :=
  ((selection_count_decides_iff ⟨some ⟨.new, renderOffer .new⟩⟩ soundSelections .conflict
    ((Field.validate_iff_conforms _).mp (by decide +kernel))).mpr
      ⟨fun _ _ e he => soundSelections_sound e (List.mem_of_mem_take he),
        fun _ _ => soundSelections_sound⟩).duplicate rfl (by decide +kernel)

end WsPmd.Handshake
