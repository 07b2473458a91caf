import WsPmd.Handshake.Rendering
import WsPmd.Handshake.Selections
import WsPmd.Handshake.Windows

/-!
# The server's choice

A server takes the first alternative it can support, and narrows it. One narrowed
width is written three times: into the agreement, into the proposal, and into
what the proposal means to whoever parses it. The three are tied together here,
then the response that is sent is held against the proposal.
-/

namespace WsPmd.Handshake

open Grammar (Bytes ClientWindow Params)

/-! ## Alternatives -/

/-- What a server can answer at all: the client did not bound it to 8, and a client
that has to be narrowed said it can be. -/
structure Supportable (config : ServerConfig) (offer : Params) : Prop where
  server : offer.serverMaxWindowBits ≠ some 8
  client : config.supportedClientMaxWindowBits < 15 → offer.clientMaxWindowBits ≠ .absent

/-- An element a server could select. -/
def Alternative (config : ServerConfig) (element : Bytes) : Prop :=
  ∃ offer, Grammar.parseParams element = .ok offer ∧ Supportable config offer

/-- A client window on the wire, absent meaning full. -/
def agreedClientWindow : ClientWindow → ℕ
  | .bits bits => bits
  | .absent => 15
  | .valueless => 15

/-- What a selection promises: the proposal read back is the agreement, and both
narrow the offer and the configuration. -/
structure Narrows (config : ServerConfig) (offer : Params) (h : ServerHandshake)
    (response : Params) : Prop where
  element : Grammar.elements h.proposed.bytes = .ok [h.proposed.bytes]
  names : Grammar.isDeflate h.proposed.bytes = .ok true
  parsed : Grammar.parseParams h.proposed.bytes = .ok response
  agreement : h.agreement = {
    role := .server
    serverNoContextTakeover := response.serverNoContextTakeover
    clientNoContextTakeover := response.clientNoContextTakeover
    serverMaxWindowBits := response.serverMaxWindowBits.getD 15
    clientMaxWindowBits := agreedClientWindow response.clientMaxWindowBits }
  valued : response.clientMaxWindowBits ≠ .valueless
  server_takeover : response.serverNoContextTakeover =
    (config.imposesServerNoContextTakeover || offer.serverNoContextTakeover)
  client_takeover : response.clientNoContextTakeover =
    (config.imposesClientNoContextTakeover || offer.clientNoContextTakeover)
  server_le : h.agreement.serverMaxWindowBits ≤ config.supportedServerMaxWindowBits
  server_offer : ∀ bits, offer.serverMaxWindowBits = some bits →
    h.agreement.serverMaxWindowBits ≤ bits
  client_le : h.agreement.clientMaxWindowBits ≤ config.supportedClientMaxWindowBits
  client_offer : ∀ bits, offer.clientMaxWindowBits = .bits bits →
    h.agreement.clientMaxWindowBits ≤ bits
  server_named : offer.serverMaxWindowBits.isSome → response.serverMaxWindowBits.isSome
  client_named : response.clientMaxWindowBits ≠ .absent → offer.clientMaxWindowBits ≠ .absent
  client_narrow : response.clientMaxWindowBits ≠ .absent ↔ h.agreement.clientMaxWindowBits < 15

/-! ## One alternative -/

theorem select_eq_some {config : ServerConfig} {offer : Params} {h : ServerHandshake} :
    select config offer = some h ↔ ∃ server client,
      selectServerWindow config offer = some server ∧
      selectClientWindow config offer = some client ∧
      h = {
        proposed := render
          (config.imposesServerNoContextTakeover || offer.serverNoContextTakeover)
          (config.imposesClientNoContextTakeover || offer.clientNoContextTakeover) server
          (selectClientBits client)
        agreement := {
          role := .server
          serverNoContextTakeover :=
            config.imposesServerNoContextTakeover || offer.serverNoContextTakeover
          clientNoContextTakeover :=
            config.imposesClientNoContextTakeover || offer.clientNoContextTakeover
          serverMaxWindowBits := server.getD maxWindowBits
          clientMaxWindowBits := client.getD maxWindowBits } } := by
  unfold select
  simp only [Option.bind_eq_bind, Option.bind_eq_some_iff, Option.some.injEq]
  constructor
  · rintro ⟨server, hs, client, hc, rfl⟩
    exact ⟨server, client, hs, hc, rfl⟩
  · rintro ⟨server, client, hs, hc, rfl⟩
    exact ⟨server, hs, client, hc, rfl⟩

theorem selectServerWindow_isSome (config : ServerConfig) (offer : Params) :
    (∃ window, selectServerWindow config offer = some window) ↔
      offer.serverMaxWindowBits ≠ some 8 := by
  unfold selectServerWindow
  cases offer.serverMaxWindowBits with
  | none =>
    by_cases hlt : config.supportedServerMaxWindowBits < maxWindowBits <;> simp [hlt]
  | some bits =>
    by_cases h8 : bits = 8 <;> simp [h8]

theorem selectClientWindow_isSome (config : ServerConfig) (offer : Params) :
    (∃ window, selectClientWindow config offer = some window) ↔
      (config.supportedClientMaxWindowBits < 15 → offer.clientMaxWindowBits ≠ .absent) := by
  unfold selectClientWindow maxWindowBits
  cases offer.clientMaxWindowBits with
  | absent =>
    by_cases hlt : config.supportedClientMaxWindowBits < 15 <;> simp [hlt]
  | valueless => simp
  | bits bits => simp

/-- A server declines exactly what it cannot support. -/
theorem select_isSome_iff {config : ServerConfig} {offer : Params} :
    (∃ h, select config offer = some h) ↔ Supportable config offer := by
  constructor
  · rintro ⟨h, hsel⟩
    obtain ⟨server, client, hs, hc, -⟩ := select_eq_some.mp hsel
    exact ⟨(selectServerWindow_isSome config offer).mp ⟨server, hs⟩,
      (selectClientWindow_isSome config offer).mp ⟨client, hc⟩⟩
  · intro h
    obtain ⟨server, hs⟩ := (selectServerWindow_isSome config offer).mpr h.server
    obtain ⟨client, hc⟩ := (selectClientWindow_isSome config offer).mpr h.client
    exact ⟨_, select_eq_some.mpr ⟨server, client, hs, hc, rfl⟩⟩

/-! ## What a selection means -/

theorem selectServerWindow_narrows {config : ServerConfig} {offer : Params} {window : Option ℕ}
    (h : selectServerWindow config offer = some window) :
    window.getD 15 ≤ config.supportedServerMaxWindowBits ∧
      (∀ bits, offer.serverMaxWindowBits = some bits → window.getD 15 ≤ bits) ∧
      (offer.serverMaxWindowBits.isSome → window.isSome) := by
  have hconfig : config.supportedServerMaxWindowBits ≤ 15 := config.serverMaxWindowBits.property.2
  unfold selectServerWindow maxWindowBits at h
  cases hw : offer.serverMaxWindowBits with
  | some wire =>
    simp only [hw] at h
    split at h
    · cases h
    · obtain rfl := Option.some.inj h
      refine ⟨Nat.min_le_right _ _, fun bits hb => ?_, fun _ => rfl⟩
      obtain rfl := Option.some.inj hb
      exact Nat.min_le_left _ _
  | none =>
    simp only [hw] at h
    refine ⟨?_, nofun, nofun⟩
    split at h
    · exact (Option.some.inj h) ▸ Nat.le_refl _
    · obtain rfl := Option.some.inj h
      rw [Option.getD_none]
      omega

theorem selectClientWindow_narrows {config : ServerConfig} {offer : Params} {window : Option ℕ}
    (h : selectClientWindow config offer = some window) :
    window.getD 15 ≤ config.supportedClientMaxWindowBits ∧
      (∀ bits, offer.clientMaxWindowBits = .bits bits → window.getD 15 ≤ bits) ∧
      (window.isSome → offer.clientMaxWindowBits ≠ .absent) := by
  have hconfig : config.supportedClientMaxWindowBits ≤ 15 := config.clientMaxWindowBits.property.2
  unfold selectClientWindow maxWindowBits at h
  cases hw : offer.clientMaxWindowBits with
  | absent =>
    simp only [hw] at h
    split at h
    · cases h
    · obtain rfl := Option.some.inj h
      refine ⟨?_, nofun, nofun⟩
      rw [Option.getD_none]
      omega
  | valueless =>
    simp only [hw] at h
    obtain rfl := Option.some.inj h
    exact ⟨Nat.le_refl _, nofun, fun _ => nofun⟩
  | bits wire =>
    simp only [hw] at h
    obtain rfl := Option.some.inj h
    refine ⟨Nat.min_le_right _ _, fun bits hb => ?_, fun _ => nofun⟩
    obtain rfl := ClientWindow.bits.inj hb
    exact Nat.min_le_left _ _

/-- A window is put on the wire when it is not full. -/
theorem selectClientBits_eq {window : Option ℕ} (h : window.getD 15 ≤ 15) :
    selectClientBits window =
      if window.getD 15 < 15 then .bits (window.getD 15) else .omitted := by
  cases window with
  | none => rfl
  | some bits =>
    by_cases hb : bits < 15 <;> simp [selectClientBits, maxWindowBits, Option.filter, hb]

/-- Every selection narrows, and its proposal says so. -/
theorem select_narrows {config : ServerConfig} {offer : Params} {h : ServerHandshake}
    (hp : ParamsInRange offer) (hsel : select config offer = some h) :
    ∃ response, Narrows config offer h response := by
  obtain ⟨server, client, hs, hc, rfl⟩ := select_eq_some.mp hsel
  obtain ⟨hs1, hs2⟩ := selectServerWindow_range hp hs
  obtain ⟨hc1, hc2⟩ := selectClientWindow_range hp hc
  obtain ⟨hserver, hserver_offer, hserver_named⟩ := selectServerWindow_narrows hs
  obtain ⟨hclient, hclient_offer, hclient_named⟩ := selectClientWindow_narrows hc
  unfold maxWindowBits at hs1 hs2 hc1 hc2
  have hbits := selectClientBits_eq hc2
  have hrender : Renderable server (selectClientBits client) := by
    refine ⟨fun bits hb => ?_, fun bits hb => ?_⟩
    · subst hb
      exact ⟨by simp only [Option.getD_some] at hs1; omega, hs2⟩
    · rw [hbits] at hb
      split at hb
      · exact ClientBits.bits.inj hb ▸ ⟨hc1, hc2⟩
      · cases hb
  have hread : agreedClientWindow ((clientWindowOf (selectClientBits client)).getD .absent) =
      client.getD 15 := by
    rw [hbits]
    split
    · rfl
    · show 15 = _
      omega
  have hnarrow : (clientWindowOf (selectClientBits client)).getD .absent ≠ .absent ↔
      client.getD 15 < 15 := by
    rw [hbits]
    split
    · next hlt => exact ⟨fun _ => hlt, fun _ => nofun⟩
    · next hge => exact ⟨fun hn => absurd rfl hn, fun hlt => absurd hlt hge⟩
  refine ⟨_, ?_, isDeflate_text hrender _ _, parseParams_text hrender _ _, ?_, ?_, rfl, rfl,
    hserver, hserver_offer, hclient, hclient_offer, hserver_named, ?_, hnarrow⟩
  · have hext := (extension_text hrender
      (config.imposesServerNoContextTakeover || offer.serverNoContextTakeover)
      (config.imposesClientNoContextTakeover || offer.clientNoContextTakeover)).whole_comma
        fun _ => id
    exact Field.split_eq_ok.mpr (Library.Quoted.split_whole hext.1)
  · rw [hread]
    rfl
  · rw [hbits]
    split <;> nofun
  · intro hn
    apply hclient_named
    cases client with
    | some bits => rfl
    | none => exact absurd (hnarrow.mp hn) (Nat.lt_irrefl 15)

/-! ## The field -/

/-- **The server's choice.** On a conforming request a server never fails. It
selects nothing when no element of the extension is an alternative it can
support; otherwise it selects the first that is, and the proposal means exactly
the agreement that is stored with it. -/
theorem accept_first_supportable (config : ServerConfig) (request : HeaderMap)
    (hc : Field.Conforms Field.Ows (Field.fieldLines request)) :
    (∃ choice, ServerHandshake.accept config request = .ok choice) ∧
      (ServerHandshake.accept config request = .ok none ↔
        ∀ e ∈ selections request, ¬ Alternative config e) ∧
      ∀ h, ServerHandshake.accept config request = .ok (some h) →
        ∃ before e after offer response,
          selections request = before ++ e :: after ∧
          (∀ e' ∈ before, ¬ Alternative config e') ∧
          Grammar.parseParams e = .ok offer ∧ Supportable config offer ∧
          Narrows config offer h response := by
  have hv := (Field.validate_iff_conforms request).mpr hc
  have hnone (e : Bytes) : (Grammar.parseParams e).toOption.bind (select config) = none ↔
      ¬ Alternative config e := by
    unfold Alternative
    simp only [← select_isSome_iff]
    cases hp : Grammar.parseParams e with
    | error _ => simp [Except.toOption]
    | ok offer =>
      show select config offer = none ↔ _
      cases hsel : select config offer <;> simp [hsel]
  rw [accept_eq hv]
  refine ⟨⟨_, rfl⟩, ?_, fun h hfound => ?_⟩
  · rw [Except.ok.injEq, List.findSome?_eq_none_iff]
    exact forall₂_congr fun e _ => hnone e
  · obtain ⟨before, e, after, hsplit, hsel, hbefore⟩ :=
      List.findSome?_eq_some_iff.mp (Except.ok.inj hfound)
    cases hp : Grammar.parseParams e with
    | error _ => rw [hp] at hsel; cases hsel
    | ok offer =>
      rw [hp] at hsel
      have hsel : select config offer = some h := hsel
      obtain ⟨response, hresponse⟩ := select_narrows (parseParams_inRange hp) hsel
      exact ⟨before, e, after, offer, response, hsplit,
        fun e' he' => (hnone e').mp (hbefore e' he'), hp,
        select_isSome_iff.mp ⟨h, hsel⟩, hresponse⟩

/-- Two lines, the first alternative out of range, the second without a window. -/
def threeAlternatives : HeaderMap :=
  .ofLines [.fromStatic "permessage-deflate; client_max_window_bits=16, x" rfl,
    .fromStatic "permessage-deflate, permessage-deflate; client_max_window_bits" rfl]

def narrowServer : ServerConfig := { ServerConfig.new with clientMaxWindowBits := ⟨11, by decide⟩ }

def thirdChoice : ServerHandshake where
  proposed := render false false none (.bits 11)
  agreement := ⟨.server, false, false, 15, 11⟩

theorem accept_first_supportable_third :
    ∃ before e after offer response,
      selections threeAlternatives = before ++ e :: after ∧
      (∀ e' ∈ before, ¬ Alternative narrowServer e') ∧
      Grammar.parseParams e = .ok offer ∧ Supportable narrowServer offer ∧
      Narrows narrowServer offer thirdChoice response :=
  (accept_first_supportable narrowServer threeAlternatives
    ((Field.validate_iff_conforms _).mp (by decide +kernel))).2.2 thirdChoice (by decide +kernel)

/-! ## The response that is sent -/

/-- One element of the response names the extension, and trims to the proposal. -/
def Carries (handshake : ServerHandshake) (response : HeaderMap) : Prop :=
  ∃ e, selections response = [e] ∧ Grammar.trim e = handshake.proposed.bytes

theorem countExact_response {response : HeaderMap} (hv : Grammar.validate response = .ok ())
    (handshake : ServerHandshake) :
    countExact response handshake.proposed.bytes .responseAltered =
      if ∀ e ∈ selections response, Grammar.trim e = handshake.proposed.bytes then
        .ok (selections response).length
      else .error .responseAltered :=
  countExact_eq (Field.splits_of_validate hv) _ _

theorem carries_iff {handshake : ServerHandshake} {response : HeaderMap} :
    Carries handshake response ↔ (selections response).length = 1 ∧
      ∀ e ∈ selections response, Grammar.trim e = handshake.proposed.bytes := by
  rw [List.length_eq_one_iff]
  constructor
  · rintro ⟨e, he, ht⟩
    rw [he]
    exact ⟨⟨e, rfl⟩, List.forall_mem_singleton.mpr ht⟩
  · rintro ⟨⟨e, he⟩, ht⟩
    exact ⟨e, he, ht e (he ▸ List.mem_singleton_self e)⟩

instance (handshake : ServerHandshake) (response : HeaderMap) :
    Decidable (Carries handshake response) :=
  decidable_of_iff _ carries_iff.symm

/-- What the server makes of a conforming response, in its order of precedence. -/
theorem serverFinish_eq {response : HeaderMap} (hv : Grammar.validate response = .ok ())
    (handshake : ServerHandshake) (composition : PmdComposition) :
    handshake.finish response composition =
      if selections response = [] then .ok none
      else if Carries handshake response then
        if composition = .conflict then .error .extensionConflict
        else .ok (some handshake.agreement)
      else .error .responseAltered := by
  rw [ServerHandshake.finish, hv]
  show (countExact response handshake.proposed.bytes .responseAltered >>= _) = _
  rw [countExact_response hv]
  by_cases hall : ∀ e ∈ selections response, Grammar.trim e = handshake.proposed.bytes
  · rw [if_pos hall]
    have hcarries : Carries handshake response ↔ (selections response).length = 1 :=
      carries_iff.trans (and_iff_left hall)
    show (if (selections response).length = 0 then _ else if _ then _ else _) = _
    simp only [hcarries, List.length_eq_zero_iff]
    rfl
  · have hne : selections response ≠ [] := by
      intro hnil
      apply hall
      rw [hnil]
      exact nofun
    rw [if_neg hall, if_neg hne, if_neg fun h => hall (carries_iff.mp h).2]
    rfl

/-- **The server commits the exact proposal or nothing.** A response without the
extension declines it; one that carries the proposal once commits the stored
agreement, or reports a conflict; anything else was altered, and that outranks
the conflict wherever in the field it stands. -/
theorem serverFinish_decides (handshake : ServerHandshake) (response : HeaderMap)
    (composition : PmdComposition)
    (hc : Field.Conforms Field.Ows (Field.fieldLines response)) :
    (handshake.finish response composition = .ok none ↔ (selections response).length = 0) ∧
      (∀ agreement, handshake.finish response composition = .ok (some agreement) ↔
        Carries handshake response ∧ composition = .compatible ∧
          agreement = handshake.agreement) ∧
      (handshake.finish response composition = .error .extensionConflict ↔
        Carries handshake response ∧ composition = .conflict) ∧
      (handshake.finish response composition = .error .responseAltered ↔
        (selections response).length ≠ 0 ∧ ¬ Carries handshake response) := by
  have hv := (Field.validate_iff_conforms response).mpr hc
  rw [List.length_eq_zero_iff, serverFinish_eq hv]
  by_cases hnil : selections response = []
  · have hnot : ¬ Carries handshake response := by
      rintro ⟨e, he, -⟩
      rw [hnil] at he
      cases he
    simp [hnil, hnot]
  by_cases hcarries : Carries handshake response
  · cases composition <;> simp [hnil, hcarries, eq_comm]
  · simp [hnil, hcarries]

/-- The proposal, on the second line of a response that also names another extension. -/
def carriedResponse : HeaderMap :=
  .ofLines [.fromStatic "x-other" rfl,
    .fromStatic " permessage-deflate; client_max_window_bits=11" rfl]

theorem serverFinish_decides_carried :
    thirdChoice.finish carriedResponse .conflict = .error .extensionConflict :=
  (serverFinish_decides thirdChoice carriedResponse .conflict
    ((Field.validate_iff_conforms _).mp (by decide +kernel))).2.2.1.mpr ⟨by decide +kernel, rfl⟩

end WsPmd.Handshake
