import WsPmd.Handshake.Choice
import WsPmd.Handshake.Elements

/-!
# The two handshakes agree

What a client renders, a server parses back; what the server selects from it and
renders, the client parses back and refines its offer with. Both ends then hold
the same four parameters, each under its own name for them. The one width they
cannot share is a client window of 8, which no compressor can be built for.
-/

namespace WsPmd.Handshake

open Grammar (Bytes ClientWindow Params)

/-! ## What a client offers -/

def offeredServerBits (config : ClientConfig) : Option ℕ :=
  if config.offeredServerMaxWindowBits = maxWindowBits then none
  else some config.offeredServerMaxWindowBits

def offeredClientBits (config : ClientConfig) : ClientBits :=
  if config.offeredClientMaxWindowBits = maxWindowBits then .valueless
  else .bits config.offeredClientMaxWindowBits

theorem offered_server_range (config : ClientConfig) :
    WireBits config.offeredServerMaxWindowBits := config.serverMaxWindowBits.property

theorem offered_client_range (config : ClientConfig) :
    9 ≤ config.offeredClientMaxWindowBits ∧ config.offeredClientMaxWindowBits ≤ 15 :=
  config.clientMaxWindowBits.property

theorem offered_renderable (config : ClientConfig) :
    Renderable (offeredServerBits config) (offeredClientBits config) where
  server := by
    intro bits h
    unfold offeredServerBits at h
    split at h
    · cases h
    · exact Option.some.inj h ▸ offered_server_range config
  client := by
    intro bits h
    unfold offeredClientBits at h
    split at h
    · cases h
    · obtain ⟨hlo, hhi⟩ := offered_client_range config
      exact ClientBits.bits.inj h ▸ ⟨by omega, hhi⟩

/-- The offer as the server parses it. -/
def offeredParams (config : ClientConfig) : Params where
  serverNoContextTakeover := config.requiresServerNoContextTakeover
  clientNoContextTakeover := config.offersClientNoContextTakeover
  serverMaxWindowBits := offeredServerBits config
  clientMaxWindowBits := (clientWindowOf (offeredClientBits config)).getD .absent

/-! ## What a server answers -/

theorem supported_server_range (config : ServerConfig) :
    9 ≤ config.supportedServerMaxWindowBits ∧ config.supportedServerMaxWindowBits ≤ 15 :=
  config.serverMaxWindowBits.property

theorem supported_client_range (config : ServerConfig) :
    WireBits config.supportedClientMaxWindowBits := config.clientMaxWindowBits.property

/-- The server's window for this offer: declined at 8, unnamed when both ends are full. -/
theorem selectServerWindow_offered (client : ClientConfig) (server : ServerConfig) :
    selectServerWindow server (offeredParams client) =
      if client.offeredServerMaxWindowBits = 8 then none
      else if client.offeredServerMaxWindowBits = maxWindowBits ∧
          server.supportedServerMaxWindowBits = maxWindowBits then some none
      else some (some (min client.offeredServerMaxWindowBits
        server.supportedServerMaxWindowBits)) := by
  obtain ⟨hc1, hc2⟩ := offered_server_range client
  obtain ⟨hs1, hs2⟩ := supported_server_range server
  simp only [selectServerWindow, offeredParams, offeredServerBits, maxWindowBits] at *
  by_cases hfull : client.offeredServerMaxWindowBits = 15
  · simp only [hfull, if_true, true_and]
    by_cases hsupp : server.supportedServerMaxWindowBits = 15
    · simp [hsupp]
    · have hlt : server.supportedServerMaxWindowBits < 15 := by omega
      simp [hsupp, hlt, Nat.min_eq_right hs2]
  · simp only [hfull, if_false, false_and]

/-- The client always says that it understands the parameter, so its window is
always named. -/
theorem selectClientWindow_offered (client : ClientConfig) (server : ServerConfig) :
    selectClientWindow server (offeredParams client) =
      some (some (min client.offeredClientMaxWindowBits server.supportedClientMaxWindowBits)) := by
  obtain ⟨hs1, hs2⟩ := supported_client_range server
  simp only [selectClientWindow, offeredParams, offeredClientBits, maxWindowBits] at *
  by_cases hfull : client.offeredClientMaxWindowBits = 15
  · simp [hfull, clientWindowOf, Nat.min_eq_right hs2]
  · simp [hfull, clientWindowOf]

theorem selectClientBits_some (bits : ℕ) :
    selectClientBits (some bits) =
      if bits < maxWindowBits then .bits bits else .omitted := by
  by_cases h : bits < maxWindowBits
  · simp only [selectClientBits, Option.filter, h, decide_true, if_true]
  · simp only [selectClientBits, Option.filter, h, decide_false, if_false, Bool.false_eq_true]

/-! ## What the client concludes -/

/-- The client reads the server's window off the answer exactly as the server holds it. -/
theorem serverWindow_answered {client : ClientConfig} {server : ServerConfig}
    {window : Option ℕ} (h : selectServerWindow server (offeredParams client) = some window)
    (offer : SealedOffer) (ho : offer.config = client) (params : Params)
    (hp : params.serverMaxWindowBits = window) :
    offer.serverWindow params = .ok (window.getD maxWindowBits) := by
  obtain ⟨hs1, hs2⟩ := supported_server_range server
  rw [selectServerWindow_offered] at h
  unfold SealedOffer.serverWindow
  rw [hp, ho]
  split at h
  · cases h
  split at h
  · next hfull =>
    obtain rfl := Option.some.inj h
    simp [hfull.1]
  · obtain rfl := Option.some.inj h
    have hle := Nat.not_lt.mpr (Nat.min_le_left client.offeredServerMaxWindowBits
      server.supportedServerMaxWindowBits)
    simp [hle]

theorem clientWindow_answered (client : ClientConfig) (server : ServerConfig)
    (offer : SealedOffer) (ho : offer.config = client) (params : Params)
    (hp : params.clientMaxWindowBits = (clientWindowOf (selectClientBits (some
      (min client.offeredClientMaxWindowBits server.supportedClientMaxWindowBits)))).getD .absent) :
    offer.clientWindow params =
      if server.supportedClientMaxWindowBits = 8 then .error .clientWindowTooNarrow
      else .ok (min client.offeredClientMaxWindowBits server.supportedClientMaxWindowBits) := by
  obtain ⟨hc1, hc2⟩ := offered_client_range client
  obtain ⟨hs1, hs2⟩ := supported_client_range server
  unfold SealedOffer.clientWindow
  rw [hp, ho, selectClientBits_some]
  unfold maxWindowBits
  by_cases hnarrow : min client.offeredClientMaxWindowBits server.supportedClientMaxWindowBits < 15
  · rw [if_pos hnarrow]
    show (if min client.offeredClientMaxWindowBits server.supportedClientMaxWindowBits < 9 then _
      else _) = _
    by_cases h8 : server.supportedClientMaxWindowBits = 8
    · rw [if_pos (by omega), if_pos h8]
    · rw [if_neg (by omega), if_neg h8]
      congr 1
      omega
  · rw [if_neg hnarrow]
    show Except.ok client.offeredClientMaxWindowBits = _
    rw [if_neg (by omega)]
    congr 1
    omega

/-! ## The agreement -/

/-- Each end's words for the two ends' parameters, crosswise equal. -/
structure Mirrored (client server : Negotiated) : Prop where
  local_window : client.localMaxWindowBits = server.peerMaxWindowBits
  peer_window : client.peerMaxWindowBits = server.localMaxWindowBits
  local_takeover : client.localNoContextTakeover = server.peerNoContextTakeover
  peer_takeover : client.peerNoContextTakeover = server.localNoContextTakeover

/-- A selection made from a client's own offer. -/
structure Selected (client : ClientConfig) (server : ServerConfig) (h : ServerHandshake)
    (window : Option ℕ) : Prop where
  window_eq : selectServerWindow server (offeredParams client) = some window
  proposed : h.proposed = render
    (server.imposesServerNoContextTakeover || client.requiresServerNoContextTakeover)
    (server.imposesClientNoContextTakeover || client.offersClientNoContextTakeover) window
    (selectClientBits (some
      (min client.offeredClientMaxWindowBits server.supportedClientMaxWindowBits)))
  agreement : h.agreement = {
    role := .server
    serverNoContextTakeover :=
      server.imposesServerNoContextTakeover || client.requiresServerNoContextTakeover
    clientNoContextTakeover :=
      server.imposesClientNoContextTakeover || client.offersClientNoContextTakeover
    serverMaxWindowBits := window.getD maxWindowBits
    clientMaxWindowBits :=
      min client.offeredClientMaxWindowBits server.supportedClientMaxWindowBits }

/-- The offer is declined for a server window of 8 and selected otherwise. -/
theorem select_offered (client : ClientConfig) (server : ServerConfig) :
    (client.offeredServerMaxWindowBits = 8 → select server (offeredParams client) = none) ∧
      (client.offeredServerMaxWindowBits ≠ 8 → ∃ h window,
        select server (offeredParams client) = some h ∧ Selected client server h window) := by
  have hselect (window : Option ℕ)
      (hw : selectServerWindow server (offeredParams client) = some window) :
      ∃ h window', select server (offeredParams client) = some h ∧
        Selected client server h window' :=
    ⟨_, window, select_eq_some.mpr
      ⟨window, _, hw, selectClientWindow_offered client server, rfl⟩, hw, rfl, rfl⟩
  have hwindow := selectServerWindow_offered client server
  constructor
  · intro h8
    rw [if_pos h8] at hwindow
    apply Option.eq_none_iff_forall_ne_some.mpr
    intro h hsel
    obtain ⟨window, -, hs, -⟩ := select_eq_some.mp hsel
    cases hwindow.symm.trans hs
  · intro h8
    rw [if_neg h8] at hwindow
    split at hwindow
    · exact hselect none hwindow
    · exact hselect _ hwindow

theorem selected_renderable {client : ClientConfig} {server : ServerConfig} {h : ServerHandshake}
    {window : Option ℕ} (hsel : Selected client server h window) :
    Renderable window (selectClientBits (some
      (min client.offeredClientMaxWindowBits server.supportedClientMaxWindowBits))) where
  server := by
    intro bits hb
    have hw := hsel.window_eq
    obtain ⟨hc1, hc2⟩ := offered_server_range client
    obtain ⟨hs1, hs2⟩ := supported_server_range server
    rw [selectServerWindow_offered, hb] at hw
    split at hw
    · cases hw
    split at hw
    · cases hw
    · obtain rfl := Option.some.inj (Option.some.inj hw)
      exact ⟨by omega, by omega⟩
  client := by
    intro bits hb
    obtain ⟨hc1, hc2⟩ := offered_client_range client
    obtain ⟨hs1, hs2⟩ := supported_client_range server
    rw [selectClientBits_some] at hb
    split at hb
    · obtain rfl := ClientBits.bits.inj hb
      exact ⟨by omega, by omega⟩
    · cases hb

/-- The server commits its selection to any response that carries it. -/
theorem serverFinish_selected {client : ClientConfig} {server : ServerConfig}
    {h : ServerHandshake} {window : Option ℕ} (hsel : Selected client server h window)
    {response : HeaderMap} (hv : Grammar.validate response = .ok ())
    (hsole : SoleElement response h.proposed.bytes) :
    h.finish response .compatible = .ok (some h.agreement) := by
  rw [hsel.proposed] at hsole
  have hcount := countExact_sole hv (selected_renderable hsel) hsole .responseAltered
  have hbytes : h.proposed.bytes = _ := congrArg HeaderValue.bytes hsel.proposed
  rw [ServerHandshake.finish, hv]
  show (countExact response h.proposed.bytes .responseAltered >>= _) = _
  rw [hbytes]
  show (countExact response (Render.text _ _ _ _) .responseAltered >>= _) = _
  rw [hcount]
  rfl

theorem clientFinish_selected {client : ClientConfig} {server : ServerConfig}
    {h : ServerHandshake} {window : Option ℕ} (hsel : Selected client server h window)
    {response : HeaderMap} (hv : Grammar.validate response = .ok ())
    (hsole : SoleElement response h.proposed.bytes) (sealedValue : HeaderValue) :
    (ClientHandshake.mk (some ⟨client, sealedValue⟩)).finish response .compatible =
      if server.supportedClientMaxWindowBits = 8 then .error .clientWindowTooNarrow
      else .ok (some {
        role := .client
        serverNoContextTakeover := h.agreement.serverNoContextTakeover
        clientNoContextTakeover := h.agreement.clientNoContextTakeover
        serverMaxWindowBits := h.agreement.serverMaxWindowBits
        clientMaxWindowBits := h.agreement.clientMaxWindowBits }) := by
  rw [hsel.proposed] at hsole
  have hparams := soleDeflate_sole hv (selected_renderable hsel) hsole
  rw [ClientHandshake.finish, hv]
  show (soleDeflate response >>= _) = _
  rw [hparams]
  show (SealedOffer.agree ⟨client, sealedValue⟩ _).map some = _
  have hserver := serverWindow_answered hsel.window_eq ⟨client, sealedValue⟩ rfl
    ⟨server.imposesServerNoContextTakeover || client.requiresServerNoContextTakeover,
      server.imposesClientNoContextTakeover || client.offersClientNoContextTakeover, window,
      (clientWindowOf (selectClientBits (some (min client.offeredClientMaxWindowBits
        server.supportedClientMaxWindowBits)))).getD .absent⟩ rfl
  have hclient := clientWindow_answered client server ⟨client, sealedValue⟩ rfl
    ⟨server.imposesServerNoContextTakeover || client.requiresServerNoContextTakeover,
      server.imposesClientNoContextTakeover || client.offersClientNoContextTakeover, window,
      (clientWindowOf (selectClientBits (some (min client.offeredClientMaxWindowBits
        server.supportedClientMaxWindowBits)))).getD .absent⟩ rfl
  have hhonoured : (client.requiresServerNoContextTakeover &&
      !(server.imposesServerNoContextTakeover || client.requiresServerNoContextTakeover)) =
      false := by
    cases client.requiresServerNoContextTakeover <;> simp
  have hunion : (client.offersClientNoContextTakeover ||
      (server.imposesClientNoContextTakeover || client.offersClientNoContextTakeover)) =
      (server.imposesClientNoContextTakeover || client.offersClientNoContextTakeover) := by
    cases client.offersClientNoContextTakeover <;> simp
  simp only [SealedOffer.agree, hhonoured, hserver, hclient, hunion, hsel.agreement]
  by_cases h8 : server.supportedClientMaxWindowBits = 8
  · simp only [h8, if_true]
    rfl
  · simp only [h8, if_false]
    rfl

/-- **The two handshakes agree.** Any client's offer, installed in a conforming
request that carried none, is selected by any server unless it bounds the server
to 8. The server's proposal, alone of its kind in a conforming response, gives
both ends mirrored agreements, unless the server bounds the client to 8. -/
theorem handshakes_agree (client : ClientConfig) (server : ServerConfig) (request : HeaderMap)
    (hv : Grammar.validate request = .ok ()) (hfree : FreeOfDeflate request) :
    ∃ offer request' handshake,
      ClientOffer.install client request = .ok (offer, request') ∧
      offer.sealOffer request' = .ok handshake ∧
      (client.offeredServerMaxWindowBits = 8 →
        ServerHandshake.accept server request' = .ok none) ∧
      (client.offeredServerMaxWindowBits ≠ 8 → ∃ h,
        ServerHandshake.accept server request' = .ok (some h) ∧
        ∀ response, Grammar.validate response = .ok () →
          SoleElement response h.proposed.bytes →
          ∃ s, h.finish response .compatible = .ok (some s) ∧
            (s.peerMaxWindowBits = 8 ↔ server.supportedClientMaxWindowBits = 8) ∧
            (server.supportedClientMaxWindowBits = 8 →
              handshake.finish response .compatible = .error .clientWindowTooNarrow) ∧
            (server.supportedClientMaxWindowBits ≠ 8 →
              ∃ c, handshake.finish response .compatible = .ok (some c) ∧ Mirrored c s)) := by
  have hoffer := offered_renderable client
  let request' := request.append .secWebSocketExtensions (renderOffer client)
  have hv' : Grammar.validate request' = .ok () := validate_append hv hoffer _ _
  have hsole : SoleElement request' (Render.text client.requiresServerNoContextTakeover
      client.offersClientNoContextTakeover (offeredServerBits client)
      (offeredClientBits client)) := soleElement_append hfree hoffer _ _
  have hinstall : ClientOffer.install client request =
      .ok (⟨client, renderOffer client⟩, request') := by
    rw [ClientOffer.install, containsDeflate_free hv hfree]
    rfl
  have hseal : ClientOffer.sealOffer ⟨client, renderOffer client⟩ request' =
      .ok ⟨some ⟨client, renderOffer client⟩⟩ := by
    have hcount : countExact request' (renderOffer client).bytes .offerAltered = .ok 1 :=
      countExact_sole hv' hoffer hsole .offerAltered
    rw [ClientOffer.sealOffer, hcount]
    rfl
  have haccept : ServerHandshake.accept server request' =
      .ok (select server (offeredParams client)) := accept_sole hv' hoffer hsole server
  obtain ⟨hdecline, hselect⟩ := select_offered client server
  refine ⟨_, request', _, hinstall, hseal, fun h8 => ?_, fun h8 => ?_⟩
  · rw [haccept, hdecline h8]
  · obtain ⟨h, window, hh, hsel⟩ := hselect h8
    refine ⟨h, by rw [haccept, hh], fun response hvr hsoler => ?_⟩
    have hserver := serverFinish_selected hsel hvr hsoler
    have hclient := clientFinish_selected hsel hvr hsoler (renderOffer client)
    obtain ⟨hc1, hc2⟩ := offered_client_range client
    have hpeer : h.agreement.peerMaxWindowBits =
        min client.offeredClientMaxWindowBits server.supportedClientMaxWindowBits := by
      rw [hsel.agreement]
      rfl
    have hrole : h.agreement.role = .server := by rw [hsel.agreement]
    refine ⟨h.agreement, hserver, ?_, fun h8' => ?_, fun h8' => ?_⟩
    · rw [hpeer]
      omega
    · rw [hclient, if_pos h8']
    · refine ⟨_, by rw [hclient, if_neg h8'], ?_, ?_, ?_, ?_⟩ <;>
        simp only [Negotiated.localMaxWindowBits, Negotiated.peerMaxWindowBits,
          Negotiated.localNoContextTakeover, Negotiated.peerNoContextTakeover, hrole]

/-- A request that already asks for some other extension. -/
def foreignRequest : HeaderMap := .ofLines [.fromStatic "x; a=\"b\"" rfl]

/-- A client that bounds the server and gives up its own takeover. -/
def boundingClient : ClientConfig :=
  { ClientConfig.new with clientNoContextTakeover := true, serverMaxWindowBits := ⟨13, by decide⟩ }

/-- A server that gives up its takeover and bounds the client. -/
def boundingServer : ServerConfig :=
  { ServerConfig.new with serverNoContextTakeover := true, clientMaxWindowBits := ⟨10, by decide⟩ }

/-- What that server selects from that client's offer. -/
def boundingSelection : ServerHandshake :=
  ⟨render true true (some 13) (.bits 10), ⟨.server, true, true, 13, 10⟩⟩

/-- A response that grants the other extension as well, on a line before the selection. -/
def foreignResponse : HeaderMap :=
  .ofLines [.fromStatic "x; a=\"b\"" rfl, boundingSelection.proposed]

theorem foreignResponse_sole : SoleElement foreignResponse boundingSelection.proposed.bytes :=
  ⟨[ascii "x; a=\"b\""], boundingSelection.proposed.bytes, [], by decide +kernel,
    by decide +kernel, by decide +kernel, nofun⟩

/-- Both ends finish, with the window of 13 for the server and that of 10 for the client. -/
theorem handshakes_agree_foreign :
    ∃ offer request' handshake,
      ClientOffer.install boundingClient foreignRequest = .ok (offer, request') ∧
      offer.sealOffer request' = .ok handshake ∧
      ServerHandshake.accept boundingServer request' = .ok (some boundingSelection) ∧
      ∃ s c, boundingSelection.finish foreignResponse .compatible = .ok (some s) ∧
        handshake.finish foreignResponse .compatible = .ok (some c) ∧ Mirrored c s ∧
        s = ⟨.server, true, true, 13, 10⟩ := by
  have hv : Grammar.validate foreignRequest = .ok () := by decide +kernel
  have hfree : FreeOfDeflate foreignRequest := by unfold FreeOfDeflate; decide +kernel
  have hinstalled : ClientOffer.install boundingClient foreignRequest =
      .ok (⟨boundingClient, renderOffer boundingClient⟩, foreignRequest.append
        .secWebSocketExtensions (renderOffer boundingClient)) := by decide +kernel
  have haccepted : ServerHandshake.accept boundingServer (foreignRequest.append
      .secWebSocketExtensions (renderOffer boundingClient)) = .ok (some boundingSelection) := by
    decide +kernel
  have hfinished : boundingSelection.finish foreignResponse .compatible =
      .ok (some ⟨.server, true, true, 13, 10⟩) := by decide +kernel
  obtain ⟨offer, request', handshake, hinstall, hseal, -, hselect⟩ :=
    handshakes_agree boundingClient boundingServer foreignRequest hv hfree
  obtain ⟨rfl, rfl⟩ := Prod.mk.inj (Except.ok.inj (hinstalled.symm.trans hinstall))
  obtain ⟨h, haccept, hfinish⟩ := hselect (by decide)
  obtain rfl := Option.some.inj (Except.ok.inj (haccepted.symm.trans haccept))
  obtain ⟨s, hs, -, -, hagree⟩ :=
    hfinish foreignResponse (by decide +kernel) foreignResponse_sole
  obtain ⟨c, hc, hmirrored⟩ := hagree (by decide)
  exact ⟨_, _, handshake, hinstall, hseal, haccept, s, c, hs, hc, hmirrored,
    Option.some.inj (Except.ok.inj (hs.symm.trans hfinished))⟩

end WsPmd.Handshake
