import WsPmd.Handshake.Answering

/-!
# Handshakes that both ends concluded

Nothing but the two configurations decides what is agreed on. Whatever else the request
asked for and the response granted, and whatever a hop between the ends made of either,
its own element aside: if the server accepted what came of the request the client sealed,
and both finished on the response, each on what it saw of it, then both hold the meet of
what the one offered and the other supports.
-/

namespace WsPmd.Handshake

open Grammar (Bytes)

/-- The server accepted what came of the request that the client sealed; the server
finished on the response it built, and the client on what came of that. -/
inductive Concluded (client : ClientConfig) (server : ServerConfig) :
    Negotiated → Negotiated → Prop where
  | finished {request request' sent received response response' : HeaderMap} {offer : ClientOffer}
      {handshake : ClientHandshake} {h : ServerHandshake}
      {composition composition' : PmdComposition} {c s : Negotiated} :
      ClientOffer.install client request = .ok (offer, request') →
      offer.sealOffer sent = .ok handshake → Relays sent received →
      ServerHandshake.accept server received = .ok (some h) →
      h.finish response composition' = .ok (some s) → Relays response response' →
      handshake.finish response' composition = .ok (some c) →
      Concluded client server c s

/-- What the two configurations have in common. -/
structure Settles (client : ClientConfig) (server : ServerConfig) (n : Negotiated) : Prop where
  server_takeover : n.serverNoContextTakeover =
    (server.imposesServerNoContextTakeover || client.requiresServerNoContextTakeover)
  client_takeover : n.clientNoContextTakeover =
    (server.imposesClientNoContextTakeover || client.offersClientNoContextTakeover)
  server_window : n.serverMaxWindowBits =
    min client.offeredServerMaxWindowBits server.supportedServerMaxWindowBits
  client_window : n.clientMaxWindowBits =
    min client.offeredClientMaxWindowBits server.supportedClientMaxWindowBits

/-- Two ends with the same parameters, each in its own words. -/
theorem Settles.mirrored {client : ClientConfig} {server : ServerConfig} {c s : Negotiated}
    (hc : Settles client server c) (hs : Settles client server s) (hcrole : c.role = .client)
    (hsrole : s.role = .server) : Mirrored c s := by
  constructor
  · simp only [Negotiated.localMaxWindowBits, Negotiated.peerMaxWindowBits, hcrole, hsrole]
    rw [hc.client_window, hs.client_window]
  · simp only [Negotiated.localMaxWindowBits, Negotiated.peerMaxWindowBits, hcrole, hsrole]
    rw [hc.server_window, hs.server_window]
  · simp only [Negotiated.localNoContextTakeover, Negotiated.peerNoContextTakeover, hcrole, hsrole]
    rw [hc.client_takeover, hs.client_takeover]
  · simp only [Negotiated.localNoContextTakeover, Negotiated.peerNoContextTakeover, hcrole, hsrole]
    rw [hc.server_takeover, hs.server_takeover]

/-! ## The offer on its way -/

/-- The one selection of an accepted field is its sole element. -/
theorem soleElement_of_selections {headers : HeaderMap} (hv : Grammar.validate headers = .ok ())
    {e text : Bytes} (hone : selections headers = [e]) (ht : Grammar.trim e = text) :
    SoleElement headers text := by
  have hmem : e ∈ (fieldElements headers).filter named := by
    unfold selections at hone
    rw [hone]
    exact List.mem_singleton_self e
  obtain ⟨hin, hnamed⟩ := List.mem_filter.mp hmem
  obtain ⟨before, after, hsplit⟩ := List.append_of_mem hin
  have hothers : before.filter named ++ e :: after.filter named = [e] := by
    unfold selections at hone
    rwa [hsplit, List.filter_append, List.filter_cons_of_pos hnamed] at hone
  have hlength := congrArg List.length hothers
  rw [List.length_append, List.length_cons, List.length_singleton] at hlength
  have hnone : before.filter named = [] ∧ after.filter named = [] :=
    ⟨List.length_eq_zero_iff.mp (by omega), List.length_eq_zero_iff.mp (by omega)⟩
  have hplain : ∀ p ∈ fieldElements headers, named p = false →
      Grammar.isDeflate p = .ok false := by
    intro p hp hfalse
    rw [isDeflate_of_mem_fieldElements hv hp, hfalse]
  refine ⟨before, e, after, hsplit, ht, fun p hp => ?_, fun p hp => ?_⟩
  · apply hplain p (by rw [hsplit]; exact List.mem_append_left _ hp)
    exact Bool.not_eq_true _ ▸ List.filter_eq_nil_iff.mp hnone.1 p hp
  · apply hplain p (by rw [hsplit]; exact List.mem_append_right _ (List.mem_cons_of_mem _ hp))
    exact Bool.not_eq_true _ ▸ List.filter_eq_nil_iff.mp hnone.2 p hp

/-- The offer that was sealed is the only selection the server reads. -/
theorem accept_sealed {client : ClientConfig} {server : ServerConfig}
    {request request' sent received : HeaderMap} {offer : ClientOffer}
    {handshake : ClientHandshake}
    (hinstall : ClientOffer.install client request = .ok (offer, request'))
    (hseal : offer.sealOffer sent = .ok handshake) (hrelays : Relays sent received)
    (hv : Grammar.validate received = .ok ()) :
    handshake = ⟨some ⟨client, renderOffer client⟩⟩ ∧
      ServerHandshake.accept server received = .ok (select server (offeredParams client)) := by
  obtain ⟨found, -, hinstall⟩ := Field.bind_eq_ok.mp hinstall
  split at hinstall
  · cases hinstall
  obtain ⟨rfl, -⟩ := Prod.mk.inj (Except.ok.inj hinstall)
  obtain ⟨⟨-, e, hone, ht⟩, hhandshake⟩ := sealOffer_eq_ok.mp hseal
  obtain ⟨e', hone', ht'⟩ := hrelays.one hone
  rw [requestSelections_eq hv] at hone'
  exact ⟨hhandshake, accept_sole hv (offered_renderable client)
    (soleElement_of_selections hv hone' (ht'.trans ht)) server⟩

theorem Selected.settles {client : ClientConfig} {server : ServerConfig} {h : ServerHandshake}
    {window : Option ℕ} (hsel : Selected client server h window) :
    Settles client server h.agreement := by
  have hwindow := hsel.window_eq
  rw [selectServerWindow_offered] at hwindow
  rw [hsel.agreement]
  refine ⟨rfl, rfl, ?_, rfl⟩
  split at hwindow
  · cases hwindow
  split at hwindow
  · next hfull =>
    obtain rfl := Option.some.inj hwindow
    rw [hfull.1, hfull.2, Nat.min_self]
    rfl
  · obtain rfl := Option.some.inj hwindow
    rfl

/-- What the client makes of an agreement that settles so settles so as well. -/
theorem heldBeside_settles {client : ClientConfig} {server : ServerConfig} {s : Negotiated}
    (h : Settles client server s) : Settles client server (heldBeside client s) where
  server_takeover := h.server_takeover
  client_takeover := by
    simp only [heldBeside, h.client_takeover]
    cases client.offersClientNoContextTakeover <;> simp
  server_window := h.server_window
  client_window := by
    simp only [heldBeside, h.client_window]
    exact Nat.min_eq_right (Nat.min_le_left _ _)

/-- Each end takes its own role, and what it holds is the proposal. -/
theorem Concluded.settled {client : ClientConfig} {server : ServerConfig} {c s : Negotiated}
    (h : Concluded client server c s) :
    c.role = .client ∧ s.role = .server ∧ Settles client server c ∧ Settles client server s := by
  obtain ⟨hinstall, hseal, hrelays, haccept, hserver, hrelays', hclient⟩ := h
  rename_i request request' sent received response response' offer handshake h composition
    composition'
  have hanswered : Answered client server handshake s response' :=
    .built hinstall hseal haccept hserver hrelays'
  obtain ⟨-, -, -, rfl⟩ := hanswered.finish_iff.mp hclient
  obtain ⟨_, hv, -⟩ := Field.bind_eq_ok.mp haccept
  obtain ⟨-, hread⟩ := accept_sealed hinstall hseal hrelays hv
  have hselected : select server (offeredParams client) = some h := by
    rw [haccept] at hread
    exact (Except.ok.inj hread).symm
  obtain ⟨hdecline, hselect⟩ := select_offered client server
  have h8 : client.offeredServerMaxWindowBits ≠ 8 := by
    intro h8
    rw [hdecline h8] at hselected
    cases hselected
  obtain ⟨h', window, hh', hsel⟩ := hselect h8
  obtain rfl : h' = h := Option.some.inj (hh'.symm.trans hselected)
  have hsettles : Settles client server s := by
    rw [serverFinish_agreement hserver]
    exact hsel.settles
  exact ⟨rfl, hanswered.server_side.1, heldBeside_settles hsettles, hsettles⟩

theorem Concluded.buildable {client : ClientConfig} {server : ServerConfig} {c s : Negotiated}
    (h : Concluded client server c s) : Buildable c ∧ Buildable s := by
  obtain ⟨-, -, -, haccept, hserver, -, hclient⟩ := h
  refine ⟨clientFinish_buildable hclient, ?_⟩
  rw [serverFinish_agreement hserver]
  exact accept_buildable haccept

theorem Concluded.mirrored {client : ClientConfig} {server : ServerConfig} {c s : Negotiated}
    (h : Concluded client server c s) : Mirrored c s := by
  obtain ⟨hcrole, hsrole, hc, hs⟩ := h.settled
  exact hc.mirrored hs hcrole hsrole

/-- **Concluded handshakes settle on the meet of the configurations.** Whatever else the
request and the response held, and whatever hops made of the rest of them, both ends hold
the same four parameters, the one as what is its own and the other as its peer's: a
takeover is given up if either end asks for that, and each window is the narrower of the
two bounds on it. Both can build their codecs from it. -/
theorem concluded_settles {client : ClientConfig} {server : ServerConfig} {c s : Negotiated}
    (h : Concluded client server c s) :
    Settles client server c ∧ Settles client server s ∧ Mirrored c s ∧ Buildable c ∧
      Buildable s := by
  obtain ⟨-, -, hc, hs⟩ := h.settled
  exact ⟨hc, hs, h.mirrored, h.buildable⟩

/-- A request that asks for something else as well, and what a hop makes of it. -/
def composedRequest : HeaderMap :=
  foreignRequest.append .secWebSocketExtensions (renderOffer boundingClient)

def joinedRequest : HeaderMap :=
  .ofLines [⟨ascii "x; a=\"b\" , " ++ (renderOffer boundingClient).bytes, by decide +kernel⟩]

/-- A response, and what comes of it where a hop grants something of its own. -/
def composedResponse : HeaderMap := .ofLines [boundingSelection.proposed]

def widenedResponse : HeaderMap :=
  .ofLines [.fromStatic "z" rfl,
    ⟨ascii " " ++ boundingSelection.proposed.bytes, by decide +kernel⟩]

theorem composed_concluded : Concluded boundingClient boundingServer
    ⟨.client, true, true, 13, 10⟩ ⟨.server, true, true, 13, 10⟩ := by
  have hinstall : ClientOffer.install boundingClient foreignRequest =
      .ok (⟨boundingClient, renderOffer boundingClient⟩, composedRequest) := by decide +kernel
  have hseal : ClientOffer.sealOffer ⟨boundingClient, renderOffer boundingClient⟩
      composedRequest = .ok ⟨some ⟨boundingClient, renderOffer boundingClient⟩⟩ := by
    decide +kernel
  have hrelays : Relays composedRequest joinedRequest := by
    unfold Relays
    decide +kernel
  have haccept : ServerHandshake.accept boundingServer joinedRequest =
      .ok (some boundingSelection) := by decide +kernel
  have hserver : boundingSelection.finish composedResponse .compatible =
      .ok (some ⟨.server, true, true, 13, 10⟩) := by decide +kernel
  have hrelays' : Relays composedResponse widenedResponse := by
    unfold Relays
    decide +kernel
  have hclient : (ClientHandshake.mk (some ⟨boundingClient, renderOffer boundingClient⟩)).finish
      widenedResponse .compatible = .ok (some ⟨.client, true, true, 13, 10⟩) := by
    decide +kernel
  exact .finished hinstall hseal hrelays haccept hserver hrelays' hclient

/-- The client gave up its takeover and the server its own; each bounded the other's window. -/
theorem concluded_settles_composed :
    Settles boundingClient boundingServer ⟨.client, true, true, 13, 10⟩ ∧
      Settles boundingClient boundingServer ⟨.server, true, true, 13, 10⟩ ∧
      Mirrored ⟨.client, true, true, 13, 10⟩ ⟨.server, true, true, 13, 10⟩ := by
  obtain ⟨hc, hs, hmirrored, -⟩ := concluded_settles composed_concluded
  exact ⟨hc, hs, hmirrored⟩

end WsPmd.Handshake
