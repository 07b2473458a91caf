import WsPmd.Handshake.Agreement
import WsPmd.Handshake.Choice
import WsPmd.Handshake.Offers
import WsPmd.Handshake.Refinement

/-!
# What the response says on its own

Nothing vouches for the request: a hop may have rewritten the offer, or have sent another
client's. A server answers what it reads, and its answer names every parameter it will go
by. A client that finishes on that answer therefore holds codecs that fit the server's,
whatever request the server had in front of it; and it refuses exactly the answers that
its own offer does not permit.
-/

namespace WsPmd.Handshake

open Grammar (Bytes Params)

/-- What a hop may make of a field: it may split and join lines, fill in blanks, and add,
change and drop what belongs to others. The elements that name the extension come through. -/
def Relays (sent arrived : HeaderMap) : Prop :=
  (requestSelections arrived).map Grammar.trim = (requestSelections sent).map Grammar.trim

/-- The client sealed an offer into some request. The server accepted some request, which
need not have to do with the client's, and finished on the response it built; what came of
that response is what the client reads. -/
inductive Answered (client : ClientConfig) (server : ServerConfig) :
    ClientHandshake → Negotiated → HeaderMap → Prop where
  | built {request request' sent received response arrived : HeaderMap} {offer : ClientOffer}
      {handshake : ClientHandshake} {h : ServerHandshake} {composition : PmdComposition}
      {s : Negotiated} :
      ClientOffer.install client request = .ok (offer, request') →
      offer.sealOffer sent = .ok handshake →
      ServerHandshake.accept server received = .ok (some h) →
      h.finish response composition = .ok (some s) → Relays response arrived →
      Answered client server handshake s arrived

/-- What the offer of a client lets a server go by. -/
structure Permits (client : ClientConfig) (s : Negotiated) : Prop where
  takeover : client.requiresServerNoContextTakeover = true → s.serverNoContextTakeover = true
  server_window : s.serverMaxWindowBits ≤ client.offeredServerMaxWindowBits
  client_window : 9 ≤ s.clientMaxWindowBits

/-- What a client holds beside a server that goes by `s`. -/
def heldBeside (client : ClientConfig) (s : Negotiated) : Negotiated where
  role := .client
  serverNoContextTakeover := s.serverNoContextTakeover
  clientNoContextTakeover := client.offersClientNoContextTakeover || s.clientNoContextTakeover
  serverMaxWindowBits := s.serverMaxWindowBits
  clientMaxWindowBits := min client.offeredClientMaxWindowBits s.clientMaxWindowBits

/-- Each end's compressor keeps to what the other's inflater was told: the client may keep
less than it was granted, and never more. -/
structure Fits (client server : Negotiated) : Prop where
  local_window : client.localMaxWindowBits ≤ server.peerMaxWindowBits
  peer_window : server.localMaxWindowBits ≤ client.peerMaxWindowBits
  local_takeover : server.peerNoContextTakeover = true → client.localNoContextTakeover = true
  peer_takeover : client.peerNoContextTakeover = true → server.localNoContextTakeover = true

theorem Mirrored.fits {client server : Negotiated} (h : Mirrored client server) :
    Fits client server where
  local_window := h.local_window.le
  peer_window := h.peer_window.ge
  local_takeover := fun hpeer => h.local_takeover.trans hpeer
  peer_takeover := fun hpeer => h.peer_takeover.symm.trans hpeer

theorem heldBeside_fits {client : ClientConfig} {s : Negotiated} (hrole : s.role = .server) :
    Fits (heldBeside client s) s := by
  constructor
  · simp only [Negotiated.localMaxWindowBits, Negotiated.peerMaxWindowBits, heldBeside, hrole]
    exact Nat.min_le_right _ _
  · simp only [Negotiated.localMaxWindowBits, Negotiated.peerMaxWindowBits, heldBeside, hrole]
    exact Nat.le_refl _
  · simp only [Negotiated.localNoContextTakeover, Negotiated.peerNoContextTakeover, heldBeside,
      hrole]
    exact fun hpeer => (Bool.or_eq_true _ _).mpr (Or.inr hpeer)
  · simp only [Negotiated.localNoContextTakeover, Negotiated.peerNoContextTakeover, heldBeside,
      hrole]
    exact id

/-! ## One selection on the way -/

/-- An accepted field is cut the same, by its quotes or at every comma. -/
theorem requestSelections_eq {headers : HeaderMap} (hv : Grammar.validate headers = .ok ()) :
    requestSelections headers = selections headers := by
  have hplain := Field.splits_of_validate hv
  rw [← selectionsIn_pieces]
  unfold requestSelections selectionsIn
  congr 1
  refine List.flatMap_congr fun line hl => ?_
  have hquoted := elements_eq_ok.mpr (balanced_of_elements (hplain line hl))
  rw [hplain line hl] at hquoted
  exact (Except.ok.inj hquoted).symm

/-- One selection comes through as one, with the same text. -/
theorem Relays.one {sent arrived : HeaderMap} (h : Relays sent arrived) {e : Bytes}
    (hone : requestSelections sent = [e]) :
    ∃ e', requestSelections arrived = [e'] ∧ Grammar.trim e' = Grammar.trim e := by
  have hmap : (requestSelections arrived).map Grammar.trim = [Grammar.trim e] := by
    rw [h, hone]
    rfl
  exact List.map_eq_singleton_iff.mp hmap

/-! ## The proposal, read again -/

/-- A server's selection is made from parameters that some element spelled. -/
theorem selected_of_accept {server : ServerConfig} {received : HeaderMap} {h : ServerHandshake}
    (haccept : ServerHandshake.accept server received = .ok (some h)) :
    ∃ offer, ParamsInRange offer ∧ select server offer = some h := by
  obtain ⟨_, -, haccept⟩ := Field.bind_eq_ok.mp haccept
  obtain ⟨e, he⟩ := findElement_found haccept
  split at he
  · cases he
  obtain ⟨named, -, he⟩ := Field.bind_eq_ok.mp he
  split at he
  · cases he
  cases hp : Grammar.parseParams e with
  | error _ =>
    rw [hp] at he
    cases he
  | ok offer =>
    rw [hp] at he
    exact ⟨offer, parseParams_inRange hp, Except.ok.inj he⟩

/-- A proposal spells widths that can be read back. -/
theorem proposal_renderable {server : ServerConfig} {offer : Params} {h : ServerHandshake}
    (hoffer : ParamsInRange offer) (hselect : select server offer = some h) :
    ∃ s c sb cb, Renderable sb cb ∧ h.proposed = render s c sb cb := by
  obtain ⟨window, window', hserver, hclient, rfl⟩ := select_eq_some.mp hselect
  obtain ⟨hs1, hs2⟩ := selectServerWindow_range hoffer hserver
  obtain ⟨hc1, hc2⟩ := selectClientWindow_range hoffer hclient
  refine ⟨_, _, _, _, ⟨fun bits hbits => ?_, fun bits hbits => ?_⟩, rfl⟩
  · subst hbits
    exact ⟨Nat.le_of_succ_le hs1, hs2⟩
  · rw [selectClientBits_eq hc2] at hbits
    split at hbits
    · exact ClientBits.bits.inj hbits ▸ ⟨hc1, hc2⟩
    · cases hbits

/-- What a client reads of a proposal that came through: the server's agreement. -/
structure Heard (s : Negotiated) (arrived : HeaderMap) (e : Bytes) (params : Params) : Prop where
  sole : selections arrived = [e]
  parsed : Grammar.parseParams e = .ok params
  agreement : s = {
    role := .server
    serverNoContextTakeover := params.serverNoContextTakeover
    clientNoContextTakeover := params.clientNoContextTakeover
    serverMaxWindowBits := params.serverMaxWindowBits.getD 15
    clientMaxWindowBits := agreedClientWindow params.clientMaxWindowBits }
  valued : params.clientMaxWindowBits ≠ .valueless

section Answers

variable {client : ClientConfig} {server : ServerConfig} {handshake : ClientHandshake}
  {arrived : HeaderMap} {composition : PmdComposition} {s c : Negotiated}

theorem heard_of_finish {received response : HeaderMap} {h : ServerHandshake}
    (haccept : ServerHandshake.accept server received = .ok (some h))
    (hfinish : h.finish response composition = .ok (some s)) (hrelays : Relays response arrived)
    (hv : Grammar.validate arrived = .ok ()) : ∃ e params, Heard s arrived e params := by
  obtain ⟨offer, hoffer, hselect⟩ := selected_of_accept haccept
  obtain ⟨params, hnarrows⟩ := select_narrows hoffer hselect
  obtain ⟨sn, cn, sb, cb, hrender, hproposed⟩ := proposal_renderable hoffer hselect
  have hagreement := serverFinish_agreement hfinish
  obtain ⟨_, hvr, -⟩ := Field.bind_eq_ok.mp hfinish
  -- The server would not have finished on a response that carries anything else.
  rw [serverFinish_eq hvr] at hfinish
  split at hfinish
  · cases hfinish
  split at hfinish
  · next hcarries =>
    obtain ⟨e, hone, ht⟩ := hcarries
    rw [← requestSelections_eq hvr] at hone
    obtain ⟨e', hone', ht'⟩ := hrelays.one hone
    rw [requestSelections_eq hv] at hone'
    have htext : Grammar.trim e' = Render.text sn cn sb cb := by
      rw [ht', ht, hproposed]
      rfl
    have hmem : e' ∈ fieldElements arrived := by
      have hin : e' ∈ selections arrived := by
        rw [hone']
        exact List.mem_singleton_self e'
      exact (List.mem_filter.mp hin).1
    have hparsed := parseParams_rendered hrender (header_of_mem_fieldElements hmem) htext
    have hbytes : h.proposed.bytes = Render.text sn cn sb cb := congrArg HeaderValue.bytes hproposed
    have hsame : Grammar.parseParams e' = .ok params := by
      rw [hparsed, ← hnarrows.parsed, hbytes]
      exact (parseParams_text hrender sn cn).symm
    exact ⟨e', params, hone', hsame, hagreement.trans hnarrows.agreement, hnarrows.valued⟩
  · cases hfinish

/-- A client refines its offer with what it heard exactly if the offer permits it. -/
theorem Heard.refines_iff {e : Bytes} {params : Params} (h : Heard s arrived e params) :
    Refines client params ↔ Permits client s := by
  have hoffered : client.offeredServerMaxWindowBits ≤ 15 := client.serverMaxWindowBits.property.2
  have hvalued := h.valued
  obtain rfl := h.agreement
  constructor
  · intro hrefines
    refine ⟨hrefines.takeover, ?_, ?_⟩
    · rcases hrefines.server with ⟨bits, hbits, hle⟩ | ⟨hnone, hfull⟩
      · simp only [hbits, Option.getD_some]
        exact hle
      · simp only [hnone, Option.getD_none]
        exact hfull.ge
    · rcases hrefines.client with habsent | ⟨bits, hbits, hle⟩
      · simp only [habsent, agreedClientWindow]
        decide
      · simp only [hbits, agreedClientWindow]
        exact hle
  · intro hpermits
    refine ⟨hpermits.takeover, ?_, ?_⟩
    · have hle := hpermits.server_window
      cases hwindow : params.serverMaxWindowBits with
      | none =>
        simp only [hwindow, Option.getD_none] at hle
        exact Or.inr ⟨rfl, Nat.le_antisymm hoffered hle⟩
      | some bits =>
        simp only [hwindow, Option.getD_some] at hle
        exact Or.inl ⟨bits, rfl, hle⟩
    · have hle := hpermits.client_window
      cases hwindow : params.clientMaxWindowBits with
      | absent => exact Or.inl rfl
      | valueless => exact absurd hwindow hvalued
      | bits bits =>
        simp only [hwindow, agreedClientWindow] at hle
        exact Or.inr ⟨bits, rfl, hle⟩

theorem Heard.agrees_iff {e : Bytes} {params : Params} (h : Heard s arrived e params) :
    Agrees client params c ↔ c = heldBeside client s := by
  have hoffered : client.offeredClientMaxWindowBits ≤ 15 := client.clientMaxWindowBits.property.2
  have hvalued := h.valued
  obtain rfl := h.agreement
  have hheld : heldClientWindow client params.clientMaxWindowBits =
      min client.offeredClientMaxWindowBits (agreedClientWindow params.clientMaxWindowBits) := by
    cases hwindow : params.clientMaxWindowBits with
    | absent => exact (Nat.min_eq_left hoffered).symm
    | valueless => exact absurd hwindow hvalued
    | bits bits => rfl
  constructor
  · intro hagrees
    obtain ⟨role, sn, cn, sw, cw⟩ := c
    obtain ⟨hrole, hlt, hpt, hpw, hlw⟩ := hagrees
    obtain rfl : role = .client := hrole
    obtain rfl : cn = _ := hlt
    obtain rfl : sn = _ := hpt
    obtain rfl : sw = _ := hpw
    obtain rfl : cw = _ := hlw.trans hheld
    rfl
  · rintro rfl
    exact ⟨rfl, rfl, rfl, rfl, hheld.symm⟩

/-- **A client finishes on an answer exactly if its offer permits it**, and holds what the
server goes by, narrowed on its own side alone. -/
theorem Answered.finish_iff (h : Answered client server handshake s arrived) :
    handshake.finish arrived composition = .ok (some c) ↔
      Grammar.validate arrived = .ok () ∧ composition = .compatible ∧ Permits client s ∧
        c = heldBeside client s := by
  obtain ⟨hinstall, hseal, haccept, hserver, hrelays⟩ := h
  obtain ⟨sealedOffer, hoffer, hconfig⟩ := offer_of_seal hinstall hseal
  constructor
  · intro hfinish
    obtain ⟨_, hv, -⟩ := Field.bind_eq_ok.mp hfinish
    obtain ⟨e, params, hheard⟩ := heard_of_finish haccept hserver hrelays hv
    obtain ⟨offer', hoffer', hcompatible, e', params', hone, hparsed, hagree⟩ :=
      (clientFinish_some hv).mp hfinish
    obtain rfl := Option.some.inj (hoffer.symm.trans hoffer')
    obtain rfl := List.singleton_inj.mp (hheard.sole.symm.trans hone)
    obtain rfl := Except.ok.inj (hheard.parsed.symm.trans hparsed)
    obtain ⟨hrefines, hagrees⟩ := agree_eq_ok.mp hagree
    rw [hconfig] at hrefines hagrees
    exact ⟨hv, hcompatible, hheard.refines_iff.mp hrefines, hheard.agrees_iff.mp hagrees⟩
  · intro ⟨hv, hcompatible, hpermits, hheld⟩
    obtain ⟨e, params, hheard⟩ := heard_of_finish haccept hserver hrelays hv
    have hagree : sealedOffer.agree params = .ok c := by
      rw [agree_eq_ok, hconfig]
      exact ⟨hheard.refines_iff.mpr hpermits, hheard.agrees_iff.mpr hheld⟩
    exact (clientFinish_some hv).mpr
      ⟨sealedOffer, hoffer, hcompatible, e, params, hheard.sole, hheard.parsed, hagree⟩

theorem Answered.server_side (h : Answered client server handshake s arrived) :
    s.role = .server ∧ Buildable s := by
  obtain ⟨-, -, haccept, hserver, -⟩ := h
  obtain ⟨offer, hoffer, hselect⟩ := selected_of_accept haccept
  obtain ⟨params, hnarrows⟩ := select_narrows hoffer hselect
  rw [serverFinish_agreement hserver]
  refine ⟨?_, accept_buildable haccept⟩
  rw [hnarrows.agreement]

theorem Answered.client_side (h : Answered client server handshake s arrived)
    (hpermits : Permits client s) : Buildable (heldBeside client s) := by
  obtain ⟨hrole, hbuildable⟩ := h.server_side
  have hoffered : 9 ≤ client.offeredClientMaxWindowBits ∧ client.offeredClientMaxWindowBits ≤ 15 :=
    client.clientMaxWindowBits.property
  have hlocal : (heldBeside client s).localMaxWindowBits =
      min client.offeredClientMaxWindowBits s.clientMaxWindowBits := rfl
  have hpeer : (heldBeside client s).peerMaxWindowBits = s.localMaxWindowBits := by
    simp only [Negotiated.localMaxWindowBits, hrole]
    rfl
  refine ⟨?_, ?_, ?_, ?_⟩
  · rw [hlocal]
    exact Nat.le_min.mpr ⟨hoffered.1, hpermits.client_window⟩
  · rw [hlocal]
    exact (Nat.min_le_left _ _).trans hoffered.2
  · rw [hpeer]
    exact Nat.le_of_succ_le hbuildable.local_ge
  · rw [hpeer]
    exact hbuildable.local_le

end Answers

/-! ## Both ends' outcomes -/

/-- The handshakes a client can be left with: it sealed its offer, or it sealed its request
without one. -/
inductive Seals (client : ClientConfig) : ClientHandshake → Prop where
  | offered {request request' sent : HeaderMap} {offer : ClientOffer}
      {handshake : ClientHandshake} :
      ClientOffer.install client request = .ok (offer, request') →
      offer.sealOffer sent = .ok handshake → Seals client handshake
  | withoutOffer {sent : HeaderMap} {handshake : ClientHandshake} :
      ClientHandshake.sealWithoutOffer sent = .ok handshake → Seals client handshake

/-- Nothing comes of nothing. -/
theorem Relays.none_iff {sent arrived : HeaderMap} (h : Relays sent arrived)
    (hv : Grammar.validate sent = .ok ()) (hv' : Grammar.validate arrived = .ok ()) :
    selections arrived = [] ↔ selections sent = [] := by
  unfold Relays at h
  rw [requestSelections_eq hv, requestSelections_eq hv'] at h
  rw [← List.map_eq_nil_iff (f := Grammar.trim), h, List.map_eq_nil_iff]

theorem serverFinish_none {response : HeaderMap} (hv : Grammar.validate response = .ok ())
    (h : ServerHandshake) (composition : PmdComposition) :
    h.finish response composition = .ok none ↔ selections response = [] := by
  rw [serverFinish_eq hv]
  constructor
  · intro hfinish
    split at hfinish
    · assumption
    split at hfinish
    · split at hfinish <;> cases hfinish
    · cases hfinish
  · intro hnil
    rw [if_pos hnil]

/-- **The two ends never part over whether there is an extension.** Let a server answer any
request, and a client, whatever it had offered, read what came of the response. If neither
gives the connection up, either both go without the extension, or both have it: the client
beside what the server settled on, permitted by its offer, with codecs that can be built
and that fit. -/
theorem outcomes_agree {client : ClientConfig} {server : ServerConfig}
    {handshake : ClientHandshake} {received response arrived : HeaderMap} {h : ServerHandshake}
    {composition composition' : PmdComposition} {outcome outcome' : Option Negotiated}
    (hseals : Seals client handshake)
    (haccept : ServerHandshake.accept server received = .ok (some h))
    (hserver : h.finish response composition = .ok outcome) (hrelays : Relays response arrived)
    (hclient : handshake.finish arrived composition' = .ok outcome') :
    outcome = none ∧ outcome' = none ∨
      ∃ s, outcome = some s ∧ outcome' = some (heldBeside client s) ∧ Permits client s ∧
        Fits (heldBeside client s) s ∧ Buildable (heldBeside client s) ∧ Buildable s := by
  obtain ⟨_, hv, -⟩ := Field.bind_eq_ok.mp hserver
  obtain ⟨_, hv', -⟩ := Field.bind_eq_ok.mp hclient
  cases outcome with
  | none =>
    have hnil := (hrelays.none_iff hv hv').mpr ((serverFinish_none hv h composition).mp hserver)
    have hnone := (clientFinish_none hv' handshake composition').mpr hnil
    exact Or.inl ⟨rfl, Except.ok.inj (hclient.symm.trans hnone)⟩
  | some s =>
    cases outcome' with
    | none =>
      have hnil := (hrelays.none_iff hv hv').mp ((clientFinish_none hv' _ _).mp hclient)
      cases hserver.symm.trans ((serverFinish_none hv h composition).mpr hnil)
    | some c =>
      cases hseals with
      | offered hinstall hseal =>
        have hanswered : Answered client server handshake s arrived :=
          .built hinstall hseal haccept hserver hrelays
        obtain ⟨-, -, hpermits, rfl⟩ := hanswered.finish_iff.mp hclient
        obtain ⟨hrole, hbuildable⟩ := hanswered.server_side
        exact Or.inr ⟨s, rfl, rfl, hpermits, heldBeside_fits hrole,
          hanswered.client_side hpermits, hbuildable⟩
      | withoutOffer hseal =>
        obtain ⟨offer, hoffer, -⟩ := (clientFinish_some hv').mp hclient
        cases hoffer.symm.trans (offer_of_sealWithoutOffer hseal)

/-! ## An answer to another's request -/

/-- A client that would compress with a small window. -/
def modestClient : ClientConfig := { ClientConfig.new with clientMaxWindowBits := ⟨10, by decide⟩ }

/-- What a hop sends in place of that client's offer. -/
def forgedRequest : HeaderMap :=
  .ofLines [.fromStatic "permessage-deflate;server_no_context_takeover" rfl]

/-- What a server makes of that, and puts on the wire. -/
def forgedSelection : ServerHandshake :=
  ⟨render true false none .omitted, ⟨.server, true, false, 15, 15⟩⟩

def forgedResponse : HeaderMap :=
  HeaderMap.new.append .secWebSocketExtensions (render true false none .omitted)

theorem forged_accepted :
    ServerHandshake.accept .new forgedRequest = .ok (some forgedSelection) := by
  decide +kernel

theorem forged_finished : forgedSelection.finish forgedResponse .compatible =
    .ok (some ⟨.server, true, false, 15, 15⟩) := by decide +kernel

theorem modest_installed : ClientOffer.install modestClient .new = .ok (⟨modestClient,
    renderOffer modestClient⟩, HeaderMap.new.append .secWebSocketExtensions
      (renderOffer modestClient)) := by decide +kernel

theorem modest_sealed : ClientOffer.sealOffer ⟨modestClient, renderOffer modestClient⟩
    (HeaderMap.new.append .secWebSocketExtensions (renderOffer modestClient)) =
      .ok ⟨some ⟨modestClient, renderOffer modestClient⟩⟩ := by decide +kernel

theorem forged_answered : Answered modestClient .new
    ⟨some ⟨modestClient, renderOffer modestClient⟩⟩ ⟨.server, true, false, 15, 15⟩
    forgedResponse :=
  .built modest_installed modest_sealed forged_accepted forged_finished rfl

theorem outcomes_agree_forged :
    Permits modestClient ⟨.server, true, false, 15, 15⟩ ∧
      Fits ⟨.client, true, false, 15, 10⟩ ⟨.server, true, false, 15, 15⟩ := by
  have hclient : (ClientHandshake.mk (some ⟨modestClient, renderOffer modestClient⟩)).finish
      forgedResponse .compatible = .ok (some ⟨.client, true, false, 15, 10⟩) := by decide +kernel
  rcases outcomes_agree (.offered modest_installed modest_sealed) forged_accepted forged_finished
    rfl hclient with ⟨hnone, -⟩ | ⟨s, hs, -, hpermits, hfits, -, -⟩
  · cases hnone
  · obtain rfl := Option.some.inj hs
    exact ⟨hpermits, hfits⟩

end WsPmd.Handshake
