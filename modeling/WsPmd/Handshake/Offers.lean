import WsPmd.Handshake.Agreement

/-!
# Installing and sealing an offer

A request is not validated: the host may have written anything into it. The three
operations on it ask only that its quotes are closed, and then count the elements
that name the extension, at the commas outside the quotes.
-/

namespace WsPmd.Handshake

open WsPmd.Library
open Grammar (Bytes ClientWindow Params doubleQuote backslash comma semicolon marks)
open WsPmd.Field (bind_eq_ok)

/-! ## Closed quotes -/

/-- Plain bytes and complete quoted strings. -/
inductive QuoteBalanced : Bytes → Prop where
  | nil : QuoteBalanced []
  | plain {b : UInt8} {rest : Bytes} (hb : b ≠ doubleQuote) :
      QuoteBalanced rest → QuoteBalanced (b :: rest)
  | quoted {raw content rest : Bytes} (hq : Field.QuotedText raw content) :
      QuoteBalanced rest → QuoteBalanced (Field.quotedString raw ++ rest)

/-- A scan that starts inside quotes and ends outside has passed the closing one. -/
theorem closing_quote {rest : Bytes} :
    rest.foldl (Quoted.turn marks) (true, false) = (false, false) →
      ∃ raw content tail, rest = raw ++ doubleQuote :: tail ∧ Field.QuotedText raw content ∧
        tail.foldl (Quoted.turn marks) (false, false) = (false, false) := by
  induction hlen : rest.length using Nat.strong_induction_on generalizing rest with
  | _ n ih =>
    intro h
    subst hlen
    match rest with
    | [] => cases h
    | b :: rest =>
      rw [List.foldl_cons] at h
      by_cases hb : b = backslash
      · subst hb
        match rest with
        | [] => cases h
        | c :: rest =>
          have hlt : rest.length < (backslash :: c :: rest).length := by
            simp only [List.length_cons]
            omega
          obtain ⟨raw, content, tail, rfl, hq, ht⟩ := ih _ hlt rfl h
          exact ⟨backslash :: c :: raw, c :: content, tail, rfl, .pair c hq, ht⟩
      by_cases hd : b = doubleQuote
      · subst hd
        exact ⟨[], [], rest, rfl, .nil, h⟩
      · have hturn : Quoted.turn marks (true, false) b = (true, false) := by
          simp [Quoted.turn, marks, hb, hd]
        rw [hturn] at h
        obtain ⟨raw, content, tail, rfl, hq, ht⟩ := ih _ (by simp) rfl h
        exact ⟨b :: raw, b :: content, tail, rfl, .plain hd hb hq, ht⟩

/-- The scanner ends outside quotes on exactly the balanced values. -/
theorem quoteBalanced_iff {v : Bytes} : QuoteBalanced v ↔ Quoted.Balanced marks v := by
  have hplain {b : UInt8} (hb : b ≠ doubleQuote) :
      Quoted.turn marks (false, false) b = (false, false) := by
    simp [Quoted.turn, marks, hb]
  constructor
  · intro h
    induction h with
    | nil => rfl
    | plain hb _ ih =>
      unfold Quoted.Balanced
      rw [List.foldl_cons, hplain hb]
      exact ih
    | quoted hq _ ih =>
      have hstring := (Field.whole_quotedString hq comma).balanced
      unfold Quoted.Balanced at hstring ⊢
      rw [List.foldl_append, hstring]
      exact ih
  · induction hlen : v.length using Nat.strong_induction_on generalizing v with
    | _ n ih =>
      intro h
      subst hlen
      cases v with
      | nil => exact .nil
      | cons b rest =>
        unfold Quoted.Balanced at h
        rw [List.foldl_cons] at h
        by_cases hb : b = doubleQuote
        · subst hb
          obtain ⟨raw, content, tail, rfl, hq, ht⟩ := closing_quote h
          have htail := ih tail.length (by simp; omega) rfl ht
          have hcons : doubleQuote :: (raw ++ doubleQuote :: tail) =
              Field.quotedString raw ++ tail := by
            simp [Field.quotedString]
          rw [hcons]
          exact .quoted hq htail
        · rw [hplain hb] at h
          exact .plain hb (ih rest.length (by simp) rfl h)

/-- The elements of a line, cut at the commas outside its quotes. -/
def lineElements (line : Bytes) : List Bytes := (Quoted.split marks comma line).getD []

theorem elements_eq_ok {line : Bytes} :
    Grammar.elements line = .ok (lineElements line) ↔ QuoteBalanced line := by
  have hne : (comma : UInt8) ≠ marks.quote := by decide
  rw [quoteBalanced_iff, ← Quoted.split_isSome_iff hne, Grammar.elements, Field.split_eq_ok,
    lineElements]
  cases Quoted.split marks comma line <;> simp

/-- The elements of a request that name the extension. -/
def requestSelections (headers : HeaderMap) : List Bytes := selectionsIn lineElements headers

/-- Every quote of every line is closed. -/
def LinesBalanced (headers : HeaderMap) : Prop :=
  ∀ line ∈ Field.fieldLines headers, QuoteBalanced line

theorem LinesBalanced.splits {headers : HeaderMap} (h : LinesBalanced headers) :
    Field.Splits (Field.fieldLines headers) lineElements :=
  fun line hl => elements_eq_ok.mpr (h line hl)

theorem balanced_of_elements {line : Bytes} {parts : List Bytes}
    (h : Grammar.elements line = .ok parts) : QuoteBalanced line := by
  rw [← elements_eq_ok, h, lineElements, Field.split_eq_ok.mp h]
  rfl

/-! ## The two scans -/

/-- Nothing in the request stands in the way of an offer. -/
structure Vacant (headers : HeaderMap) : Prop where
  balanced : LinesBalanced headers
  free : requestSelections headers = []

theorem containsDeflate_eq_false {headers : HeaderMap} :
    containsDeflate headers = .ok false ↔ Vacant headers := by
  constructor
  · intro h
    have hbalanced : LinesBalanced headers := by
      obtain ⟨found, hfind, hfound⟩ := bind_eq_ok.mp h
      obtain rfl : found = none := by
        cases found with
        | none => rfl
        | some u => cases hfound
      rw [Field.findElement_lines, Traversal.findSomeM_eq_none] at hfind
      intro line hl
      obtain ⟨parts, hparts, -⟩ := bind_eq_ok.mp (hfind line hl)
      exact balanced_of_elements hparts
    refine ⟨hbalanced, ?_⟩
    rw [containsDeflate_eq hbalanced.splits] at h
    simpa [requestSelections] using h
  · intro h
    have hfree := h.free
    unfold requestSelections at hfree
    rw [containsDeflate_eq h.balanced.splits, hfree]
    rfl

theorem countExact_eq_ok {headers : HeaderMap} {expected : Bytes} {altered : NegotiationError}
    {found : ℕ} :
    countExact headers expected altered = .ok found ↔
      LinesBalanced headers ∧ (∀ e ∈ requestSelections headers, Grammar.trim e = expected) ∧
        found = (requestSelections headers).length := by
  have hcount (h : LinesBalanced headers) : countExact headers expected altered = _ :=
    countExact_eq h.splits expected altered
  constructor
  · intro h
    have hbalanced : LinesBalanced headers := by
      intro line hl
      have hwalk := h
      rw [countExact, Field.forElements_lines] at hwalk
      obtain ⟨s, s', hs⟩ := Traversal.foldlM_visits hwalk line hl
      obtain ⟨parts, hparts, -⟩ := bind_eq_ok.mp hs
      exact balanced_of_elements hparts
    rw [hcount hbalanced] at h
    split at h
    · next hall => exact ⟨hbalanced, hall, (Except.ok.inj h).symm⟩
    · cases h
  · rintro ⟨hbalanced, hall, rfl⟩
    rw [hcount hbalanced]
    exact if_pos hall

/-! ## What the offer states -/

/-- The parameters of an offer are the configuration: an absent server window and
a valueless client window are full. -/
structure States (config : ClientConfig) (offer : Params) : Prop where
  server_takeover : offer.serverNoContextTakeover = config.requiresServerNoContextTakeover
  client_takeover : offer.clientNoContextTakeover = config.offersClientNoContextTakeover
  server_window : offer.serverMaxWindowBits.getD 15 = config.offeredServerMaxWindowBits
  client_window :
    (offer.clientMaxWindowBits = .valueless ∧ config.offeredClientMaxWindowBits = 15) ∨
      offer.clientMaxWindowBits = .bits config.offeredClientMaxWindowBits

theorem states_offered (config : ClientConfig) : States config (offeredParams config) where
  server_takeover := rfl
  client_takeover := rfl
  server_window := by
    by_cases h : config.offeredServerMaxWindowBits = 15 <;>
      simp [offeredParams, offeredServerBits, maxWindowBits, h]
  client_window := by
    by_cases h : config.offeredClientMaxWindowBits = 15 <;>
      simp [offeredParams, offeredClientBits, maxWindowBits, clientWindowOf, h]

theorem trim_renderOffer (config : ClientConfig) :
    Grammar.trim (renderOffer config).bytes = (renderOffer config).bytes :=
  trim_text (offered_renderable config) _ _

theorem parseParams_renderOffer (config : ClientConfig) :
    Grammar.parseParams (renderOffer config).bytes = .ok (offeredParams config) :=
  parseParams_text (offered_renderable config) _ _

/-- An offer is one element, and names the extension. -/
theorem lineElements_renderOffer (config : ClientConfig) :
    QuoteBalanced (renderOffer config).bytes ∧
      lineElements (renderOffer config).bytes = [(renderOffer config).bytes] ∧
      named (renderOffer config).bytes = true := by
  have hwhole := ((extension_text (offered_renderable config)
    config.requiresServerNoContextTakeover config.offersClientNoContextTakeover).whole_comma
      fun _ => id).1
  have hnamed := isDeflate_text (offered_renderable config)
    config.requiresServerNoContextTakeover config.offersClientNoContextTakeover
  rw [isDeflate_eq hwhole.balanced] at hnamed
  refine ⟨quoteBalanced_iff.mpr hwhole.balanced, ?_, Except.ok.inj hnamed⟩
  exact congrArg (Option.getD · []) (Quoted.split_whole hwhole)

/-! ## Installing, sealing -/

theorem installInto_vacant {headers : HeaderMap} (h : Vacant headers) (config : ClientConfig) :
    ClientOffer.installInto config headers = (.ok ⟨config, renderOffer config⟩,
      headers.append .secWebSocketExtensions (renderOffer config)) := by
  rw [ClientOffer.installInto, containsDeflate_eq_false.mpr h]

/-- An offer is installed into a vacant request, or not at all. -/
theorem installInto_refused {headers : HeaderMap} (h : ¬ Vacant headers) (config : ClientConfig) :
    ∃ e, ClientOffer.installInto config headers = (.error e, headers) := by
  unfold ClientOffer.installInto
  cases hfound : containsDeflate headers with
  | error e => exact ⟨e, rfl⟩
  | ok found =>
    cases found with
    | true => exact ⟨.offerCollision, rfl⟩
    | false => exact absurd (containsDeflate_eq_false.mp hfound) h

theorem sealWithoutOffer_iff {headers : HeaderMap} :
    (∃ handshake, ClientHandshake.sealWithoutOffer headers = .ok handshake) ↔ Vacant headers := by
  rw [← containsDeflate_eq_false]
  constructor
  · rintro ⟨handshake, h⟩
    obtain ⟨found, hfound, h⟩ := bind_eq_ok.mp h
    cases found with
    | false => exact hfound
    | true => cases h
  · intro h
    refine ⟨⟨none⟩, ?_⟩
    rw [ClientHandshake.sealWithoutOffer, h]
    rfl

/-- What is sealed is the offer, where it stands once and nothing else does. -/
theorem sealOffer_eq_ok {offer : ClientOffer} {sent : HeaderMap} {handshake : ClientHandshake} :
    offer.sealOffer sent = .ok handshake ↔
      (LinesBalanced sent ∧ ∃ e, requestSelections sent = [e] ∧
        Grammar.trim e = offer.installed.bytes) ∧
      handshake = ⟨some ⟨offer.config, offer.installed⟩⟩ := by
  rw [ClientOffer.sealOffer, bind_eq_ok]
  constructor
  · rintro ⟨found, hfound, h⟩
    obtain ⟨hbalanced, hall, hlen⟩ := countExact_eq_ok.mp hfound
    split at h
    · next hone =>
      obtain ⟨e, he⟩ := List.length_eq_one_iff.mp (hlen.symm.trans hone)
      exact ⟨⟨hbalanced, e, he, hall e (by rw [he]; simp)⟩, (Except.ok.inj h).symm⟩
    · cases h
  · rintro ⟨⟨hbalanced, e, he, ht⟩, rfl⟩
    refine ⟨1, countExact_eq_ok.mpr ⟨hbalanced, ?_, ?_⟩, rfl⟩
    · rw [he]
      exact List.forall_mem_singleton.mpr ht
    · rw [he]
      rfl

/-- A line that closes its quotes and does not name the extension. -/
def Neutral (line : Bytes) : Prop :=
  QuoteBalanced line ∧ ∀ e ∈ lineElements line, named e = false

/-- Lines may be added to a request, and its lines reordered, without unsealing it. -/
theorem seal_survives {headers sent : HeaderMap} (h : Vacant headers) (config : ClientConfig)
    {extra : List Bytes} (hextra : ∀ line ∈ extra, Neutral line)
    (hsent : (Field.fieldLines sent).Perm (Field.fieldLines
      (headers.append .secWebSocketExtensions (renderOffer config)) ++ extra)) :
    LinesBalanced sent ∧ requestSelections sent = [(renderOffer config).bytes] := by
  obtain ⟨hbalanced, hone, hnamed⟩ := lineElements_renderOffer config
  have hlines : Field.fieldLines (headers.append .secWebSocketExtensions (renderOffer config)) =
      Field.fieldLines headers ++ [(renderOffer config).bytes] := by
    simp [Field.fieldLines]
  rw [hlines] at hsent
  constructor
  · intro line hl
    rw [hsent.mem_iff, List.mem_append, List.mem_append, List.mem_singleton] at hl
    rcases hl with (hl | rfl) | hl
    · exact h.balanced line hl
    · exact hbalanced
    · exact (hextra line hl).1
  · have hfree : ((Field.fieldLines headers).flatMap lineElements).filter named = [] := h.free
    have hneutral : (extra.flatMap lineElements).filter named = [] := by
      refine List.filter_eq_nil_iff.mpr fun e he => ?_
      obtain ⟨line, hl, he⟩ := List.mem_flatMap.mp he
      rw [(hextra line hl).2 e he]
      exact Bool.false_ne_true
    have hperm := (hsent.flatMap_right lineElements).filter named
    rw [List.flatMap_append, List.flatMap_append, List.flatMap_singleton, hone,
      List.filter_append, List.filter_append, hfree, hneutral, List.filter_singleton, hnamed]
      at hperm
    exact List.perm_singleton.mp hperm

/-- **Offers.** An offer is installed exactly into a request whose quotes are
closed and that names the extension nowhere; a refusal leaves the request alone.
What is installed is one element that states the configuration. It is sealed
exactly where it stands once, untouched, with every quote closed: at once, and
still after neutral lines are added. A request without an offer is sealed exactly
where one could be installed. -/
theorem offer_installs_and_seals (config : ClientConfig) (headers : HeaderMap) :
    ((∃ offer, (ClientOffer.installInto config headers).1 = .ok offer) ↔ Vacant headers) ∧
    (∀ e, (ClientOffer.installInto config headers).1 = .error e →
      (ClientOffer.installInto config headers).2 = headers) ∧
    (∀ offer, (ClientOffer.installInto config headers).1 = .ok offer →
      (ClientOffer.installInto config headers).2 =
        headers.append .secWebSocketExtensions offer.installed ∧
      lineElements offer.installed.bytes = [offer.installed.bytes] ∧
      (∃ stated, Grammar.parseParams offer.installed.bytes = .ok stated ∧ States config stated) ∧
      (∀ sent, (∃ handshake, offer.sealOffer sent = .ok handshake) ↔
        LinesBalanced sent ∧ ∃ e, requestSelections sent = [e] ∧
          Grammar.trim e = offer.installed.bytes) ∧
      (∀ sent handshake, offer.sealOffer sent = .ok handshake →
        handshake.offer = some ⟨config, offer.installed⟩) ∧
      (∃ handshake, offer.sealOffer (ClientOffer.installInto config headers).2 = .ok handshake) ∧
      ∀ sent extra, (∀ line ∈ extra, Neutral line) →
        (Field.fieldLines sent).Perm
          (Field.fieldLines (ClientOffer.installInto config headers).2 ++ extra) →
        ∃ handshake, offer.sealOffer sent = .ok handshake) ∧
    ((∃ handshake, ClientHandshake.sealWithoutOffer headers = .ok handshake) ↔
      ∃ offer, (ClientOffer.installInto config headers).1 = .ok offer) := by
  have hseal (offer : ClientOffer) (sent : HeaderMap) :
      (∃ handshake, offer.sealOffer sent = .ok handshake) ↔
        LinesBalanced sent ∧ ∃ e, requestSelections sent = [e] ∧
          Grammar.trim e = offer.installed.bytes := by
    simp only [sealOffer_eq_ok, exists_and_left, exists_eq, and_true]
  by_cases hv : Vacant headers
  · have hinstall := installInto_vacant hv config
    have hsurvives (sent : HeaderMap) (extra : List Bytes) (hextra : ∀ line ∈ extra, Neutral line)
        (hperm : (Field.fieldLines sent).Perm (Field.fieldLines
          (headers.append .secWebSocketExtensions (renderOffer config)) ++ extra)) :
        ∃ handshake, (ClientOffer.mk config (renderOffer config)).sealOffer sent =
          .ok handshake := by
      obtain ⟨hbalanced, hsole⟩ := seal_survives hv config hextra hperm
      exact (hseal _ sent).mpr ⟨hbalanced, _, hsole, trim_renderOffer config⟩
    rw [hinstall]
    refine ⟨iff_of_true ⟨_, rfl⟩ hv, nofun, fun offer hoffer => ?_,
      iff_of_true (sealWithoutOffer_iff.mpr hv) ⟨_, rfl⟩⟩
    obtain rfl := Except.ok.inj hoffer
    refine ⟨rfl, (lineElements_renderOffer config).2.1,
      ⟨_, parseParams_renderOffer config, states_offered config⟩, hseal _, ?_,
      hsurvives _ [] nofun (by rw [List.append_nil]), hsurvives⟩
    intro sent handshake h
    rw [(sealOffer_eq_ok.mp h).2]
  · obtain ⟨e, he⟩ := installInto_refused hv config
    rw [he]
    refine ⟨iff_of_false nofun hv, fun _ _ => rfl, nofun,
      iff_of_false (fun h => hv (sealWithoutOffer_iff.mp h)) nofun⟩

/-- A request that mentions the extension inside a quoted string. -/
def lookalike : HeaderMap := .ofLines [.fromStatic "x; note=\"a, permessage-deflate\"" rfl]

theorem offer_installs_and_seals_lookalike :
    ∃ handshake, (ClientOffer.mk .new (renderOffer .new)).sealOffer
      (ClientOffer.installInto .new lookalike).2 = .ok handshake :=
  ((offer_installs_and_seals .new lookalike).2.2.1 ⟨.new, renderOffer .new⟩
    (by decide +kernel)).2.2.2.2.2.1

end WsPmd.Handshake
