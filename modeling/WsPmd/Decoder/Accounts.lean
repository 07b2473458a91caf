import WsPmd.Decoder.Ceiling

/-!
# Where the bytes of a run go

The account of a call: which bytes each backend call took off the input and which it
gave, first for the bytes of the peer and then for the trailer. Whatever the backend, a
call that answers had every byte of its input taken once and in order, and gives out
what the backend gave and nothing else; and the backend calls of a run are paid for by
the bytes that moved, however much its limits would have let through.
-/

namespace WsPmd.Decoding

open Grammar (Bytes)
open Library

/-- What passed in these calls. -/
def passages (exchanges : List Exchange) : List (Passage UInt8) :=
  exchanges.map Exchange.passage

theorem passages_cons (x : Exchange) (exchanges : List Exchange) :
    passages (x :: exchanges) = x.passage :: passages exchanges := rfl

/-- What the calls of a feed come to, whatever it answers: what they took is the front of
its input, and there is one for each byte that moved and one more at most. -/
structure Paid (input : Bytes) (exchanges : List Exchange) : Prop where
  front : took (passages exchanges) <+: input
  calls_le : exchanges.length ≤
    (took (passages exchanges)).length + (gave (passages exchanges)).length + 1

/-- No call at all. -/
theorem paid_nil (input : Bytes) : Paid input [] := ⟨List.nil_prefix, Nat.zero_le _⟩

section Feeds

variable {σ : Type} {D : Decompress σ} {limit : DecompressedLimit}

/-- Every call but the last one moves. -/
theorem Feeds.paid {s : Inflate σ} {exchanges : List Exchange} {r : Outcome σ Bool}
    (h : Feeds D limit s exchanges r) : Paid s.input exchanges := by
  induction h with
  | @leaves s x r hmakes =>
    obtain ⟨rfl, -⟩ := hmakes.cases
    have hfront : took (passages [exchange D limit s]) =
        s.input.take (exchange D limit s).consumed := List.append_nil _
    refine ⟨hfront ▸ List.take_prefix _ _, ?_⟩
    rw [List.length_singleton]
    omega
  | @again s s' x exchanges r hmakes _ ih =>
    obtain ⟨rfl, hturned⟩ := hmakes.cases
    cases hturned with
    | moved _ hmoved _ =>
      obtain ⟨⟨rest, hrest⟩, hcount⟩ := ih
      have htaken : ((exchange D limit s).passage.taken).length =
          (exchange D limit s).consumed :=
        (List.length_take).trans (Nat.min_eq_left (consumed_le limit s))
      have hgiven : ((exchange D limit s).passage.given).length =
          (exchange D limit s).produced := length_given limit s
      constructor
      · refine ⟨rest, ?_⟩
        rw [passages_cons, took_cons, List.append_assoc, hrest]
        exact List.take_append_drop _ _
      · rw [passages_cons, took_cons, gave_cons, List.length_cons, List.length_append,
          List.length_append]
        omega

/-- A feed that answers had all of its input taken, and gives out what was given. -/
theorem Feeds.answered {s : Inflate σ} {exchanges : List Exchange} {r : Outcome σ Bool}
    (h : Feeds D limit s exchanges r) {ended : Bool} (hok : r.result = .ok ended) :
    took (passages exchanges) = s.input ∧ r.output = s.output ++ gave (passages exchanges) := by
  induction h with
  | @leaves s x r hmakes =>
    obtain ⟨rfl, hturned⟩ := hmakes.cases
    cases hturned with
    | refused _ => cases hok
    | stalled _ _ _ _ => cases hok
    | tooLong _ _ => cases hok
    | drained _ hleft hconsumed hproduced _ =>
      have htaken : (exchange D limit s).passage.taken = [] := by
        rw [Exchange.passage, hconsumed]
        rfl
      have hgiven : (exchange D limit s).passage.given = [] := by
        rw [← List.length_eq_zero_iff, ← hproduced]
        exact length_given limit s
      rw [passages_cons, took_cons, gave_cons, htaken, hgiven, hleft]
      exact ⟨rfl, (List.append_nil _).symm⟩
  | @again s s' x exchanges r hmakes _ ih =>
    obtain ⟨htook, hgave⟩ := ih hok
    obtain ⟨rfl, hturned⟩ := hmakes.cases
    cases hturned with
    | moved _ _ _ =>
      rw [passages_cons, took_cons, gave_cons]
      constructor
      · rw [htook]
        exact List.take_append_drop _ _
      · rw [hgave]
        exact List.append_assoc _ _ _

end Feeds

/-! ## The account of a call -/

/-- The backend calls of one call on the decoder: on the peer's bytes, and on the trailer. -/
structure Account where
  peer : List Exchange
  closing : List Exchange

namespace Account

def calls (account : Account) : ℕ := account.peer.length + account.closing.length

/-- What was taken of the peer's bytes. -/
def taken (account : Account) : Bytes := took (passages account.peer)

/-- What was taken of the trailer. -/
def closed (account : Account) : Bytes := took (passages account.closing)

/-- What the backend gave. -/
def given (account : Account) : Bytes :=
  gave (passages account.peer) ++ gave (passages account.closing)

end Account

section Calls

variable {σ : Type} (D : Decompress σ)

/-- A decoder that is poisoned asks nothing of its backend. Any other feeds it the peer's
bytes and, once they are all taken and a stream is open behind the final fragment, the
trailer. -/
inductive Accounts (decoder : Decoder σ) (call : Call) : Account → Prop where
  | poisoned : decoder.poisoned = true → Accounts decoder call ⟨[], []⟩
  | fed {exchanges : List Exchange} {fed : Outcome σ Bool} :
      decoder.poisoned = false →
      Feeds D call.limit ⟨decoder, call.input, [], false⟩ exchanges fed →
      (∀ ended, fed.result = .ok ended → call.finalFragment = true →
        fed.decoder.streamOpen = false) →
      Accounts decoder call ⟨exchanges, []⟩
  | closed {exchanges closing : List Exchange} {fed closed : Outcome σ Bool} {ended : Bool} :
      decoder.poisoned = false →
      Feeds D call.limit ⟨decoder, call.input, [], false⟩ exchanges fed →
      fed.result = .ok ended → call.finalFragment = true → fed.decoder.streamOpen = true →
      Feeds D call.limit ⟨fed.decoder, trailer, fed.output, false⟩ closing closed →
      Accounts decoder call ⟨exchanges, closing⟩

/-- What an account has to come to, for the answer the host was given. -/
structure Balances (call : Call) (result : Except CodecError Bytes) (account : Account) :
    Prop where
  peer : account.taken <+: call.input
  closing : account.closed <+: trailer
  calls_le : account.calls ≤
    account.taken.length + account.closed.length + account.given.length + 2
  answered : ∀ out, result = .ok out → account.taken = call.input ∧
    account.closed = (if call.finalFragment then trailer else []) ∧ out = account.given

variable {D} {decoder next : Decoder σ} {call : Call}

theorem Balances.of_paid {result : Except CodecError Bytes} {account : Account}
    (hpeer : Paid call.input account.peer) (hclosing : Paid trailer account.closing)
    (hanswered : ∀ out, result = .ok out → account.taken = call.input ∧
      account.closed = (if call.finalFragment then trailer else []) ∧ out = account.given) :
    Balances call result account := by
  refine ⟨hpeer.front, hclosing.front, ?_, hanswered⟩
  have hpaid := hpeer.calls_le
  have hpaid' := hclosing.calls_le
  rw [Account.calls, Account.given, Account.taken, Account.closed, List.length_append]
  omega

/-- **The account of one call.** -/
theorem decompress_accounts {result : Except CodecError Bytes}
    (h : decoder.decompress D call.input call.finalFragment call.limit = some (result, next)) :
    ∃ account, Accounts D decoder call account ∧ Balances call result account := by
  cases hlive : decoder.poisoned with
  | true =>
    rw [decompress_poisoned D hlive] at h
    obtain ⟨rfl, -⟩ := Prod.mk.inj (Option.some.inj h)
    exact ⟨_, .poisoned hlive, .of_paid (paid_nil _) (paid_nil _) nofun⟩
  | false =>
    cases decompress_settled hlive h with
    | failed hdecoded herror =>
      cases hdecoded with
      | failed hfed hfailed =>
        obtain ⟨exchanges, hfeeds⟩ := inflate_eq_some_iff.mp hfed
        refine ⟨_, .fed hlive hfeeds fun ended hok => ?_, .of_paid hfeeds.paid (paid_nil _) nofun⟩
        rw [hfailed] at hok
        cases hok
      | more _ _ _ => cases herror
      | unopened hfed _ _ hunopened =>
        obtain ⟨exchanges, hfeeds⟩ := inflate_eq_some_iff.mp hfed
        exact ⟨_, .fed hlive hfeeds fun _ _ _ => hunopened,
          .of_paid hfeeds.paid (paid_nil _) nofun⟩
      | closingFailed hfed hok hfinal hopen hclosed _ =>
        obtain ⟨exchanges, hfeeds⟩ := inflate_eq_some_iff.mp hfed
        obtain ⟨closing, hcloses⟩ := inflate_eq_some_iff.mp hclosed
        exact ⟨_, .closed hlive hfeeds hok hfinal hopen hcloses,
          .of_paid hfeeds.paid hcloses.paid nofun⟩
      | endedClosing hfed hok hfinal hopen hclosed _ =>
        obtain ⟨exchanges, hfeeds⟩ := inflate_eq_some_iff.mp hfed
        obtain ⟨closing, hcloses⟩ := inflate_eq_some_iff.mp hclosed
        exact ⟨_, .closed hlive hfeeds hok hfinal hopen hcloses,
          .of_paid hfeeds.paid hcloses.paid nofun⟩
      | closed _ _ _ _ _ _ => cases herror
    | answered hdecoded hanswered =>
      cases hdecoded with
      | failed _ _ => cases hanswered
      | more hfed hok hmore =>
        obtain ⟨exchanges, hfeeds⟩ := inflate_eq_some_iff.mp hfed
        obtain ⟨htook, hgave⟩ := hfeeds.answered hok
        refine ⟨_, .fed hlive hfeeds fun _ _ hfinal => ?_,
          .of_paid hfeeds.paid (paid_nil _) fun out hout => ⟨htook, ?_, ?_⟩⟩
        · rw [hmore] at hfinal
          cases hfinal
        · rw [hmore, if_neg Bool.false_ne_true]
          rfl
        · rw [← Except.ok.inj hout, hgave]
          exact (List.append_nil _).symm
      | unopened _ _ _ _ => cases hanswered
      | closingFailed _ _ _ _ _ _ => cases hanswered
      | endedClosing _ _ _ _ _ _ => cases hanswered
      | @closed fed closed ended hfed hok hfinal hopen hclosed hended =>
        obtain ⟨exchanges, hfeeds⟩ := inflate_eq_some_iff.mp hfed
        obtain ⟨closing, hcloses⟩ := inflate_eq_some_iff.mp hclosed
        obtain ⟨htook, hgave⟩ := hfeeds.answered hok
        obtain ⟨htook', hgave'⟩ := hcloses.answered hended
        refine ⟨_, .closed hlive hfeeds hok hfinal hopen hcloses,
          .of_paid hfeeds.paid hcloses.paid fun out hout => ⟨htook, ?_, ?_⟩⟩
        · rw [hfinal, if_pos rfl]
          exact htook'
        · have hwhole : closed.output = gave (passages exchanges) ++ gave (passages closing) := by
            rw [hgave', hgave]
            rfl
          rw [← Except.ok.inj hout]
          exact hwhole

end Calls

/-! ## The accounts of a run -/

section Runs

variable {σ : Type} {D : Decompress σ}

/-- The accounts of a run, call by call, each of the decoder as the calls before left it. -/
inductive Session (D : Decompress σ) :
    Decoder σ → List (Call × Except CodecError Bytes × Account) → Decoder σ → Prop where
  | done {decoder : Decoder σ} : Session D decoder [] decoder
  | call {decoder next last : Decoder σ} {call : Call} {result : Except CodecError Bytes}
      {account : Account} {entries : List (Call × Except CodecError Bytes × Account)} :
      decoder.decompress D call.input call.finalFragment call.limit = some (result, next) →
      Accounts D decoder call account → Session D next entries last →
      Session D decoder ((call, result, account) :: entries) last

/-- What the backend calls of a run may come to: one for each byte that moved, taken or
given, and six for each call of the host's. -/
def costBound (entries : List (Call × Except CodecError Bytes × Account)) : ℕ :=
  (entries.map fun e => e.2.2.taken.length + e.2.2.given.length + 6).sum

/-- **Every byte is accounted for, over whole runs.** Over any backend and under any limits,
every run has an account of its backend calls. What a call had taken is the front of its
input and of the trailer; where it answers it is all of its input, then the trailer if the
fragment was final and nothing else, and the answer is what the backend gave, in order.
And the run made at most one backend call for each byte that moved and six for each call,
whatever the limits were. -/
theorem run_accounts (D : Decompress σ) {calls : List Call} :
    ∀ {decoder last : Decoder σ} {results : List (Except CodecError Bytes)},
      run D decoder calls = some (results, last) →
      ∃ entries, Session D decoder entries last ∧ entries.map (·.1) = calls ∧
        entries.map (·.2.1) = results ∧ (∀ e ∈ entries, Balances e.1 e.2.1 e.2.2) ∧
        (entries.map (·.2.2.calls)).sum ≤ costBound entries := by
  induction calls with
  | nil =>
    intro decoder last results h
    obtain ⟨rfl, rfl⟩ := Prod.mk.inj (Option.some.inj h)
    exact ⟨[], .done, rfl, rfl, nofun, Nat.le_refl _⟩
  | cons call calls ih =>
    intro decoder last results h
    simp only [run, Option.bind_eq_bind, Option.bind_eq_some_iff] at h
    obtain ⟨⟨result, next⟩, hcall, ⟨more, last'⟩, hmore, he⟩ := h
    obtain ⟨rfl, rfl⟩ := Prod.mk.inj (Option.some.inj he)
    obtain ⟨account, haccounts, hbalances⟩ := decompress_accounts hcall
    obtain ⟨entries, hsession, hcalls, hresults, hall, hcost⟩ := ih hmore
    refine ⟨_, .call hcall haccounts hsession, congrArg _ hcalls, congrArg _ hresults,
      List.forall_mem_cons.mpr ⟨hbalances, hall⟩, ?_⟩
    have hcalls_le := hbalances.calls_le
    have hclosed : account.closed.length ≤ 4 := hbalances.closing.length_le
    unfold costBound at hcost ⊢
    simp only [List.map_cons, List.sum_cons]
    omega

/-- Two bytes over the backend that copies. -/
theorem run_accounts_copy :
    ∃ entries last, Session copyDecompress (Decoder.forPeer copyDecompress 15 false) entries last ∧
      entries.map (·.2.1) = [.ok [7, 8]] ∧ (∀ e ∈ entries, Balances e.1 e.2.1 e.2.2) ∧
      (entries.map (·.2.2.calls)).sum ≤ costBound entries := by
  let opened : Decoder (ℕ × ℕ) :=
    { Decoder.forPeer copyDecompress 15 false with inflater := (2, 2), streamOpen := true }
  have hinflate : (Decoder.forPeer copyDecompress 15 false).inflate copyDecompress [7, 8]
      ⟨2, by decide⟩ [] = some ⟨.ok false, opened, [7, 8]⟩ := Loop.run_of_runFor (n := 2) rfl
  have hcall : (Decoder.forPeer copyDecompress 15 false).decompress copyDecompress [7, 8] false
      ⟨2, by decide⟩ = some (.ok [7, 8], { opened with delivered := 2 }) := by
    unfold Decoder.decompress
    rw [if_neg (by decide)]
    simp only [Decoder.decode, hinflate]
    rfl
  have hrun : run copyDecompress (Decoder.forPeer copyDecompress 15 false)
      [⟨[7, 8], false, ⟨2, by decide⟩⟩] = some ([.ok [7, 8]], { opened with delivered := 2 }) :=
    run_cons hcall (run_nil _ _)
  obtain ⟨entries, hsession, -, hresults, hbalances, hcost⟩ := run_accounts copyDecompress hrun
  exact ⟨entries, _, hsession, hresults, hbalances, hcost⟩

end Runs

end WsPmd.Decoding
