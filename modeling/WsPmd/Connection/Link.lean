import WsPmd.Connection.Relay
import WsPmd.Encoder.Steps
import WsPmd.Library.Trace

/-!
# One direction of a connection, under any interleaving

One end prepares, commits, gives up, drops and leaks; the other takes what has arrived,
cut as it pleases and under whatever limit it pleases, whenever it pleases. Neither waits
for the other. The invariant pairs what the sender's compressor retains with where the
receiver will stand once it has read everything under way, so what is under way is
always worth exactly what was committed and not yet delivered.
-/

namespace WsPmd.Connection

open Grammar (Bytes)
open Library
open Library.ByteMachine (Position Pending)
open Library.Deflate (Headed Inflater machine)
open Encoding (World Action Reply Aligned SyncFlushes)
open RoundTrip (Retains Linked)
open Decoding (place Greedy)

/-- A sender, the symbols under way, and the receiver. -/
structure Link (σ τ : Type) where
  sender : World σ
  wire : List Symbol
  receiver : Decoder τ

inductive Event where
  | asked (action : Action) (reply : Reply)
  | received (part : Bytes) (finalFragment : Bool) (limit : DecompressedLimit)
      (result : Except CodecError Bytes)

/-- What an answer of the sender's puts on the wire. -/
def emitted : Reply → List Symbol
  | .guard => []
  | .fragment bytes => spell bytes false
  | .message bytes => spell bytes true
  | .released => []
  | .refused _ => []

/-- Either end makes a call. The receiver is handed the front of what is under way. -/
inductive Step {σ τ : Type} (C : Compress σ) (A : Allocator) (D : Decompress τ) :
    Link σ τ → List Event → Link σ τ → Prop where
  | asked {link : Link σ τ} {action : Action} {reply : Reply} {world : World σ} :
      Encoding.step C A link.sender action = some (reply, world) →
      Step C A D link [.asked action reply]
        { link with sender := world, wire := link.wire ++ emitted reply }
  | received {link : Link σ τ} {part : Bytes} {finalFragment : Bool} {rest : List Symbol}
      {limit : DecompressedLimit} {result : Except CodecError Bytes} {decoder : Decoder τ} :
      link.wire = spell part finalFragment ++ rest →
      link.receiver.decompress D part finalFragment limit = some (result, decoder) →
      Step C A D link [.received part finalFragment limit result]
        { link with wire := rest, receiver := decoder }

/-! ## What either host saw -/

/-- The payload of the candidate at hand, and everything that was committed. -/
structure Outbox where
  pending : Bytes
  sent : List Symbol

namespace Outbox

def after (outbox : Outbox) : Event → Outbox
  | .asked (.prepareMessage payload) _ => { outbox with pending := payload }
  | .asked (.prepareNonFinalFragment payload) _ => { outbox with pending := payload }
  | .asked (.prepareFinalFragment payload) _ => { outbox with pending := payload }
  | .asked .commit (.fragment _) =>
    { outbox with sent := outbox.sent ++ spell outbox.pending false }
  | .asked .commit (.message _) =>
    { outbox with sent := outbox.sent ++ spell outbox.pending true }
  | _ => outbox

end Outbox

def outbox (log : List Event) : Outbox := log.foldl Outbox.after ⟨[], []⟩

/-- What the sending host committed. -/
def sent (log : List Event) : List Symbol := (outbox log).sent

def Event.delivered : Event → List Symbol
  | .received _ finalFragment _ (.ok out) => spell out finalFragment
  | _ => []

def Event.fails : Event → Bool
  | .received _ _ _ (.error _) => true
  | _ => false

/-- What the receiving host was given. -/
def received (log : List Event) : List Symbol := log.flatMap Event.delivered

/-- Whether a call of the receiver's failed. -/
def failed (log : List Event) : Bool := log.any Event.fails

section Logs

variable (log : List Event) (event : Event)

theorem outbox_concat : outbox (log ++ [event]) = (outbox log).after event := by
  simp only [outbox, List.foldl_append, List.foldl_cons, List.foldl_nil]

theorem received_concat : received (log ++ [event]) = received log ++ event.delivered := by
  simp only [received, List.flatMap_append, List.flatMap_singleton]

theorem failed_concat : failed (log ++ [event]) = (failed log || event.fails) := by
  simp only [failed, List.any_append, List.any_cons, List.any_nil, Bool.or_false]

/-- Nothing that was sent is taken back. -/
theorem Outbox.sent_grows (outbox : Outbox) (action : Action) (reply : Reply) :
    outbox.sent <+: (outbox.after (.asked action reply)).sent := by
  cases action with
  | commit =>
    cases reply with
    | fragment bytes => exact List.prefix_append _ _
    | message bytes => exact List.prefix_append _ _
    | _ => exact List.prefix_refl _
  | _ => exact List.prefix_refl _

end Logs

/-- A call of the receiver's answers what was committed next, if its limit allows that,
and else that the message is too long; behind a failure it answers `Poisoned`. -/
def Law (before : List Event) : Event → Prop
  | .asked _ _ => True
  | .received _ finalFragment limit result =>
    if failed before then result = .error .poisoned
    else ∃ out, received before ++ spell out finalFragment <+: sent before ∧
      if saturatingAdd (given (received before)) out.length ≤ limit.bytes then result = .ok out
      else ∃ size, result = .error (.messageTooLong size limit.bytes)

/-! ## The sender, beside where the receiver will stand -/

section Pairing

variable {σ : Type} {C : Compress σ} {A : Allocator} {holds : σ → Bytes → Prop}
  {level windowBits window : ℕ} {reset reset' : Bool} {τ : Type} {I : Inflater window τ}
  {p : Position τ}

/-- A compressor on loan that made `text` of bytes which the receiver will read behind
`recent`. -/
structure Loaned (I : Inflater window τ) (holds : σ → Bytes → Prop) (reset : Bool) (p : Position τ)
    (encoder : Encoder σ) (compressor : σ) (text recent : Bytes) : Prop where
  vacant : encoder = ⟨none, reset⟩
  boundary : I.Boundary p.state recent
  retains : Retains holds compressor (text.reverse ++ recent)

/-- What the sender holds, beside where the receiver will stand when it has read all
that is under way. A sender that lost a candidate owes nothing. -/
def Paired (I : Inflater window τ) (holds : σ → Bytes → Prop) (allowed : ℕ) (reset : Bool)
    (p : Position τ) (pending : Bytes) : World σ → Prop
  | .idle encoder => encoder.resetBetweenMessages = reset ∧ (encoder.compressor = none ∨
      ∃ recent, I.Boundary p.state recent ∧ Linked holds reset encoder recent)
  | .prepared guard => ∃ recent, Headed allowed recent guard.bytes pending ∧
      Loaned I holds reset p guard.encoder guard.compressor pending recent
  | .streaming stream => ∃ recent,
      Loaned I holds reset p stream.encoder stream.compressor [] recent
  | .nonFinal fragment => ∃ recent, Aligned allowed recent fragment.bytes pending ∧
      Loaned I holds reset p fragment.encoder fragment.compressor pending recent
  | .final fragment => ∃ recent, Headed allowed recent fragment.bytes pending ∧
      Loaned I holds reset p fragment.encoder fragment.compressor pending recent

/-- Whatever guard is abandoned, the encoder it borrowed is vacant. -/
theorem Paired.borrowed {allowed : ℕ} {pending : Bytes} {world : World σ} {encoder : Encoder σ}
    (h : Paired I holds allowed reset p pending world) (hborrowed : world.borrowed = some encoder) :
    encoder = ⟨none, reset⟩ := by
  cases world with
  | idle encoder' => cases hborrowed
  | prepared guard =>
    obtain rfl := Option.some.inj hborrowed
    obtain ⟨_, _, hloan⟩ := h
    exact hloan.vacant
  | streaming stream =>
    obtain rfl := Option.some.inj hborrowed
    obtain ⟨_, hloan⟩ := h
    exact hloan.vacant
  | nonFinal fragment =>
    obtain rfl := Option.some.inj hborrowed
    obtain ⟨_, _, hloan⟩ := h
    exact hloan.vacant
  | final fragment =>
    obtain rfl := Option.some.inj hborrowed
    obtain ⟨_, _, hloan⟩ := h
    exact hloan.vacant

/-- What a call of the sender's puts on the wire is worth what it committed, and leaves
the sender paired with where the receiver will stand behind it. -/
def Worth (I : Inflater window τ) (holds : σ → Bytes → Prop) (allowed : ℕ) (reset reset' : Bool)
    (p : Position τ) (before after : Outbox) (wire : List Symbol)
    (world : World σ) : Prop :=
  ∃ text q, relay I.machine reset' p wire = some (text, q) ∧
    after.sent = before.sent ++ text ∧ Paired I holds allowed reset q after.pending world

/-- A call that puts nothing on the wire. -/
theorem Worth.nothing {allowed : ℕ} {before after : Outbox} {world : World σ}
    (hsent : after.sent = before.sent) (h : Paired I holds allowed reset p after.pending world) :
    Worth I holds allowed reset reset' p before after [] world :=
  ⟨[], p, rfl, by rw [hsent, List.append_nil], h⟩

/-- The bytes of a candidate go out, and it was all of them. -/
theorem Worth.fragment {allowed : ℕ} {before after : Outbox} {bytes : Bytes}
    {finalFragment : Bool} {world : World σ} {q : Position τ}
    (hdue : Decoding.deliver I.machine reset' p bytes finalFragment =
      some (before.pending, q))
    (hsent : after.sent = before.sent ++ spell before.pending finalFragment)
    (h : Paired I holds allowed reset q after.pending world) :
    Worth I holds allowed reset reset' p before after (spell bytes finalFragment) world := by
  refine ⟨_, q, ?_, hsent, h⟩
  rw [relay_spell, hdue]
  rfl

/-- The compressor goes back at the end of a message. -/
theorem Loaned.restore (hC : SyncFlushes C holds level windowBits)
    (htakeover : reset' = true → reset = true) {encoder : Encoder σ} {compressor : σ}
    {text recent : Bytes} (h : Loaned I holds reset p encoder compressor text recent)
    {q : Position τ}
    (hq : I.Boundary q.state (if reset' then [] else text.reverse ++ recent)) {pending : Bytes} :
    Paired I holds (2 ^ windowBits) reset q pending (.idle (encoder.restore C compressor)) := by
  have hsetting : encoder.resetBetweenMessages = reset := by rw [h.vacant]
  exact ⟨hsetting, Or.inr ⟨_, hq, h.retains.restore hC htakeover hsetting⟩⟩

theorem held_retains {encoder : Encoder σ} {compressor : σ}
    (h : encoder.compressor = none ∨
      ∃ recent, I.Boundary p.state recent ∧ Linked holds reset encoder recent)
    (hsome : encoder.compressor = some compressor) :
    ∃ recent, I.Boundary p.state recent ∧ Retains holds compressor recent := by
  rcases h with hnone | ⟨recent, hp, hlinked⟩
  · cases hnone.symm.trans hsome
  · obtain ⟨compressor', hsome', hretains⟩ := hlinked.held
    obtain rfl := Option.some.inj (hsome.symm.trans hsome')
    exact ⟨recent, hp, hretains⟩

/-- **One call of the sender's.** -/
theorem asked_worth (hC : SyncFlushes C holds level windowBits) (hw : 2 ^ windowBits ≤ window)
    (htakeover : reset' = true → reset = true) {world world' : World σ} {action : Action}
    {reply : Reply} {outbox : Outbox}
    (h : Paired I holds (2 ^ windowBits) reset p outbox.pending world)
    (hstep : Encoding.step C A world action = some (reply, world')) :
    Worth I holds (2 ^ windowBits) reset reset' p outbox
      (outbox.after (.asked action reply)) (emitted reply) world' := by
  cases Encoding.stepped_of_step hstep with
  | prepareMessage hsome hproduce =>
    obtain ⟨hsetting, hheld⟩ := h
    obtain ⟨output, haligned, hstrip⟩ := Encoding.produce_ok hproduce
    obtain ⟨recent, hp, hretains⟩ := held_retains hheld hsome
    obtain ⟨hout, hnext⟩ := hretains.chunk hC haligned
    refine .nothing rfl ⟨recent, RoundTrip.Aligned.strip hout hstrip, ?_, hp, hnext⟩
    rw [Encoder.vacated, hsetting]
  | refuseMessage => exact .nothing rfl ⟨h.1, Or.inl rfl⟩
  | vacantMessage hvacant => exact .nothing rfl ⟨h.1, Or.inl hvacant⟩
  | beginStreamingMessage hsome =>
    obtain ⟨hsetting, hheld⟩ := h
    obtain ⟨recent, hp, hretains⟩ := held_retains hheld hsome
    refine .nothing rfl ⟨recent, ?_, hp, hretains⟩
    rw [Encoder.vacated, hsetting]
  | vacantStream hvacant => exact .nothing rfl ⟨h.1, Or.inl hvacant⟩
  | prepareNonFinalFragment hproduce =>
    obtain ⟨recent, hloan⟩ := h
    obtain ⟨hout, hnext⟩ := hloan.retains.chunk hC (Encoding.produceNonFinal_ok hproduce)
    exact .nothing rfl ⟨recent, hout, hloan.vacant, hloan.boundary, hnext⟩
  | refuseNonFinalFragment =>
    rw [h.borrowed rfl]
    exact .nothing rfl ⟨rfl, Or.inl rfl⟩
  | prepareFinalFragment hproduce =>
    obtain ⟨recent, hloan⟩ := h
    obtain ⟨output, haligned, hstrip⟩ := Encoding.produce_ok hproduce
    obtain ⟨hout, hnext⟩ := hloan.retains.chunk hC haligned
    exact .nothing rfl ⟨recent, RoundTrip.Aligned.strip hout hstrip, hloan.vacant,
      hloan.boundary, hnext⟩
  | refuseFinalFragment =>
    rw [h.borrowed rfl]
    exact .nothing rfl ⟨rfl, Or.inl rfl⟩
  | commitMessage =>
    obtain ⟨recent, hheaded, hloan⟩ := h
    obtain ⟨q, hdue, hq⟩ := headed_delivers hheaded hw hloan.boundary reset'
    exact .fragment hdue rfl (hloan.restore hC htakeover hq)
  | commitNonFinal =>
    obtain ⟨recent, haligned, hloan⟩ := h
    obtain ⟨q, hdue, hq⟩ := aligned_delivers haligned hw hloan.boundary reset'
    exact .fragment hdue rfl ⟨_, hloan.vacant, hq, hloan.retains⟩
  | commitFinal =>
    obtain ⟨recent, hheaded, hloan⟩ := h
    obtain ⟨q, hdue, hq⟩ := headed_delivers hheaded hw hloan.boundary reset'
    exact .fragment hdue rfl (hloan.restore hC htakeover hq)
  | @resetToPlain guard =>
    obtain ⟨recent, -, hloan⟩ := h
    have hsetting : guard.encoder.resetBetweenMessages = reset := by rw [hloan.vacant]
    -- What was given up is on neither wire nor receiver, and the compressor forgets it.
    exact .nothing rfl ⟨hsetting, Or.inr ⟨recent, hloan.boundary, hsetting, _, rfl,
      hloan.retains.reset hC recent⟩⟩
  | drop hborrowed =>
    rw [h.borrowed hborrowed]
    exact .nothing rfl ⟨rfl, Or.inl rfl⟩
  | leak hborrowed =>
    rw [h.borrowed hborrowed]
    exact .nothing rfl ⟨rfl, Or.inl rfl⟩

end Pairing

/-! ## The two ends together -/

section Coupling

variable {σ τ : Type} {C : Compress σ} {A : Allocator} {D : Decompress (Pending τ)}
  {holds : σ → Bytes → Prop} {level windowBits receiverBits window : ℕ} {reset : Bool}
  {I : Inflater window τ}

/-- A receiver at a position, which makes of the symbols under way exactly what it is
still owed; or one that failed, and was given nothing since. -/
inductive Coupled (I : Inflater window τ) (holds : σ → Bytes → Prop) (allowed : ℕ) (reset : Bool)
    (start : Decoder (Pending τ)) (log : List Event) (link : Link σ (Pending τ)) : Prop where
  | standing {p q : Position τ} {due : List Symbol} :
      failed log = false → I.machine.Live p →
      link.receiver = place start p (min (given (received log)) usizeMax) →
      relay I.machine start.resetBetweenMessages p link.wire = some (due, q) →
      sent log = received log ++ due →
      Paired I holds allowed reset q (outbox log).pending link.sender →
      Coupled I holds allowed reset start log link
  | poisoned :
      failed log = true → link.receiver.poisoned = true → received log <+: sent log →
      Coupled I holds allowed reset start log link

theorem Coupled.in_order {allowed : ℕ} {start : Decoder (Pending τ)}
    {log : List Event} {link : Link σ (Pending τ)}
    (h : Coupled I holds allowed reset start log link) : received log <+: sent log := by
  cases h with
  | standing _ _ _ _ hsent _ =>
    rw [hsent]
    exact List.prefix_append _ _
  | poisoned _ _ hprefix => exact hprefix

section Steps

variable (hC : SyncFlushes C holds level windowBits) (hw : 2 ^ windowBits ≤ window)
  (hG : Greedy I.machine D receiverBits) {start : Decoder (Pending τ)}
  (hc : start.config = ⟨false, receiverBits⟩) (hlive : start.poisoned = false)
  (htakeover : start.resetBetweenMessages = true → reset = true)
  {log : List Event} {link : Link σ (Pending τ)}

include hC hw htakeover in
/-- A call of the sender's leaves the ends coupled. -/
theorem Coupled.asked (h : Coupled I holds (2 ^ windowBits) reset start log link)
    {action : Action} {reply : Reply} {world : World σ}
    (hstep : Encoding.step C A link.sender action = some (reply, world)) :
    Coupled I holds (2 ^ windowBits) reset start (log ++ [.asked action reply])
      { link with sender := world, wire := link.wire ++ emitted reply } := by
  have hreceived : received (log ++ [.asked action reply]) = received log := by
    rw [received_concat]
    exact List.append_nil _
  have hfailed : failed (log ++ [.asked action reply]) = failed log := by
    rw [failed_concat]
    exact Bool.or_false _
  cases h with
  | @standing p q due hgoes hp hreceiver hwire hsent hpaired =>
    obtain ⟨text, q', hrelay, hgrown, hpaired'⟩ := asked_worth hC hw htakeover hpaired hstep
    have hwire' : relay I.machine start.resetBetweenMessages p
        (link.wire ++ emitted reply) = some (due ++ text, q') := by
      rw [relay_append, hwire, Option.bind_some, hrelay]
      rfl
    have hsent' : sent (log ++ [.asked action reply]) = received log ++ (due ++ text) := by
      rw [← List.append_assoc, ← hsent, sent, outbox_concat]
      exact hgrown
    refine .standing (hfailed.trans hgoes) hp ?_ hwire' ?_ ?_
    · rw [hreceived]
      exact hreceiver
    · rw [hreceived]
      exact hsent'
    · rw [outbox_concat]
      exact hpaired'
  | poisoned hover hpoisoned hprefix =>
    refine .poisoned (hfailed.trans hover) hpoisoned ?_
    rw [hreceived, sent, outbox_concat]
    exact hprefix.trans (Outbox.sent_grows _ _ _)

include hG hc hlive in
/-- A call of the receiver's answers as it has to, and leaves the ends coupled. -/
theorem Coupled.received {allowed : ℕ}
    (h : Coupled I holds allowed reset start log link) {part : Bytes}
    {finalFragment : Bool} {rest : List Symbol} {limit : DecompressedLimit}
    {result : Except CodecError Bytes} {decoder : Decoder (Pending τ)}
    (hfront : link.wire = spell part finalFragment ++ rest)
    (hcall : link.receiver.decompress D part finalFragment limit = some (result, decoder)) :
    Law log (.received part finalFragment limit result) ∧
      Coupled I holds allowed reset start
        (log ++ [.received part finalFragment limit result])
        { link with wire := rest, receiver := decoder } := by
  have houtbox : outbox (log ++ [.received part finalFragment limit result]) = outbox log :=
    outbox_concat _ _
  cases h with
  | @standing p q due hgoes hp hreceiver hwire hsent hpaired =>
    rw [hfront] at hwire
    obtain ⟨out, q1, more, hdue, hmore, rfl⟩ := relay_front hwire
    have hsum : saturatingAdd (min (given (Connection.received log)) usizeMax) out.length =
        saturatingAdd (given (Connection.received log)) out.length := by
      unfold saturatingAdd
      omega
    rw [hreceiver] at hcall
    have hnext : Connection.received log ++ spell out finalFragment <+: sent log := by
      rw [hsent, ← List.append_assoc]
      exact List.prefix_append _ _
    by_cases hfit : saturatingAdd (given (Connection.received log)) out.length ≤ limit.bytes
    · rw [Decoding.decompress_delivers hG hc hlive hp hdue (hsum ▸ hfit)] at hcall
      obtain ⟨rfl, rfl⟩ := Prod.mk.inj (Option.some.inj hcall)
      have hreceived : Connection.received
          (log ++ [.received part finalFragment limit (.ok out)]) =
            Connection.received log ++ spell out finalFragment := received_concat _ _
      refine ⟨?_, .standing ?_ (Decoding.deliver_live hp hdue) ?_ hmore ?_ ?_⟩
      · simp only [Law, hgoes, Bool.false_eq_true, if_false]
        exact ⟨out, hnext, by rw [if_pos hfit]⟩
      · rw [failed_concat, hgoes]
        rfl
      · rw [hreceived, given_spell, hsum]
        cases finalFragment with
        | false => rfl
        | true =>
          simp only [if_true, Nat.zero_min]
      · rw [hreceived, List.append_assoc, ← hsent, sent, houtbox]
        rfl
      · rw [houtbox]
        exact hpaired
    · -- What the part delivers is past the limit, and that is the only way to fail.
      have hplaced : (place start p (min (given (Connection.received log)) usizeMax)).poisoned =
          false := hlive
      have hverdict : Decoding.Verdict I.machine _ p _ ⟨part, finalFragment, limit⟩ result :=
        Decoding.decompress_verdict hG hc hlive hp hcall
      cases hverdict with
      | answered hdue' hfit' =>
        obtain ⟨rfl, -⟩ := Prod.mk.inj (Option.some.inj (hdue.symm.trans hdue'))
        exact absurd (hsum ▸ hfit') hfit
      | invalid hnone =>
        rw [hdue] at hnone
        cases hnone
      | @tooLong size hpast hsize =>
        obtain ⟨-, hpoisoned⟩ := (Decoding.decompress_spec hplaced hcall).failed _ rfl
        refine ⟨?_, .poisoned ?_ hpoisoned ?_⟩
        · simp only [Law, hgoes, Bool.false_eq_true, if_false]
          exact ⟨out, hnext, by rw [if_neg hfit]; exact ⟨size, rfl⟩⟩
        · rw [failed_concat]
          exact Bool.or_true _
        · rw [received_concat, sent, houtbox]
          change Connection.received log ++ [] <+: _
          rw [List.append_nil]
          exact (List.prefix_append _ _).trans hnext
  | poisoned hover hpoisoned hprefix =>
    rw [Decoding.decompress_poisoned D hpoisoned] at hcall
    obtain ⟨rfl, rfl⟩ := Prod.mk.inj (Option.some.inj hcall)
    refine ⟨?_, .poisoned ?_ hpoisoned ?_⟩
    · simp only [Law, hover, if_true]
    · rw [failed_concat, hover]
      rfl
    · rw [received_concat, sent, houtbox]
      change Connection.received log ++ [] <+: _
      rwa [List.append_nil]

include hC hw hG hc hlive htakeover in
theorem trace_coupled {last : Link σ (Pending τ)}
    (hstart : Coupled I holds (2 ^ windowBits) reset start [] link)
    (h : Trace (Step C A D) link log last) :
    Each Law log ∧ Coupled I holds (2 ^ windowBits) reset start log last := by
  refine Trace.invariant (fun log link => Each Law log ∧
    Coupled I holds (2 ^ windowBits) reset start log link) ⟨each_nil Law, hstart⟩ ?_ h
  intro log before events after ⟨hlaw, hcoupled⟩ hstep
  cases hstep with
  | asked hasked => exact ⟨each_concat.mpr ⟨hlaw, trivial⟩, hcoupled.asked hC hw htakeover hasked⟩
  | received hfront hcall =>
    obtain ⟨hanswer, hnext⟩ := hcoupled.received hG hc hlive hfront hcall
    exact ⟨each_concat.mpr ⟨hlaw, hanswer⟩, hnext⟩

include hG hc hlive in
/-- The receiver answers whatever it is handed. -/
theorem Coupled.answers {allowed : ℕ}
    (h : Coupled I holds allowed reset start log link) (part : Bytes)
    (finalFragment : Bool) (limit : DecompressedLimit) :
    ∃ result decoder,
      link.receiver.decompress D part finalFragment limit = some (result, decoder) := by
  cases h with
  | standing _ hp hreceiver _ _ _ =>
    obtain ⟨result, decoder, hcall, -⟩ :=
      Decoding.decompress_placed hG hc hlive hp _ ⟨part, finalFragment, limit⟩
    rw [hreceiver]
    exact ⟨result, decoder, hcall⟩
  | poisoned _ hpoisoned _ =>
    exact ⟨_, _, Decoding.decompress_poisoned D hpoisoned part finalFragment limit⟩

end Steps

/-- Two ends as their agreements mint them. -/
theorem coupled_start (hC : SyncFlushes C holds level windowBits)
    (hG : Greedy I.machine D (InflaterConfig.forPeerWindow receiverBits).windowBits)
    (takeover : Bool) :
    Coupled I holds (2 ^ windowBits) reset (Decoder.forPeer D receiverBits takeover) []
      ⟨.idle ⟨some (C.newWithWindowBits level false windowBits), reset⟩, [],
        Decoder.forPeer D receiverBits takeover⟩ :=
  .standing rfl I.machine.live_fresh (Decoding.forPeer_placed takeover hG) rfl rfl
    ⟨rfl, Or.inr ⟨[], I.boundary_start, rfl, _, rfl, [], hC.built, List.nil_prefix⟩⟩

/-- What holds of a direction at any point: what was given is the front of what was
committed, and all of it once nothing is under way, unless a call failed; each call of the
receiver's was answered as it has to be, and whatever is asked next will be. -/
structure Safe (D : Decompress (Pending τ)) (log : List Event)
    (link : Link σ (Pending τ)) : Prop where
  in_order : received log <+: sent log
  complete : failed log = false → link.wire = [] → received log = sent log
  lawful : Each Law log
  answers : ∀ part finalFragment limit, ∃ result decoder,
    link.receiver.decompress D part finalFragment limit = some (result, decoder)

theorem trace_safe (hC : SyncFlushes C holds level windowBits)
    (hbits : windowBits ≤ receiverBits) (hwindow : 2 ^ receiverBits ≤ window)
    (hG : Greedy I.machine D (InflaterConfig.forPeerWindow receiverBits).windowBits)
    {takeover : Bool} (htakeover : takeover = true → reset = true) {log : List Event}
    {link : Link σ (Pending τ)}
    (htrace : Trace (Step C A D)
      ⟨.idle ⟨some (C.newWithWindowBits level false windowBits), reset⟩, [],
        Decoder.forPeer D receiverBits takeover⟩ log link) : Safe D log link := by
  have hw : 2 ^ windowBits ≤ window := (Nat.pow_le_pow_right (by omega) hbits).trans hwindow
  obtain ⟨hlaw, hcoupled⟩ :=
    trace_coupled hC hw hG rfl rfl htakeover (coupled_start hC hG takeover) htrace
  refine ⟨hcoupled.in_order, fun hgoes hwire => ?_, hlaw, hcoupled.answers hG rfl rfl⟩
  cases hcoupled with
  | standing _ _ _ hrelay hsent _ =>
    rw [hwire] at hrelay
    obtain ⟨rfl, -⟩ := Prod.mk.inj (Option.some.inj hrelay)
    rw [hsent, List.append_nil]
  | poisoned hover _ _ =>
    rw [hgoes] at hover
    cases hover

end Coupling

/-- **A direction of a connection is safe under any interleaving.** Let either end make
any calls in any order, the sender giving up, dropping, leaking and failing as it may, and
the receiver taking what is under way in any pieces under any limits. At every point what
the receiving host was given is the front of what the sending host committed, and all of
it when nothing is under way and no call failed. Every call of the receiver's returns; it
answers what was committed next if that fits its limit, else `MessageTooLong`, and behind
that `Poisoned`. -/
theorem link_safe {σ σ' τ ρ : Type} (C : Compress σ) (A : Allocator) (C' : Compress σ')
    (D' : Decompress τ) (window : ℕ) (I : Inflater window ρ)
    (D : Decompress (Pending ρ))
    {sender receiver : Negotiated} {config config' : EncoderConfig} {encoder : Encoder σ}
    {encoder' : Encoder σ'} {decoder' : Decoder τ} {decoder : Decoder (Pending ρ)}
    (hsender : sender.intoCodecs C D' config = some (encoder, decoder'))
    (hreceiver : receiver.intoCodecs C' D config' = some (encoder', decoder))
    (hbits : sender.localMaxWindowBits ≤ receiver.peerMaxWindowBits)
    (htakeover : receiver.peerNoContextTakeover = true → sender.localNoContextTakeover = true)
    (holds : σ → Bytes → Prop)
    (hC : SyncFlushes C holds config.level sender.localMaxWindowBits)
    (hG : Greedy I.machine D
      (InflaterConfig.forPeerWindow receiver.peerMaxWindowBits).windowBits)
    (hwindow : 2 ^ receiver.peerMaxWindowBits ≤ window) {log : List Event}
    {link : Link σ (Pending ρ)}
    (htrace : Trace (Step C A D) ⟨.idle encoder, [], decoder⟩ log link) :
    Safe D log link := by
  obtain ⟨rfl, -⟩ := RoundTrip.intoCodecs_some hsender
  obtain ⟨-, rfl⟩ := RoundTrip.intoCodecs_some hreceiver
  exact trace_safe hC hbits hwindow hG htakeover htrace

/-- A sender and a receiver over backends that store, as agreements on a window and on
whether it is kept mint them. -/
def storedLink (bits : ℕ) (reset : Bool) : Link Encoding.Stored (Pending Deflate.State) :=
  ⟨.idle ⟨some ⟨[], [], 0, 0⟩, reset⟩, [],
    Decoder.forPeer (Decoding.greedyInflater (machine (2 ^ 15))) bits reset⟩

/-- A message of one byte is committed, and arrives in two parts. -/
theorem stored_arrives (bits : ℕ) (reset : Bool) :
    ∃ log link, Trace (Step Encoding.storedCompress Encoding.exactAllocator
        (Decoding.greedyInflater (machine (2 ^ 15)))) (storedLink bits reset) log link ∧
      sent log = spell [0x61] true ∧ received log = spell [0x61] true := by
  let D := Decoding.greedyInflater (machine (2 ^ 15))
  let receiver := (storedLink bits reset).receiver
  have hG := Decoding.greedyInflater_greedy (machine (2 ^ 15)) receiver.config.windowBits
  have hfresh := (machine (2 ^ 15)).live_fresh
  have hfit : 1 ≤ usizeMax := by decide
  obtain ⟨q, q', hq, hq'⟩ : ∃ q q',
      Decoding.deliver (machine (2 ^ 15)) receiver.resetBetweenMessages (machine (2 ^ 15)).fresh
        [0x00, 0x01, 0x00] false = some ([], q) ∧
      Decoding.deliver (machine (2 ^ 15)) receiver.resetBetweenMessages q
        [0xfe, 0xff, 0x61, 0x00] true = some ([0x61], q') := ⟨_, _, rfl, rfl⟩
  have hnone : saturatingAdd 0 ([] : Bytes).length ≤ (⟨1, hfit⟩ : DecompressedLimit).bytes :=
    Nat.zero_le 1
  have hone : saturatingAdd 0 ([0x61] : Bytes).length ≤ (⟨1, hfit⟩ : DecompressedLimit).bytes :=
    Nat.le_refl 1
  have hfirst : receiver.decompress D [0x00, 0x01, 0x00] false ⟨1, hfit⟩ =
      some (.ok [], place receiver q 0) :=
    Decoding.decompress_delivers hG rfl rfl hfresh hq hnone
  have hsecond : (place receiver q 0).decompress D [0xfe, 0xff, 0x61, 0x00] true ⟨1, hfit⟩ =
      some (.ok [0x61], place receiver q' 0) :=
    Decoding.decompress_delivers hG rfl rfl (Decoding.deliver_live hfresh hq) hq' hone
  have hprepared : Step Encoding.storedCompress Encoding.exactAllocator D (storedLink bits reset)
      [.asked (.prepareMessage [0x61]) .guard]
      ⟨.prepared ⟨⟨none, reset⟩, ⟨[], [], 1, 11⟩, [0x00, 0x01, 0x00, 0xfe, 0xff, 0x61, 0x00]⟩, [],
        receiver⟩ :=
    .asked (by simp only [Encoding.step, storedLink, Encoding.stored_prepares])
  obtain ⟨encoder, hcommit⟩ : ∃ encoder, Encoding.step Encoding.storedCompress
      Encoding.exactAllocator (.prepared ⟨⟨none, reset⟩, ⟨[], [], 1, 11⟩,
        [0x00, 0x01, 0x00, 0xfe, 0xff, 0x61, 0x00]⟩) .commit =
      some (.message [0x00, 0x01, 0x00, 0xfe, 0xff, 0x61, 0x00], .idle encoder) := ⟨_, rfl⟩
  have hcommitted : Step Encoding.storedCompress Encoding.exactAllocator D
      ⟨.prepared ⟨⟨none, reset⟩, ⟨[], [], 1, 11⟩, [0x00, 0x01, 0x00, 0xfe, 0xff, 0x61, 0x00]⟩, [],
        receiver⟩
      [.asked .commit (.message [0x00, 0x01, 0x00, 0xfe, 0xff, 0x61, 0x00])]
      ⟨.idle encoder, spell [0x00, 0x01, 0x00, 0xfe, 0xff, 0x61, 0x00] true, receiver⟩ :=
    .asked hcommit
  have hpart : Step Encoding.storedCompress Encoding.exactAllocator D
      ⟨.idle encoder, spell [0x00, 0x01, 0x00, 0xfe, 0xff, 0x61, 0x00] true, receiver⟩
      [.received [0x00, 0x01, 0x00] false ⟨1, hfit⟩ (.ok [])]
      ⟨.idle encoder, spell [0xfe, 0xff, 0x61, 0x00] true, place receiver q 0⟩ :=
    .received rfl hfirst
  have hlast : Step Encoding.storedCompress Encoding.exactAllocator D
      ⟨.idle encoder, spell [0xfe, 0xff, 0x61, 0x00] true, place receiver q 0⟩
      [.received [0xfe, 0xff, 0x61, 0x00] true ⟨1, hfit⟩ (.ok [0x61])]
      ⟨.idle encoder, [], place receiver q' 0⟩ := .received rfl hsecond
  exact ⟨_, _, (((Trace.single hprepared).tail hcommitted).tail hpart).tail hlast, rfl, rfl⟩

/-- The same, and whatever either end asks next is answered as it has to be. The sender
keeps to a window the receiver has room for, and starts every message afresh. -/
theorem link_safe_stored :
    ∃ log link, Trace (Step Encoding.storedCompress Encoding.exactAllocator
        (Decoding.greedyInflater (machine (2 ^ 15)))) (storedLink 12 true) log link ∧
      received log = spell [0x61] true ∧
      Safe (Decoding.greedyInflater (machine (2 ^ 15))) log link := by
  have hsender : Negotiated.intoCodecs Encoding.storedCompress
      (Decoding.greedyInflater (machine (2 ^ 15))) ⟨.client, false, true, 15, 11⟩ .new =
        some (⟨some ⟨[], [], 0, 0⟩, true⟩, (storedLink 15 false).receiver) := rfl
  have hreceiver : Negotiated.intoCodecs Encoding.storedCompress
      (Decoding.greedyInflater (machine (2 ^ 15))) ⟨.server, false, true, 15, 12⟩ .new =
        some (⟨some ⟨[], [], 0, 0⟩, false⟩, (storedLink 12 true).receiver) := rfl
  obtain ⟨log, link, htrace, -, hreceived⟩ := stored_arrives 12 true
  exact ⟨log, link, htrace, hreceived, link_safe Encoding.storedCompress Encoding.exactAllocator
    Encoding.storedCompress (Decoding.greedyInflater (machine (2 ^ 15))) (2 ^ 15) (.eager _)
    (Decoding.greedyInflater (machine (2 ^ 15))) hsender hreceiver (by decide) (fun _ => rfl) _
    (Encoding.storedCompress_flushes _ _) (Decoding.greedyInflater_greedy _ _) (by decide) htrace⟩

end WsPmd.Connection
