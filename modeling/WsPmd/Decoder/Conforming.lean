import WsPmd.Decoder.Fragments
import WsPmd.Library.Deflate.Inflater

/-!
# Conforming messages

RFC 7692 lets a message be any blocks, final ones included, as long as it ends in
an empty stored block with its last four octets removed. Read from a block boundary
such a payload leaves the inflater where those octets are due, so every call goes
through and the decoder is back at a block boundary.
-/

namespace WsPmd.Decoding

open Grammar (Bytes)
open Library
open Library.ByteMachine (Position Pending)
open Library.Deflate (Stream Headed Inflater machine)

/-- A conforming payload behind a history, the text of the message, and the history
it leaves. A stream that ends inside the message takes its history with it. -/
inductive Payload (window : ℕ) : Bytes → Bytes → Bytes → Bytes → Prop where
  | tail {recent payload text : Bytes} :
      Headed window recent payload text →
      Payload window recent payload text (text.reverse ++ recent)
  | stream {recent recent' first text rest text' : Bytes} :
      Stream window recent first text → Payload window [] rest text' recent' →
      Payload window recent (first ++ rest) (text ++ text') recent'

/-- Payloads and texts of consecutive messages, each within the history the agreement
lets the peer keep. -/
inductive Conversation (window : ℕ) (noContextTakeover : Bool) :
    Bytes → List (Bytes × Bytes) → Prop where
  | nil {recent : Bytes} : Conversation window noContextTakeover recent []
  | cons {recent recent' payload text : Bytes} {rest : List (Bytes × Bytes)} :
      Payload window recent payload text recent' →
      Conversation window noContextTakeover (if noContextTakeover then [] else recent') rest →
      Conversation window noContextTakeover recent ((payload, text) :: rest)

/-- A message as it arrives: its fragments, and the text it is to decompress to. -/
structure Message where
  parts : List Fragment
  last : Fragment
  text : Bytes

def Message.payload (message : Message) : Bytes :=
  (message.parts.map (·.bytes)).flatten ++ message.last.bytes

def Message.calls (message : Message) : List Call := messageCalls message.parts message.last

/-- Every limit the message meets is at least its decompressed size. -/
def Message.Fits (message : Message) : Prop :=
  (∀ part ∈ message.parts, message.text.length ≤ part.limit.bytes) ∧
    message.text.length ≤ message.last.limit.bytes

/-! ## Reading a payload -/

section Reading

variable {window allowed : ℕ} {τ : Type} {I : Inflater window τ}

/-- A conforming payload is read up to where the removed octets are due. -/
theorem Payload.read {recent recent' payload text : Bytes}
    (h : Payload allowed recent payload text recent') (hw : allowed ≤ window) :
    ∀ {p : Position τ}, I.Boundary p.state recent →
      ∃ ended q, I.machine.read p payload = ⟨text, ended, some q⟩ ∧ q.begun = true ∧
        I.LengthDue q.state recent' := by
  induction h with
  | tail hheaded =>
    intro p hp
    obtain ⟨q, hread, hbegun, hdue⟩ := Inflater.read_headed hheaded hw hp
    exact ⟨false, q, hread, hbegun, hdue⟩
  | @stream recent recent' first text rest text' hstream _ ih =>
    intro p hp
    obtain ⟨p1, hfirst, hstart⟩ := Inflater.read_stream hstream hw hp
    obtain ⟨ended, q, hrest, hbegun, hdue⟩ := ih hstart
    refine ⟨true || ended, q, ?_, hbegun, hdue⟩
    have hover : (I.machine.read p first).position = some p1 := by rw [hfirst]
    rw [I.machine.read_append_of rest hover, hfirst, hrest]

/-- What a final call delivers of it: the text, and a block boundary behind it. -/
theorem Payload.deliver {recent recent' payload text : Bytes}
    (h : Payload allowed recent payload text recent') (hw : allowed ≤ window)
    {p : Position τ} (hp : I.Boundary p.state recent) (reset : Bool) :
    ∃ q, Decoding.deliver I.machine reset p payload true = some (text, q) ∧
      I.Boundary q.state (if reset then [] else recent') := by
  obtain ⟨ended, p1, hread, hbegun, hdue⟩ := h.read hw hp
  obtain ⟨q, htrailer, -, hboundary⟩ := hdue.complete
  refine ⟨if reset then I.machine.fresh else q, ?_, ?_⟩
  · have htrailer' : I.machine.read p1 trailer = ⟨[], false, some q⟩ := htrailer
    simp only [Decoding.deliver, hread, htrailer', hbegun, List.append_nil, and_self, if_true]
  · split
    · exact I.boundary_start
    · exact hboundary

end Reading

/-! ## Conversations -/

section Runs

variable {σ : Type} {D : Decompress σ}

theorem run_length {decoder last : Decoder σ} {calls : List Call}
    {results : List (Except CodecError Bytes)} (h : run D decoder calls = some (results, last)) :
    results.length = calls.length := by
  induction calls generalizing decoder results with
  | nil =>
    obtain ⟨rfl, -⟩ := Prod.mk.inj (Option.some.inj h)
    rfl
  | cons call calls ih =>
    simp only [run, Option.bind_eq_bind, Option.bind_eq_some_iff] at h
    obtain ⟨⟨result, mid⟩, -, ⟨more, next'⟩, hmore, he⟩ := h
    obtain ⟨rfl, rfl⟩ := Prod.mk.inj (Option.some.inj he)
    rw [List.length_cons, List.length_cons, ih hmore]

end Runs

section Conversations

variable {window allowed windowBits : ℕ} {τ : Type} {I : Inflater window τ}
  {D : Decompress (Pending τ)}

/-- The answers to a message: one for each of its calls, and its text in all. -/
def Answers (message : Message) (outs : List Bytes) : Prop :=
  outs.length = message.calls.length ∧ outs.flatten = message.text

theorem message_run (hG : Greedy I.machine D windowBits) (hw : allowed ≤ window)
    {decoder : Decoder (Pending τ)} (hc : decoder.config = ⟨false, windowBits⟩)
    (hlive : decoder.poisoned = false) {message : Message} (hfits : message.Fits)
    {recent recent' : Bytes} (h : Payload allowed recent message.payload message.text recent')
    {p : Position τ} (hp : I.Boundary p.state recent) :
    ∃ outs q, run D (place decoder p 0) message.calls =
        some (List.map .ok outs, place decoder q 0) ∧ Answers message outs ∧
      I.Boundary q.state (if decoder.resetBetweenMessages then [] else recent') := by
  obtain ⟨q, hdeliver, hq⟩ := h.deliver hw hp decoder.resetBetweenMessages
  have hzero : saturatingAdd 0 message.text.length ≤ message.text.length := by
    unfold saturatingAdd
    omega
  obtain ⟨outs, hrun, hflat⟩ := message_delivers hG hc hlive message.parts message.last 0
    (hp.live) hdeliver
    (fun part hpart => Nat.le_trans hzero (hfits.1 part hpart)) (Nat.le_trans hzero hfits.2)
  have hlength := run_length hrun
  rw [List.length_map] at hlength
  exact ⟨outs, q, hrun, ⟨hlength, hflat⟩, hq⟩

theorem conversation_run (hG : Greedy I.machine D windowBits) (hw : allowed ≤ window)
    {decoder : Decoder (Pending τ)} (hc : decoder.config = ⟨false, windowBits⟩)
    (hlive : decoder.poisoned = false) (messages : List Message)
    (hfits : ∀ message ∈ messages, message.Fits) :
    ∀ {recent : Bytes} {p : Position τ}, I.Boundary p.state recent →
      Conversation allowed decoder.resetBetweenMessages recent
        (messages.map fun message => (message.payload, message.text)) →
      ∃ (outs : List (List Bytes)) (last : Decoder (Pending τ)),
        run D (place decoder p 0) (messages.flatMap Message.calls) =
          some (outs.flatten.map .ok, last) ∧ List.Forall₂ Answers messages outs := by
  induction messages with
  | nil => exact fun {recent p} _ _ => ⟨[], _, rfl, .nil⟩
  | cons message messages ih =>
    intro recent p hp hconversation
    obtain ⟨hfirst, hrest⟩ := List.forall_mem_cons.mp hfits
    cases hconversation with
    | cons hpayload hlater =>
      obtain ⟨out, q, hrun, hanswers, hq⟩ := message_run hG hw hc hlive hfirst hpayload hp
      obtain ⟨outs, last, hruns, hall⟩ := ih hrest hq hlater
      refine ⟨out :: outs, last, ?_, .cons hanswers hall⟩
      rw [List.flatMap_cons, List.flatten_cons, List.map_append]
      exact run_append hrun hruns

/-- **Every conforming message is delivered, exactly.** Over any inflater of DEFLATE
no narrower than the peer's window, conforming messages in any fragments, under
limits no smaller than their texts, are all answered with success, and the answers
to each message are its text. -/
theorem conforming_delivered (window : ℕ) (I : Inflater window τ) (D : Decompress (Pending τ))
    (peerMaxWindowBits : ℕ) (peerNoContextTakeover : Bool)
    (hG : Greedy I.machine D (InflaterConfig.forPeerWindow peerMaxWindowBits).windowBits)
    (hwindow : 2 ^ peerMaxWindowBits ≤ window) (messages : List Message)
    (hconforming : Conversation (2 ^ peerMaxWindowBits) peerNoContextTakeover []
      (messages.map fun message => (message.payload, message.text)))
    (hfits : ∀ message ∈ messages, message.Fits) :
    ∃ (outs : List (List Bytes)) (last : Decoder (Pending τ)),
      run D (Decoder.forPeer D peerMaxWindowBits peerNoContextTakeover)
        (messages.flatMap Message.calls) = some (outs.flatten.map .ok, last) ∧
      List.Forall₂ (fun message out =>
        out.length = message.calls.length ∧ out.flatten = message.text) messages outs := by
  rw [forPeer_placed peerNoContextTakeover hG]
  exact conversation_run hG hwindow rfl rfl messages hfits I.boundary_start hconforming

/-- A final stored block of one byte, cut inside its length, and the mandatory octet. -/
theorem conforming_delivered_final :
    ∃ (outs : List (List Bytes)) (last : Decoder (Pending Deflate.State)),
      run (greedyInflater (machine (2 ^ 15)))
        (Decoder.forPeer (greedyInflater (machine (2 ^ 15))) 15 false)
        (Message.calls ⟨[⟨[0x01, 0x01, 0x00], ⟨1, by decide⟩⟩],
          ⟨[0xfe, 0xff, 0x61, 0x00], ⟨1, by decide⟩⟩, [0x61]⟩) =
          some (outs.flatten.map .ok, last) := by
  have hblock : Deflate.Block (2 ^ 15) true 0 [] ([true, false, false] ++ (.replicate 5 false ++
      (Deflate.bits [0x01, 0x00] ++ (Deflate.bits [0x01, 0x00]).map not ++ Deflate.bits [0x61])))
      [0x61] := .stored rfl rfl rfl
  have hstream : Stream (2 ^ 15) [] [0x01, 0x01, 0x00, 0xfe, 0xff, 0x61] [0x61] := by
    have hbits : Deflate.bits [0x01, 0x01, 0x00, 0xfe, 0xff, 0x61] = [] ++ (([true, false, false] ++
      (.replicate 5 false ++ (Deflate.bits [0x01, 0x00] ++
        (Deflate.bits [0x01, 0x00]).map not ++ Deflate.bits [0x61]))) ++ []) := rfl
    exact .mk .nil hblock (by decide) hbits
  have htail : Headed (2 ^ 15) [] [0x00] [] := by
    have hbits : Deflate.bits [0x00] = [] ++ ([false, false, false] ++ .replicate 5 false) := rfl
    exact .mk .nil (by decide) hbits
  obtain ⟨outs, last, hrun, -⟩ := conforming_delivered (2 ^ 15) (.eager (2 ^ 15))
    (greedyInflater (machine (2 ^ 15))) 15 false (greedyInflater_greedy _ _) (Nat.le_refl _)
    [⟨[⟨[0x01, 0x01, 0x00], ⟨1, by decide⟩⟩], ⟨[0xfe, 0xff, 0x61, 0x00], ⟨1, by decide⟩⟩, [0x61]⟩]
    (.cons (.stream hstream (.tail htail)) .nil)
    (List.forall_mem_singleton.mpr ⟨List.forall_mem_singleton.mpr (Nat.le_refl 1), Nat.le_refl 1⟩)
  rw [List.flatMap_singleton] at hrun
  exact ⟨outs, last, hrun⟩

end Conversations

end WsPmd.Decoding
