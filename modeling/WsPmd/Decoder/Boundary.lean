import WsPmd.Decoder.Conforming
import WsPmd.Library.Deflate.Octets

/-!
# Where the four octets go

`decode` feeds the stripped octets back whenever bytes have been consumed into a
stream that has not ended. That is where they belong when the payload ends behind
the header of a stored block, as RFC 7692 section 7.2.1 has it, and they may by chance
be the rest of another block. A payload that ends on a block boundary is accepted as
well, and there the octets open a block with a length nobody sent, which the next
message is then read into.
-/

namespace WsPmd.Decoding

open Grammar (Bytes)
open Library
open Library.ByteMachine (Position Pending)
open Library.Deflate (Inflater OctetsDue machine)

/-- Where a decoder over a machine stands. -/
def stands {S : Type} (decoder : Decoder (Pending S)) : Position S :=
  ⟨decoder.inflater.state, decoder.streamOpen, decoder.inflater.totalIn, decoder.inflater.totalOut⟩

/-- An accepted final call: right behind the four octets, before the inflater is started
over, it stands at the end of a block that is not the last, with nothing pending. -/
def Synchronised {τ : Type} {window : ℕ} (I : Inflater window τ) (D : Decompress (Pending τ))
    (decoder : Decoder (Pending τ)) (call : Call) : Prop :=
  ∀ out next, call.finalFragment = true →
    decoder.decompress D call.input call.finalFragment call.limit = some (.ok out, next) →
    ∃ fed closed, decoder.inflate D call.input call.limit [] = some fed ∧
      fed.decoder.inflate D trailer call.limit fed.output = some closed ∧
      (∃ s, I.reads closed.decoder.inflater.state = some s ∧ s.AtBlockStart) ∧
      closed.decoder.inflater.owed = []

/-- What a final call is not refused for: the decoder is live, the input can be read, some
stream has begun at its end, the octets can be read as more of that stream, and what comes
out of both is within the limit. -/
structure Passes {S : Type} (M : ByteMachine S) (decoder : Decoder (Pending S)) (call : Call)
    (p q : Position S) : Prop where
  live : decoder.poisoned = false
  input : (M.read (stands decoder) call.input).position = some p
  begun : p.begun = true
  octets : (M.read p trailer).position = some q
  unfinished : (M.read p trailer).ended = false
  fits : saturatingAdd decoder.delivered
    ((M.read (stands decoder) call.input).output ++ (M.read p trailer).output).length ≤
      call.limit.bytes

/-- A final call that is not refused ends where the octets are the rest of the block. -/
def EndsWhereDue {τ : Type} {window : ℕ} (I : Inflater window τ) (decoder : Decoder (Pending τ))
    (call : Call) : Prop :=
  call.finalFragment = true → ∀ p q, Passes I.machine decoder call p q →
    ∃ s, I.reads p.state = some s ∧ OctetsDue window s

section Final

variable {S : Type} {M : ByteMachine S} {D : Decompress (Pending S)} {windowBits : ℕ}

/-- The two feeds of a final call that is accepted. -/
theorem decompress_final (hG : Greedy M D windowBits) {decoder : Decoder (Pending S)}
    (hc : decoder.config = ⟨false, windowBits⟩) (hlive : decoder.poisoned = false)
    {p : Position S} (hp : M.Live p) {delivered : ℕ} {input out : Bytes}
    {limit : DecompressedLimit} {next : Decoder (Pending S)}
    (h : (place decoder p delivered).decompress D input true limit = some (.ok out, next)) :
    ∃ p1 q1 ended, Passes M (place decoder p delivered) ⟨input, true, limit⟩ p1 q1 ∧
      (place decoder p delivered).inflate D input limit [] =
        some ⟨.ok ended, place decoder p1 delivered, (M.read p input).output⟩ ∧
      (place decoder p1 delivered).inflate D trailer limit (M.read p input).output =
        some ⟨.ok false, place decoder q1 delivered, out⟩ := by
  obtain ⟨q, hdeliver, hfit, -⟩ := (decompress_ok_iff hG hc hlive hp).mp h
  obtain ⟨p1, q1, hp1, hbegun, hq1, hended, rfl⟩ := deliver_final hdeliver
  obtain ⟨fed, hfed, hreads⟩ := inflate_reads hG hc hp delivered input [] limit
  obtain ⟨closed, hclosed, hends⟩ := inflate_reads hG hc (ByteMachine.Live.read M hp hp1) delivered
    trailer (M.read p input).output limit
  have hfirst : saturatingAdd delivered ([] ++ (M.read p input).output).length ≤ limit.bytes := by
    refine Nat.le_trans (saturatingAdd_mono _ ?_) hfit
    rw [List.nil_append, List.length_append]
    omega
  obtain rfl := hreads.answers p1 hp1 (Bounds.source_refuses.mpr hfirst)
  obtain rfl := hends.answers q1 hq1 (Bounds.source_refuses.mpr hfit)
  rw [hended] at hclosed
  exact ⟨p1, q1, _, ⟨hlive, hp1, hbegun, hq1, hended, hfit⟩, hfed, hclosed⟩

/-- A final call with nothing against it is accepted. -/
theorem Passes.accepted (hG : Greedy M D windowBits) {decoder : Decoder (Pending S)}
    (hc : decoder.config = ⟨false, windowBits⟩) {p : Position S} (hp : M.Live p)
    {delivered : ℕ} {call : Call} {p1 q1 : Position S}
    (h : Passes M (place decoder p delivered) call p1 q1) (hfinal : call.finalFragment = true) :
    ∃ out next, (place decoder p delivered).decompress D call.input call.finalFragment call.limit =
      some (.ok out, next) := by
  have hinput : (M.read p call.input).position = some p1 := h.input
  have hdue : ∃ q, deliver M decoder.resetBetweenMessages p call.input true =
      some ((M.read p call.input).output ++ (M.read p1 trailer).output, q) := by
    simp only [deliver, hinput, h.octets, h.begun, h.unfinished, and_self, if_true]
    exact ⟨_, rfl⟩
  obtain ⟨q, hq⟩ := hdue
  rw [hfinal]
  exact ⟨_, _, decompress_delivers hG hc h.live hp hq h.fits⟩

end Final

section Runs

variable {window windowBits : ℕ} {τ : Type} {I : Inflater window τ} {D : Decompress (Pending τ)}

/-- One call, at a position. -/
theorem synchronised_iff (hG : Greedy I.machine D windowBits) {decoder : Decoder (Pending τ)}
    (hc : decoder.config = ⟨false, windowBits⟩) (hlive : decoder.poisoned = false)
    {p : Position τ} (hp : I.machine.Live p) {delivered : ℕ} {call : Call} :
    Synchronised I D (place decoder p delivered) call ↔
      EndsWhereDue I (place decoder p delivered) call := by
  have hbehind : ∀ p1 q1, Passes I.machine (place decoder p delivered) call p1 q1 →
      ((∃ s, I.reads q1.state = some s ∧ s.AtBlockStart) ↔
        ∃ s, I.reads p1.state = some s ∧ OctetsDue window s) := fun p1 q1 hpasses =>
    Inflater.octets_complete (ByteMachine.Live.read I.machine hp hpasses.input) hpasses.octets
      hpasses.unfinished
  constructor
  · intro hsync hfinal p1 q1 hpasses
    obtain ⟨out, next, hok⟩ := hpasses.accepted hG hc hp hfinal
    obtain ⟨fed, closed, hfed, hclosed, hstart, -⟩ := hsync out next hfinal hok
    rw [hfinal] at hok
    obtain ⟨p2, q2, ended, hpasses', hfed', hclosed'⟩ := decompress_final hG hc hlive hp hok
    obtain rfl := Option.some.inj (hfed.symm.trans hfed')
    obtain rfl := Option.some.inj (hclosed.symm.trans hclosed')
    obtain rfl : p1 = p2 := Option.some.inj (hpasses.input.symm.trans hpasses'.input)
    obtain rfl : q1 = q2 := Option.some.inj (hpasses.octets.symm.trans hpasses'.octets)
    exact (hbehind p1 q1 hpasses).mp hstart
  · intro hends out next hfinal hok
    rw [hfinal] at hok
    obtain ⟨p1, q1, ended, hpasses, hfed, hclosed⟩ := decompress_final hG hc hlive hp hok
    have hsame : Passes I.machine (place decoder p delivered) call p1 q1 :=
      ⟨hpasses.live, hpasses.input, hpasses.begun, hpasses.octets, hpasses.unfinished, hpasses.fits⟩
    exact ⟨_, _, hfed, hclosed, (hbehind p1 q1 hsame).mpr (hends hfinal p1 q1 hsame), rfl⟩

/-- **The octets complete the block they were taken from exactly where they are the rest of
it.** Behind any run of a decoder as it is minted, and for any next call: if the call is
final and accepted the inflater is between two blocks when the octets have been fed, if and
only if the input ended where they were due. -/
theorem boundaries_synchronised (window : ℕ) (I : Inflater window τ) (D : Decompress (Pending τ))
    (peerMaxWindowBits : ℕ) (peerNoContextTakeover : Bool)
    (hG : Greedy I.machine D (InflaterConfig.forPeerWindow peerMaxWindowBits).windowBits)
    (before : List Call) (call : Call) :
    ∃ results decoder, run D (Decoder.forPeer D peerMaxWindowBits peerNoContextTakeover) before =
        some (results, decoder) ∧
      (Synchronised I D decoder call ↔ EndsWhereDue I decoder call) := by
  have hc : (Decoder.forPeer D peerMaxWindowBits peerNoContextTakeover).config =
      ⟨false, (InflaterConfig.forPeerWindow peerMaxWindowBits).windowBits⟩ := rfl
  have hmint := forPeer_placed peerNoContextTakeover hG
  obtain ⟨results, decoder, hrun, hreached⟩ :=
    run_placed hG hc rfl before 0 I.machine.live_fresh
  rw [← hmint] at hrun
  refine ⟨results, decoder, hrun, ?_⟩
  rcases hreached with hpoisoned | ⟨p, delivered, hp, rfl⟩
  · -- a poisoned decoder accepts nothing
    refine iff_of_true (fun out next _ hok => ?_) fun _ p q hpasses => ?_
    · rw [decompress_poisoned D hpoisoned] at hok
      cases hok
    · cases hpoisoned.symm.trans hpasses.live
  · exact synchronised_iff hG hc rfl hp

/-- The shortest message there is, and one that stops four bytes short of the end of its
stored block. -/
theorem boundaries_synchronised_empty :
    Synchronised (.eager (2 ^ 15)) (greedyInflater (machine (2 ^ 15)))
        (Decoder.forPeer (greedyInflater (machine (2 ^ 15))) 15 false)
        ⟨[0x00], true, ⟨0, by decide⟩⟩ ∧
      Synchronised (.eager (2 ^ 15)) (greedyInflater (machine (2 ^ 15)))
        (Decoder.forPeer (greedyInflater (machine (2 ^ 15))) 15 false)
        ⟨[0x00, 0x04, 0x00, 0xfb, 0xff], true, ⟨4, by decide⟩⟩ := by
  have hsync : ∀ call, EndsWhereDue (.eager (2 ^ 15))
      (Decoder.forPeer (greedyInflater (machine (2 ^ 15))) 15 false) call →
      Synchronised (.eager (2 ^ 15)) (greedyInflater (machine (2 ^ 15)))
        (Decoder.forPeer (greedyInflater (machine (2 ^ 15))) 15 false) call := by
    intro call hends
    obtain ⟨results, decoder, hrun, hiff⟩ := boundaries_synchronised (2 ^ 15) (.eager (2 ^ 15))
      (greedyInflater (machine (2 ^ 15))) 15 false (greedyInflater_greedy _ _) [] call
    obtain ⟨-, rfl⟩ := Prod.mk.inj (Option.some.inj hrun)
    exact hiff.mpr hends
  constructor
  · refine hsync _ fun _ p q hpasses => ?_
    have hp : some ⟨⟨.storedLength, [], 8, false, []⟩, true, 1, 0⟩ = some p := hpasses.input
    obtain rfl := Option.some.inj hp
    exact ⟨_, rfl, .length rfl rfl rfl⟩
  · refine hsync _ fun _ p q hpasses => ?_
    have hp : some ⟨⟨.stored 4, [], 40, false, []⟩, true, 5, 0⟩ = some p := hpasses.input
    obtain rfl := Option.some.inj hp
    exact ⟨_, rfl, .data rfl rfl rfl⟩

/-- A final call is accepted and leaves the octets pending. -/
theorem not_synchronised (hG : Greedy I.machine D windowBits) {decoder : Decoder (Pending τ)}
    (hc : decoder.config = ⟨false, windowBits⟩) (hlive : decoder.poisoned = false)
    {p q : Position τ} (hp : I.machine.Live p) {delivered : ℕ} {input out : Bytes}
    {limit : DecompressedLimit}
    (hdue : deliver I.machine decoder.resetBetweenMessages p input true = some (out, q))
    (hfit : saturatingAdd delivered out.length ≤ limit.bytes)
    (hpending : (I.machine.read p (input ++ trailer)).position.all
      (fun q => (I.reads q.state).all fun s => decide (¬ s.AtBlockStart)) = true) :
    ¬ Synchronised I D (place decoder p delivered) ⟨input, true, limit⟩ := by
  intro hsync
  have hok := decompress_delivers hG hc hlive hp hdue hfit
  obtain ⟨fed, closed, hfed, hclosed, ⟨s, hs, hstart⟩, -⟩ := hsync _ _ rfl hok
  obtain ⟨p1, q1, ended, hpasses, hfed', hclosed'⟩ := decompress_final hG hc hlive hp hok
  obtain rfl := Option.some.inj (hfed.symm.trans hfed')
  obtain rfl := Option.some.inj (hclosed.symm.trans hclosed')
  have hread := I.machine.read_append_of trailer hpasses.input
  have hbehind : (I.machine.read p (input ++ trailer)).position = some q1 :=
    (congrArg ByteMachine.Reading.position hread).trans hpasses.octets
  rw [hbehind, Option.all_some] at hpending
  change I.reads q1.state = some s at hs
  rw [hs, Option.all_some] at hpending
  exact of_decide_eq_true hpending hstart

/-- A message that ends on a block boundary leaves half a block behind, and the empty
message after it is answered with four octets nobody sent. -/
theorem trailer_pending :
    ¬ Synchronised (.eager (2 ^ 15)) (greedyInflater (machine (2 ^ 15)))
        (Decoder.forPeer (greedyInflater (machine (2 ^ 15))) 15 false)
        ⟨[0x00, 0x00, 0x00, 0xff, 0xff], true, ⟨4, by decide⟩⟩ ∧
      ∃ last, run (greedyInflater (machine (2 ^ 15)))
        (Decoder.forPeer (greedyInflater (machine (2 ^ 15))) 15 false)
        [⟨[0x00, 0x00, 0x00, 0xff, 0xff], true, ⟨4, by decide⟩⟩, ⟨[0x00], true, ⟨4, by decide⟩⟩] =
          some ([.ok [], .ok [0x00, 0x00, 0xff, 0xff]], last) := by
  have hG := greedyInflater_greedy (machine (2 ^ 15)) 15
  have hc : (Decoder.forPeer (greedyInflater (machine (2 ^ 15))) 15 false).config =
      ⟨false, 15⟩ := rfl
  have hfresh := (machine (2 ^ 15)).live_fresh
  obtain ⟨q, q', hq, hq'⟩ : ∃ q q',
      deliver (machine (2 ^ 15)) false (machine (2 ^ 15)).fresh [0x00, 0x00, 0x00, 0xff, 0xff]
        true = some ([], q) ∧
      deliver (machine (2 ^ 15)) false q [0x00] true = some ([0x00, 0x00, 0xff, 0xff], q') :=
    ⟨_, _, rfl, rfl⟩
  have hlimit : saturatingAdd 0 ([] : Bytes).length ≤ (⟨4, by decide⟩ : DecompressedLimit).bytes :=
    Nat.zero_le 4
  have hlimit' : saturatingAdd 0 ([0x00, 0x00, 0xff, 0xff] : Bytes).length ≤
      (⟨4, by decide⟩ : DecompressedLimit).bytes := Nat.le_refl 4
  have hfirst := decompress_delivers hG hc rfl hfresh hq hlimit
  have hsecond := decompress_delivers hG hc rfl (deliver_live hfresh hq) hq' hlimit'
  refine ⟨?_, ⟨_, run_cons hfirst (run_cons hsecond (run_nil _ _))⟩⟩
  exact not_synchronised (I := .eager (2 ^ 15)) hG hc rfl hfresh hq hlimit (by decide)

/-- A dynamic header that makes no code. An inflater that does not notice answers the
message, and has the octets read as more of the header. -/
theorem header_pending :
    ¬ Synchronised (.patient (2 ^ 15)) (greedyInflater (machine (2 ^ 15)).patient)
        (Decoder.forPeer (greedyInflater (machine (2 ^ 15)).patient) 15 false)
        ⟨[0x04, 0x00, 0x00, 0x00], true, ⟨4, by decide⟩⟩ := by
  have hG := greedyInflater_greedy (machine (2 ^ 15)).patient 15
  have hc : (Decoder.forPeer (greedyInflater (machine (2 ^ 15)).patient) 15 false).config =
      ⟨false, 15⟩ := rfl
  have hfresh := (machine (2 ^ 15)).patient.live_fresh
  obtain ⟨q, hq⟩ : ∃ q, deliver (machine (2 ^ 15)).patient false (machine (2 ^ 15)).patient.fresh
      [0x04, 0x00, 0x00, 0x00] true = some ([], q) := ⟨_, rfl⟩
  have hlimit : saturatingAdd 0 ([] : Bytes).length ≤ (⟨4, by decide⟩ : DecompressedLimit).bytes :=
    Nat.zero_le 4
  exact not_synchronised (I := .patient (2 ^ 15)) hG hc rfl hfresh hq hlimit (by decide)

end Runs

end WsPmd.Decoding
