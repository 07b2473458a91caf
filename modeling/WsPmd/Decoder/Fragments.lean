import WsPmd.Decoder.Ceiling
import WsPmd.Decoder.Reading
import WsPmd.Library.Deflate.Machine

/-!
# How a message is cut does not matter

Over a greedy backend what a call delivers composes: a fragment and then the rest
deliver what the two together deliver. So the cut of a message decides neither
whether it is accepted nor what comes out of it, in any state a decoder reaches.
-/

namespace WsPmd.Decoding

open Grammar (Bytes)
open Library
open Library.ByteMachine (Position Pending)

variable {S : Type}

/-- A fragment of a message, with the limit in force when it arrives. -/
structure Fragment where
  bytes : Bytes
  limit : DecompressedLimit
  deriving DecidableEq

/-- The calls for a message in fragments, the last of them marked final. -/
def messageCalls (parts : List Fragment) (last : Fragment) : List Call :=
  parts.map (fun part => ⟨part.bytes, false, part.limit⟩) ++ [⟨last.bytes, true, last.limit⟩]

/-- The same under one limit. -/
def fragmented (parts : List Bytes) (last : Bytes) (limit : DecompressedLimit) : List Call :=
  messageCalls (parts.map fun part => ⟨part, limit⟩) ⟨last, limit⟩

/-! ## What calls deliver -/

section Deliver

variable {M : ByteMachine S} {reset finalFragment : Bool} {p p1 : Position S}

theorem deliver_append {first more : Bytes} (rest : Bytes)
    (h : deliver M reset p first false = some (more, p1)) :
    deliver M reset p (first ++ rest) finalFragment =
      (deliver M reset p1 rest finalFragment).map fun d => (more ++ d.1, d.2) := by
  have hfirst : (M.read p first).position = some p1 ∧ (M.read p first).output = more := by
    unfold deliver at h
    simp only [Bool.false_eq_true, if_false] at h
    split at h
    · cases h
    · next q hq =>
      obtain ⟨hout, rfl⟩ := Prod.mk.inj (Option.some.inj h)
      exact ⟨hq, hout⟩
  unfold deliver
  rw [M.read_append_of rest hfirst.1, hfirst.2]
  simp only
  cases (M.read p1 rest).position with
  | none => rfl
  | some p2 =>
    cases finalFragment with
    | false => rfl
    | true =>
      simp only [if_true]
      cases (M.read p2 trailer).position with
      | none => rfl
      | some q =>
        simp only [List.append_assoc]
        split <;> rfl

theorem deliver_append_none {first : Bytes} (rest : Bytes)
    (h : deliver M reset p first false = none) :
    deliver M reset p (first ++ rest) finalFragment = none := by
  have hfirst : (M.read p first).position = none := by
    unfold deliver at h
    simp only [Bool.false_eq_true, if_false] at h
    split at h
    · assumption
    · cases h
  unfold deliver
  rw [M.read_append]
  simp only [ByteMachine.Reading.andThen, hfirst]

end Deliver

/-! ## The states a decoder reaches -/

section Runs

variable {M : ByteMachine S} {D : Decompress (Pending S)} {windowBits : ℕ}

/-- A call on a decoder at a position leaves it at another, or poisons it. -/
theorem decompress_placed (hG : Greedy M D windowBits) {decoder : Decoder (Pending S)}
    (hc : decoder.config = ⟨false, windowBits⟩) (hlive : decoder.poisoned = false)
    {p : Position S} (hp : M.Live p) (delivered : ℕ) (call : Call) :
    ∃ result next, (place decoder p delivered).decompress D call.input call.finalFragment
        call.limit = some (result, next) ∧
      (next.poisoned = true ∨ ∃ q m, M.Live q ∧ next = place decoder q m) := by
  by_cases hdue : ∀ out q, deliver M decoder.resetBetweenMessages p call.input
      call.finalFragment = some (out, q) → call.limit.bytes < saturatingAdd delivered out.length
  · obtain ⟨e, next, hnext, hpoisoned⟩ := decompress_refuses hG hc hlive hp hdue
    exact ⟨_, next, hnext, Or.inl hpoisoned⟩
  · push Not at hdue
    obtain ⟨out, q, hdeliver, hfit⟩ := hdue
    exact ⟨_, _, decompress_delivers hG hc hlive hp hdeliver hfit,
      Or.inr ⟨q, _, deliver_live hp hdeliver, rfl⟩⟩

theorem run_placed (hG : Greedy M D windowBits) {decoder : Decoder (Pending S)}
    (hc : decoder.config = ⟨false, windowBits⟩) (hlive : decoder.poisoned = false)
    (calls : List Call) :
    ∀ {p : Position S} (delivered : ℕ), M.Live p →
      ∃ results last, run D (place decoder p delivered) calls = some (results, last) ∧
        (last.poisoned = true ∨ ∃ q m, M.Live q ∧ last = place decoder q m) := by
  induction calls with
  | nil => exact fun {p} delivered hp => ⟨[], _, rfl, Or.inr ⟨p, delivered, hp, rfl⟩⟩
  | cons call calls ih =>
    intro p delivered hp
    obtain ⟨result, next, hnext, hpoisoned | ⟨q, m, hq, rfl⟩⟩ :=
      decompress_placed hG hc hlive hp delivered call
    · exact ⟨_, _, run_cons hnext (run_poisoned D hpoisoned calls), Or.inl hpoisoned⟩
    · obtain ⟨results, last, hrun, hlast⟩ := ih m hq
      exact ⟨_, last, run_cons hnext hrun, hlast⟩

/-- The decoder of an agreement is its own configuration at the fresh position. -/
theorem forPeer_placed {peerMaxWindowBits : ℕ} (peerNoContextTakeover : Bool)
    (hG : Greedy M D (InflaterConfig.forPeerWindow peerMaxWindowBits).windowBits) :
    Decoder.forPeer D peerMaxWindowBits peerNoContextTakeover =
      place (Decoder.forPeer D peerMaxWindowBits peerNoContextTakeover) M.fresh 0 := by
  have hbuild : (InflaterConfig.forPeerWindow peerMaxWindowBits).build D = M.pendingFresh :=
    hG.build
  unfold place Decoder.forPeer
  rw [hbuild]
  rfl

/-! ## Cut and uncut -/

/-- A message that goes through whole goes through in fragments, under any limits
that the whole of it fits. -/
theorem message_delivers (hG : Greedy M D windowBits) {decoder : Decoder (Pending S)}
    (hc : decoder.config = ⟨false, windowBits⟩) (hlive : decoder.poisoned = false)
    (parts : List Fragment) (last : Fragment) {q : Position S} :
    ∀ {p : Position S} (delivered : ℕ) {out : Bytes}, M.Live p →
      deliver M decoder.resetBetweenMessages p ((parts.map (·.bytes)).flatten ++ last.bytes) true =
        some (out, q) →
      (∀ part ∈ parts, saturatingAdd delivered out.length ≤ part.limit.bytes) →
      saturatingAdd delivered out.length ≤ last.limit.bytes →
      ∃ outs : List Bytes, run D (place decoder p delivered) (messageCalls parts last) =
        some (outs.map .ok, place decoder q 0) ∧ outs.flatten = out := by
  induction parts with
  | nil =>
    intro p delivered out hp hdue _ hlast
    have hcall := decompress_delivers hG hc hlive hp hdue hlast
    exact ⟨[out], run_cons hcall (run_nil D _), List.flatten_singleton⟩
  | cons part parts ih =>
    intro p delivered out hp hdue hparts hlast
    rw [List.map_cons, List.flatten_cons, List.append_assoc] at hdue
    cases hpart : deliver M decoder.resetBetweenMessages p part.bytes false with
    | none =>
      rw [deliver_append_none _ hpart] at hdue
      cases hdue
    | some d =>
      obtain ⟨more, p1⟩ := d
      rw [deliver_append _ hpart, Option.map_eq_some_iff] at hdue
      obtain ⟨⟨rest, q'⟩, hrest, he⟩ := hdue
      obtain ⟨rfl, rfl⟩ := Prod.mk.inj he
      simp only [List.length_append, ← saturatingAdd_assoc] at hparts hlast
      obtain ⟨hfirst, hparts⟩ := List.forall_mem_cons.mp hparts
      have hmore : saturatingAdd delivered more.length ≤ part.limit.bytes := by
        refine Nat.le_trans ?_ hfirst
        unfold saturatingAdd
        omega
      have hcall := decompress_delivers hG hc hlive hp hpart hmore
      obtain ⟨outs, hrun, rfl⟩ := ih _ (deliver_live hp hpart) hrest hparts hlast
      exact ⟨more :: outs, run_cons hcall hrun, rfl⟩

/-- A cut message whose bytes do not go through whole: some fragment fails. -/
theorem fragmented_refuses (hG : Greedy M D windowBits) {decoder : Decoder (Pending S)}
    (hc : decoder.config = ⟨false, windowBits⟩) (hlive : decoder.poisoned = false)
    (parts : List Bytes) (last : Bytes) (limit : DecompressedLimit) :
    ∀ {p : Position S} {delivered : ℕ}, M.Live p →
      (∀ out q, deliver M decoder.resetBetweenMessages p (parts.flatten ++ last) true =
        some (out, q) → limit.bytes < saturatingAdd delivered out.length) →
      ∃ answers cut, run D (place decoder p delivered) (fragmented parts last limit) =
        some (answers, cut) ∧ ∃ e, .error e ∈ answers := by
  induction parts with
  | nil =>
    intro p delivered hp hdue
    obtain ⟨e, next, hcall, -⟩ := decompress_refuses hG hc hlive hp hdue
    exact ⟨_, _, run_cons hcall (run_nil D _), e, List.mem_singleton.mpr rfl⟩
  | cons part parts ih =>
    intro p delivered hp hdue
    rw [List.flatten_cons, List.append_assoc] at hdue
    by_cases hpart : ∀ more p1, deliver M decoder.resetBetweenMessages p part false =
        some (more, p1) → limit.bytes < saturatingAdd delivered more.length
    · obtain ⟨e, next, hcall, hpoisoned⟩ := decompress_refuses hG hc hlive hp hpart
      exact ⟨_, _, run_cons hcall (run_poisoned D hpoisoned _), e, List.mem_cons_self⟩
    · push Not at hpart
      obtain ⟨more, p1, hpart, hmore⟩ := hpart
      have hcall := decompress_delivers hG hc hlive hp hpart hmore
      have hlater : ∀ out q, deliver M decoder.resetBetweenMessages p1 (parts.flatten ++ last)
          true = some (out, q) →
          limit.bytes < saturatingAdd (saturatingAdd delivered more.length) out.length := by
        intro out q hrest
        rw [saturatingAdd_assoc, ← List.length_append]
        apply hdue (more ++ out) q
        rw [deliver_append _ hpart, hrest]
        rfl
      obtain ⟨answers, cut, hrun, e, he⟩ := ih (deliver_live hp hpart) hlater
      exact ⟨_, cut, run_cons hcall hrun, e, List.mem_cons_of_mem _ he⟩

theorem not_map_ok {answers : List (Except CodecError Bytes)} {e : CodecError}
    (he : .error e ∈ answers) (outs : List Bytes) : answers ≠ outs.map .ok := by
  rintro rfl
  obtain ⟨out, -, h⟩ := List.mem_map.mp he
  cases h

/-- **Fragmentation is irrelevant.** In any state a decoder reaches, whatever it was
given before, a message goes through in fragments exactly when it goes through in
one call, with the same bytes in all and the same decoder behind it. -/
theorem fragmentation_irrelevant (M : ByteMachine S) (D : Decompress (Pending S))
    (peerMaxWindowBits : ℕ) (peerNoContextTakeover : Bool)
    (hG : Greedy M D (InflaterConfig.forPeerWindow peerMaxWindowBits).windowBits)
    {past : List Call} {results : List (Except CodecError Bytes)} {decoder : Decoder (Pending S)}
    (hpast : run D (Decoder.forPeer D peerMaxWindowBits peerNoContextTakeover) past =
      some (results, decoder))
    (parts : List Bytes) (last : Bytes) (limit : DecompressedLimit) :
    ∃ answers cut answer whole,
      run D decoder (fragmented parts last limit) = some (answers, cut) ∧
      decoder.decompress D (parts.flatten ++ last) true limit = some (answer, whole) ∧
      ((∃ outs, answers = List.map .ok outs) ↔ ∃ out, answer = .ok out) ∧
      ∀ outs out, answers = List.map .ok outs → answer = .ok out →
        outs.flatten = out ∧ cut = whole := by
  have hc : (Decoder.forPeer D peerMaxWindowBits peerNoContextTakeover).config =
      ⟨false, (InflaterConfig.forPeerWindow peerMaxWindowBits).windowBits⟩ := rfl
  rw [forPeer_placed peerNoContextTakeover hG] at hpast
  obtain ⟨results', decoder', hrun, hreached⟩ :=
    run_placed hG hc rfl past 0 M.live_fresh
  rw [hpast] at hrun
  obtain ⟨rfl, rfl⟩ := Prod.mk.inj (Option.some.inj hrun)
  rcases hreached with hpoisoned | ⟨p, delivered, hp, rfl⟩
  · -- A poisoned decoder refuses both.
    refine ⟨_, _, _, _, run_poisoned D hpoisoned _, decompress_poisoned D hpoisoned _ _ _, ?_, ?_⟩
    · refine ⟨fun ⟨outs, houts⟩ => absurd houts (not_map_ok (e := .poisoned) ?_ outs),
        fun ⟨out, hout⟩ => (by cases hout)⟩
      exact List.mem_map.mpr ⟨⟨last, true, limit⟩, List.mem_append_right _ List.mem_cons_self, rfl⟩
    · intro outs out _ hout
      cases hout
  by_cases hdue : ∀ out q, deliver M peerNoContextTakeover p (parts.flatten ++ last) true =
      some (out, q) → limit.bytes < saturatingAdd delivered out.length
  · obtain ⟨answers, cut, hcut, e, he⟩ := fragmented_refuses hG hc rfl parts last limit hp hdue
    obtain ⟨e', whole, hwhole, -⟩ := decompress_refuses hG hc rfl hp hdue
    refine ⟨answers, cut, _, whole, hcut, hwhole, ?_, ?_⟩
    · exact ⟨fun ⟨outs, houts⟩ => absurd houts (not_map_ok he outs),
        fun ⟨out, hout⟩ => (by cases hout)⟩
    · intro outs out _ hout
      cases hout
  · push Not at hdue
    obtain ⟨out, q, hdeliver, hfit⟩ := hdue
    have hbytes : (parts.map fun part => (⟨part, limit⟩ : Fragment)).map (·.bytes) = parts := by
      rw [List.map_map]
      exact List.map_id parts
    obtain ⟨outs, hcut, hflat⟩ := message_delivers hG hc rfl
      (parts.map fun part => ⟨part, limit⟩) ⟨last, limit⟩ delivered hp
      (by rw [hbytes]; exact hdeliver)
      (fun part hpart => by obtain ⟨-, -, rfl⟩ := List.mem_map.mp hpart; exact hfit) hfit
    refine ⟨_, _, _, _, hcut, decompress_delivers hG hc rfl hp hdeliver hfit, ?_, ?_⟩
    · exact ⟨fun _ => ⟨out, rfl⟩, fun _ => ⟨outs, rfl⟩⟩
    · intro outs' out' houts hout
      obtain rfl := Except.ok.inj hout
      have hinj : Function.Injective (Except.ok : Bytes → Except CodecError Bytes) :=
        fun a b => Except.ok.inj
      obtain rfl := List.map_injective_iff.mpr hinj houts
      exact ⟨hflat, rfl⟩

/-- An inflater of DEFLATE, and a message cut in two inside its second octet's block. -/
theorem fragmentation_irrelevant_deflate :
    ∃ answers cut answer whole,
      run (greedyInflater (Deflate.machine (2 ^ 15)))
        (Decoder.forPeer (greedyInflater (Deflate.machine (2 ^ 15))) 15 false)
        (fragmented [[0x4b]] [0x04, 0x00] ⟨1, by decide⟩) = some (answers, cut) ∧
      (Decoder.forPeer (greedyInflater (Deflate.machine (2 ^ 15))) 15 false).decompress
        (greedyInflater (Deflate.machine (2 ^ 15))) [0x4b, 0x04, 0x00] true ⟨1, by decide⟩ =
          some (answer, whole) ∧
      ((∃ outs, answers = List.map .ok outs) ↔ ∃ out, answer = .ok out) := by
  obtain ⟨answers, cut, answer, whole, hcut, hwhole, hiff, -⟩ :=
    fragmentation_irrelevant (Deflate.machine (2 ^ 15)) (greedyInflater (Deflate.machine (2 ^ 15)))
      15 false (greedyInflater_greedy _ _) (run_nil _ _) [[0x4b]] [0x04, 0x00] ⟨1, by decide⟩
  exact ⟨answers, cut, answer, whole, hcut, hwhole, hiff⟩

end Runs

end WsPmd.Decoding
