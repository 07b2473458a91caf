import WsPmd.Decoder.Fragments

/-!
# Neither the ceiling nor the scratch buffer shapes the output

The reference decoder is the same algorithm with as much room as it likes and no
ceiling. Over a greedy backend the crate's decoder, whatever the length of its
scratch buffer, is that decoder with one question added: does the message still
fit the limit of this call? Where it does the two answer the same bytes and are
left in the same state.
-/

namespace WsPmd.Decoding

open Grammar (Bytes)
open Library
open Library.ByteMachine (Position Pending)

/-- Calls on one decoder that all went through, each within the bounds its limit
stands for: the log of their answers, and the decoder they leave. -/
inductive Passed {σ : Type} (D : Decompress σ) (bounds : DecompressedLimit → Bounds σ)
    (start : Decoder σ) : Log → Decoder σ → Prop where
  | nil : Passed D bounds start [] start
  | call {log : Log} {decoder next : Decoder σ} {call : Call} {out : Bytes} :
      Passed D bounds start log decoder →
      decompressWithin D (bounds call.limit) decoder call.input call.finalFragment =
        some (.ok out, next) →
      Passed D bounds start (log ++ [(call, out)]) next

/-- Under the crate's own bounds they are a run of the crate's own decoder. -/
theorem Passed.run {σ : Type} {D : Decompress σ} {start decoder : Decoder σ} {log : Log}
    (h : Passed D sourceBounds start log decoder) :
    run D start (log.map (·.1)) = some (log.map fun entry => .ok entry.2, decoder) := by
  induction h with
  | nil => rfl
  | @call log decoder next call out _ hcall ih =>
    have hone : Decoding.run D decoder [call] = some ([.ok out], next) := by
      rw [← decompress_eq_within] at hcall
      exact run_cons hcall (run_nil D next)
    rw [List.map_append, List.map_append]
    exact run_append ih hone

theorem saturatingAdd_le_iff {a b limit : ℕ} (hl : limit < usizeMax) :
    saturatingAdd a b ≤ limit ↔ a + b ≤ limit := by
  unfold saturatingAdd
  omega

section Agreement

variable {S : Type} {M : ByteMachine S} {D : Decompress (Pending S)} {windowBits : ℕ}

/-- A decoder between calls, over what the message in progress was given. -/
def Standing (M : ByteMachine S) (start : Decoder (Pending S)) (log : Log)
    (decoder : Decoder (Pending S)) : Prop :=
  ∃ p, M.Live p ∧ decoder = place start p (messageBytes log)

section Call

variable (hG : Greedy M D windowBits) {start decoder next : Decoder (Pending S)}
  (hc : start.config = ⟨false, windowBits⟩) (hlive : start.poisoned = false) {log : Log}
  (hstanding : Standing M start log decoder) (room : Inflate (Pending S) → ℕ)
  (hroom : ∀ s, 0 < room s) {call : Call} (hl : call.limit.bytes < usizeMax) {out : Bytes}
include hG hc hlive hstanding hl

/-- **One call.** The room a turn is offered decides nothing, and the ceiling only
whether the answer may be given. -/
theorem Standing.agrees {scratch : ℕ} (hscratch : 0 < scratch) :
    decompressWithin D (.source scratch hscratch call.limit) decoder call.input
        call.finalFragment = some (.ok out, next) ↔
      decompressWithin D (.unlimited room hroom) decoder call.input call.finalFragment =
          some (.ok out, next) ∧
        messageBytes log + out.length ≤ call.limit.bytes := by
  obtain ⟨p, hp, rfl⟩ := hstanding
  rw [decompressWithin_ok_iff hG hc hlive hp, decompressWithin_ok_iff hG hc hlive hp]
  have hunlimited : (Bounds.unlimited room hroom).refuses
      (saturatingAdd (messageBytes log) out.length) = none := rfl
  simp only [hunlimited, Bounds.source_refuses, saturatingAdd_le_iff hl]
  constructor
  · intro ⟨q, hdue, hfit, hnext⟩
    exact ⟨⟨q, hdue, trivial, hnext⟩, hfit⟩
  · intro ⟨⟨q, hdue, _, hnext⟩, hfit⟩
    exact ⟨q, hdue, hfit, hnext⟩

/-- The decoder behind a call that fits stands on the longer log. -/
theorem Standing.advance
    (hcall : decompressWithin D (.unlimited room hroom) decoder call.input call.finalFragment =
      some (.ok out, next))
    (hfit : messageBytes log + out.length ≤ call.limit.bytes) :
    Standing M start (log ++ [(call, out)]) next := by
  obtain ⟨p, hp, rfl⟩ := hstanding
  obtain ⟨q, hdue, -, rfl⟩ := (decompressWithin_ok_iff hG hc hlive hp).mp hcall
  refine ⟨q, deliver_live hp hdue, ?_⟩
  have hsum : saturatingAdd (messageBytes log) out.length = messageBytes log + out.length := by
    unfold saturatingAdd
    omega
  rw [messageBytes_concat, hsum]

end Call

/-- **A whole run.** Calls that pass under the crate's bounds, for any scratch
buffer, pass without bounds and under any other scratch buffer. -/
theorem Passed.agrees (hG : Greedy M D windowBits) {start : Decoder (Pending S)}
    (hc : start.config = ⟨false, windowBits⟩) (hlive : start.poisoned = false)
    (hstart : Standing M start [] start) (room : Inflate (Pending S) → ℕ)
    (hroom : ∀ s, 0 < room s) {scratch : ℕ} (hscratch : 0 < scratch) {log : Log}
    {decoder : Decoder (Pending S)} (h : Passed D (.source scratch hscratch) start log decoder)
    (hl : ∀ entry ∈ log, entry.1.limit.bytes < usizeMax) :
    Standing M start log decoder ∧
      Passed D (fun _ => .unlimited room hroom) start log decoder ∧
      Passed D sourceBounds start log decoder := by
  induction h with
  | nil => exact ⟨hstart, .nil, .nil⟩
  | @call log decoder next call out _ hcall ih =>
    rw [List.forall_mem_append, List.forall_mem_singleton] at hl
    obtain ⟨hstanding, hfree, hsource⟩ := ih hl.1
    obtain ⟨hcall', hfit⟩ := (hstanding.agrees hG hc hlive room hroom hl.2 hscratch).mp hcall
    refine ⟨hstanding.advance hG hc hlive room hroom hl.2 hcall' hfit, hfree.call hcall', ?_⟩
    apply hsource.call
    exact (hstanding.agrees hG hc hlive room hroom hl.2 scratchLen_pos).mpr ⟨hcall', hfit⟩

/-- **The bounded decoder agrees with the unbounded one.** After any calls that
went through, whatever the scratch buffer, the reference has given the same
answers and is in the same state, and so is the crate's own decoder. From there
the next call goes through exactly when the reference's does and the message,
this answer included, is within this call's limit; the answer and the state
behind it are the reference's. -/
theorem bounded_agrees (M : ByteMachine S) (D : Decompress (Pending S)) (peerMaxWindowBits : ℕ)
    (peerNoContextTakeover : Bool)
    (hG : Greedy M D (InflaterConfig.forPeerWindow peerMaxWindowBits).windowBits)
    (room : Inflate (Pending S) → ℕ) (hroom : ∀ s, 0 < room s) {scratch : ℕ}
    (hscratch : 0 < scratch) {log : Log} (hl : ∀ entry ∈ log, entry.1.limit.bytes < usizeMax)
    {decoder : Decoder (Pending S)}
    (h : Passed D (.source scratch hscratch)
      (Decoder.forPeer D peerMaxWindowBits peerNoContextTakeover) log decoder) :
    Passed D (fun _ => .unlimited room hroom)
        (Decoder.forPeer D peerMaxWindowBits peerNoContextTakeover) log decoder ∧
      run D (Decoder.forPeer D peerMaxWindowBits peerNoContextTakeover) (log.map (·.1)) =
        some (log.map fun entry => .ok entry.2, decoder) ∧
      ∀ call : Call, call.limit.bytes < usizeMax → ∀ out next,
        (decompressWithin D (.source scratch hscratch call.limit) decoder call.input
            call.finalFragment = some (.ok out, next) ↔
          decompressWithin D (.unlimited room hroom) decoder call.input call.finalFragment =
              some (.ok out, next) ∧
            messageBytes log + out.length ≤ call.limit.bytes) ∧
        (decoder.decompress D call.input call.finalFragment call.limit = some (.ok out, next) ↔
          decompressWithin D (.unlimited room hroom) decoder call.input call.finalFragment =
              some (.ok out, next) ∧
            messageBytes log + out.length ≤ call.limit.bytes) := by
  have hc : (Decoder.forPeer D peerMaxWindowBits peerNoContextTakeover).config =
      ⟨false, (InflaterConfig.forPeerWindow peerMaxWindowBits).windowBits⟩ := rfl
  have hstart : Standing M (Decoder.forPeer D peerMaxWindowBits peerNoContextTakeover) []
      (Decoder.forPeer D peerMaxWindowBits peerNoContextTakeover) :=
    ⟨M.fresh, M.live_fresh, forPeer_placed peerNoContextTakeover hG⟩
  obtain ⟨hstanding, hfree, hsource⟩ := h.agrees hG hc rfl hstart room hroom hscratch hl
  refine ⟨hfree, hsource.run, fun call hcall out next => ⟨?_, ?_⟩⟩
  · exact hstanding.agrees hG hc rfl room hroom hcall hscratch
  · rw [decompress_eq_within]
    exact hstanding.agrees hG hc rfl room hroom hcall scratchLen_pos

/-- A stored block of two bytes under a ceiling of two, taken out a byte at a time. -/
theorem bounded_agrees_bytewise :
    ∃ decoder : Decoder (Pending Deflate.State),
      Passed (greedyInflater (Deflate.machine (2 ^ 15)))
        (fun _ => .unlimited (fun _ => 4) fun _ => Nat.succ_pos 3)
        (Decoder.forPeer (greedyInflater (Deflate.machine (2 ^ 15))) 15 false)
        [(⟨[0x00, 0x02, 0x00, 0xfd, 0xff, 0x61, 0x62], false, ⟨2, by decide⟩⟩, [0x61, 0x62])]
        decoder := by
  have hG : Greedy (Deflate.machine (2 ^ 15)) (greedyInflater (Deflate.machine (2 ^ 15)))
      (InflaterConfig.forPeerWindow 15).windowBits := greedyInflater_greedy _ _
  obtain ⟨q, hdue⟩ : ∃ q, deliver (Deflate.machine (2 ^ 15)) false (Deflate.machine (2 ^ 15)).fresh
      [0x00, 0x02, 0x00, 0xfd, 0xff, 0x61, 0x62] false = some ([0x61, 0x62], q) := ⟨_, rfl⟩
  have hfit : 2 < usizeMax := by decide
  have hcall : decompressWithin (greedyInflater (Deflate.machine (2 ^ 15)))
      (.source 1 Nat.one_pos ⟨2, hfit.le⟩)
      (place (Decoder.forPeer (greedyInflater (Deflate.machine (2 ^ 15))) 15 false)
        (Deflate.machine (2 ^ 15)).fresh 0) [0x00, 0x02, 0x00, 0xfd, 0xff, 0x61, 0x62] false =
      some (.ok [0x61, 0x62], place _ q 2) :=
    decompressWithin_delivers hG rfl rfl (Deflate.machine (2 ^ 15)).live_fresh hdue
      (Bounds.source_refuses.mpr (Nat.le_refl 2))
  rw [← forPeer_placed false hG] at hcall
  have hpassed : Passed (greedyInflater (Deflate.machine (2 ^ 15))) (.source 1 Nat.one_pos)
      (Decoder.forPeer (greedyInflater (Deflate.machine (2 ^ 15))) 15 false)
      [(⟨[0x00, 0x02, 0x00, 0xfd, 0xff, 0x61, 0x62], false, ⟨2, hfit.le⟩⟩, [0x61, 0x62])] _ :=
    Passed.call .nil hcall
  exact ⟨_, (bounded_agrees (Deflate.machine (2 ^ 15)) (greedyInflater (Deflate.machine (2 ^ 15)))
    15 false hG (fun _ => 4) (fun _ => Nat.succ_pos 3) Nat.one_pos
    (List.forall_mem_singleton.mpr hfit) hpassed).1⟩

end Agreement

end WsPmd.Decoding
