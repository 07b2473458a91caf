import WsPmd.Decoder.Fragments

/-!
# The size a message too long is reported with

The room a turn offers is one byte past whichever is higher, the ceiling or what
the message was already given. As long as the ceiling is the higher one, the turn
that goes past it goes past it by that byte. Once the ceiling has fallen below the
delivery the first turn is refused whatever it gives, and where that is no byte at
all the size reported is the delivery itself.
-/

namespace WsPmd.Decoding

open Grammar (Bytes)
open Library
open Library.ByteMachine (Position Pending)

variable {σ : Type} {D : Decompress σ}

/-! ## One step, one turn, one call -/

/-- What a step that answers gave, and that it moved if there was input to move. -/
theorem step_answers {x x' : σ} {input scratch : Bytes} {room : ℕ} {st : Step}
    (h : step D x input room = (x', scratch, .ok st)) :
    (D.decompress x input room).status ≠ none ∧
      st.produced = advance (D.totalOut x) (D.totalOut (D.decompress x input room).state) room ∧
      (input ≠ [] → st.produced = 0 →
        advance (D.totalIn x) (D.totalIn (D.decompress x input room).state) input.length ≠ 0) := by
  unfold step at h
  simp only at h
  split at h
  · cases h
  · next status hstatus =>
    rw [hstatus]
    split at h
    · next hmoved =>
      obtain rfl := Except.ok.inj (Prod.mk.inj (Prod.mk.inj h).2).2
      exact ⟨Option.some_ne_none status, rfl, fun _ hzero =>
        hmoved.resolve_right (not_not.mpr hzero)⟩
    · next hstill =>
      split at h
      · next hempty =>
        obtain rfl := Except.ok.inj (Prod.mk.inj (Prod.mk.inj h).2).2
        refine ⟨Option.some_ne_none status, rfl, fun hne _ => absurd ?_ hne⟩
        rwa [sliceFrom_eq, not_not.mp (not_or.mp hstill).1, List.drop_zero] at hempty
      · cases h

/-- A backend that answers and does not stall makes a step that answers. -/
theorem step_of_answers {x : σ} {input : Bytes} {room : ℕ}
    (hstatus : (D.decompress x input room).status ≠ none)
    (hmoved : input ≠ [] →
      advance (D.totalIn x) (D.totalIn (D.decompress x input room).state) input.length ≠ 0) :
    ∃ x' scratch st, step D x input room = (x', scratch, .ok st) := by
  obtain ⟨status, hstatus⟩ := Option.ne_none_iff_exists'.mp hstatus
  simp only [step, hstatus]
  split
  · exact ⟨_, _, _, rfl⟩
  · next hstill =>
    have hempty : input = [] := by
      by_contra hne
      exact hstill (Or.inl (hmoved hne))
    rw [if_pos (by rw [sliceFrom_eq, hempty, List.drop_nil])]
    exact ⟨_, _, _, rfl⟩

theorem step_produced_le {x x' : σ} {input scratch : Bytes} {room : ℕ} {st : Step}
    (h : step D x input room = (x', scratch, .ok st)) : st.produced ≤ room := by
  rw [(step_answers h).2.1]
  exact advance_le _ _ _

theorem step_scratch {x x' : σ} {input scratch : Bytes} {room : ℕ}
    {outcome : Except CodecError Step} (h : step D x input room = (x', scratch, outcome)) :
    scratch = (D.decompress x input room).scratch := by
  unfold step at h
  simp only at h
  split at h
  · exact (Prod.mk.inj (Prod.mk.inj h).2).1.symm
  split at h
  · exact (Prod.mk.inj (Prod.mk.inj h).2).1.symm
  split at h
  · exact (Prod.mk.inj (Prod.mk.inj h).2).1.symm
  · exact (Prod.mk.inj (Prod.mk.inj h).2).1.symm

theorem length_step {x x' : σ} {input scratch : Bytes} {room : ℕ} {st : Step}
    (h : step D x input room = (x', scratch, .ok st)) :
    (scratch.take st.produced).length = st.produced := by
  rw [step_scratch h, List.length_take, (D.decompress x input room).scratch_length]
  exact Nat.min_eq_left (step_produced_le h)

theorem step_not_tooLong {x x' : σ} {input scratch : Bytes} {room size limit : ℕ} :
    step D x input room ≠ (x', scratch, .error (.messageTooLong size limit)) := by
  intro h
  unfold step at h
  simp only at h
  split at h
  · cases h
  split at h
  · cases h
  split at h <;> cases h

/-- A turn that reports the message as too long has counted what it gave. -/
theorem turn_tooLong {limit : DecompressedLimit} {s : Inflate σ} {r : Outcome σ Bool}
    {size l : ℕ} (h : Decoder.inflateTurn D limit s = .inl r)
    (he : r.result = .error (.messageTooLong size l)) :
    l = limit.bytes ∧ limit.bytes < size ∧ ∃ produced,
      produced ≤ saturatingAdd
        (limit.bytes - saturatingAdd s.decoder.delivered s.output.length) 1 ∧
      size = saturatingAdd s.decoder.delivered (s.output.length + produced) := by
  have hturned := inflateTurn_turned (D := D) limit s
  rw [h] at hturned
  cases hturned with
  | refused _ => cases he
  | stalled _ _ _ _ => cases he
  | tooLong _ hsize =>
    obtain ⟨rfl, rfl⟩ := CodecError.messageTooLong.inj (Except.error.inj he)
    refine ⟨rfl, hsize, (exchange D limit s).produced, ?_, ?_⟩
    · exact (produced_le limit s).trans (Nat.min_le_left _ _)
    · rw [List.length_append, length_given]
  | drained _ _ _ _ _ => cases he

/-- From within the ceiling it is passed by one byte. -/
theorem inflate_tooLong {limit : DecompressedLimit} (hl : limit.bytes < usizeMax)
    {decoder : Decoder σ} {input output : Bytes} {r : Outcome σ Bool}
    (hfit : saturatingAdd decoder.delivered output.length ≤ limit.bytes)
    (h : decoder.inflate D input limit output = some r) {size l : ℕ}
    (he : r.result = .error (.messageTooLong size l)) :
    l = limit.bytes ∧ size = limit.bytes + 1 := by
  apply Loop.run_invariant
    (fun s : Inflate σ => saturatingAdd s.decoder.delivered s.output.length ≤ limit.bytes)
    (fun r => r.result = .error (.messageTooLong size l) →
      l = limit.bytes ∧ size = limit.bytes + 1) _ _ hfit h he
  · intro s r hs hturn he
    obtain ⟨hlimit, hpast, produced, hroom, hsize⟩ := turn_tooLong hturn he
    refine ⟨hlimit, ?_⟩
    unfold saturatingAdd at hs hroom hsize
    omega
  · intro s s' hs hturn
    obtain ⟨hkept, _, _, _, _, _, _, hsize⟩ := turn_again hturn
    rw [hkept.delivered]
    exact hsize

/-- Both feeds of a call start within the ceiling, if the call does. -/
theorem Decoded.tooLong {limit : DecompressedLimit} (hl : limit.bytes < usizeMax)
    {decoder : Decoder σ} {input : Bytes} {finalFragment : Bool} {r : Outcome σ Unit}
    (hfit : decoder.delivered ≤ limit.bytes)
    (h : Decoded D decoder input finalFragment limit r) {size l : ℕ}
    (he : r.result = .error (.messageTooLong size l)) :
    l = limit.bytes ∧ size = limit.bytes + 1 := by
  have hstart : saturatingAdd decoder.delivered ([] : Bytes).length ≤ limit.bytes :=
    (Nat.min_le_left _ _).trans hfit
  cases h with
  | failed hfed hfailed =>
    obtain rfl := Except.error.inj he
    exact inflate_tooLong hl hstart hfed hfailed
  | more _ _ _ => cases he
  | unopened _ _ _ _ => cases he
  | closingFailed hfed hok _ _ hclosed hfailed =>
    have hspec := inflate_spec hfed
    have hwithin := (hspec.within _ hok).2
    rw [← hspec.kept.delivered] at hwithin
    obtain rfl := Except.error.inj he
    exact inflate_tooLong hl hwithin hclosed hfailed
  | endedClosing _ _ _ _ _ _ => cases he
  | closed _ _ _ _ _ _ => cases he

/-- A call that starts within the ceiling. -/
theorem decompress_tooLong {limit : DecompressedLimit} (hl : limit.bytes < usizeMax)
    {decoder next : Decoder σ} (hlive : decoder.poisoned = false)
    (hfit : decoder.delivered ≤ limit.bytes) {input : Bytes}
    {finalFragment : Bool} {size l : ℕ}
    (h : decoder.decompress D input finalFragment limit =
      some (.error (.messageTooLong size l), next)) :
    l = limit.bytes ∧ size = limit.bytes + 1 := by
  cases decompress_settled hlive h with
  | failed hdecoded herror => exact hdecoded.tooLong hl hfit herror

/-- Once the ceiling is below the delivery the first step of a call decides it. -/
theorem decompress_lowered {limit : DecompressedLimit} {decoder : Decoder σ}
    (hlive : decoder.poisoned = false) (hlow : limit.bytes < decoder.delivered)
    (hd : decoder.delivered < usizeMax) (input : Bytes) (finalFragment : Bool) :
    ∃ next, decoder.decompress D input finalFragment limit =
      some (.error (match (step D decoder.inflater input 1).2.2 with
        | .error error => error
        | .ok st => .messageTooLong (decoder.delivered + st.produced) limit.bytes), next) := by
  have hroom : Decoder.writable limit ⟨decoder, input, [], false⟩ = 1 := by
    have hscratch := scratchLen_pos
    unfold Decoder.writable saturatingAdd
    simp only [List.length_nil]
    omega
  have hturn : ∃ r, Decoder.inflateTurn D limit ⟨decoder, input, [], false⟩ = .inl r ∧
      r.result = .error (match (step D decoder.inflater input 1).2.2 with
        | .error error => error
        | .ok st => .messageTooLong (decoder.delivered + st.produced) limit.bytes) := by
    unfold Decoder.inflateTurn Decoder.resume
    simp only [hroom]
    cases hstep : step D decoder.inflater input 1 with
    | mk x answer =>
      obtain ⟨scratch, outcome⟩ := answer
      cases outcome with
      | error error => exact ⟨_, rfl, rfl⟩
      | ok st =>
        have hle := step_produced_le hstep
        have hsize : saturatingAdd decoder.delivered ([] ++ scratch.take st.produced).length =
            decoder.delivered + st.produced := by
          unfold saturatingAdd
          rw [List.nil_append, length_step hstep]
          omega
        simp only [hsize]
        rw [if_pos (by omega)]
        exact ⟨_, rfl, rfl⟩
  obtain ⟨r, hr, hresult⟩ := hturn
  have hfed : decoder.inflate D input limit [] = some r := Loop.run_stop hr
  refine ⟨{ r.decoder with poisoned := true }, ?_⟩
  simp only [Decoder.decompress, hlive, Bool.false_eq_true, if_false, Decoder.decode, hfed,
    Option.bind_eq_bind, Option.bind_some, hresult]

/-! ## The states a run reaches -/

/-- The successes of a run, each beside the call it answers. -/
def answered : List Call → List (Except CodecError Bytes) → Log
  | [], _ => []
  | _ :: _, [] => []
  | call :: calls, .ok out :: results => (call, out) :: answered calls results
  | _ :: calls, .error _ :: results => answered calls results

/-- A run leaves a poisoned decoder, or one that carries its successes. What the
message in progress was given stays below the limits. -/
theorem run_carries {calls : List Call} (hl : ∀ call ∈ calls, call.limit.bytes < usizeMax) :
    ∀ {decoder last : Decoder σ} {past : Log} {results : List (Except CodecError Bytes)},
      Carries decoder past → messageBytes past < usizeMax →
      run D decoder calls = some (results, last) →
      last.poisoned = true ∨ Carries last (past ++ answered calls results) ∧
        messageBytes (past ++ answered calls results) < usizeMax := by
  induction calls with
  | nil =>
    intro decoder last past results hcarries hpast hrun
    obtain ⟨rfl, rfl⟩ := Prod.mk.inj (Option.some.inj hrun)
    rw [answered, List.append_nil]
    exact Or.inr ⟨hcarries, hpast⟩
  | cons call calls ih =>
    intro decoder last past results hcarries hpast hrun
    obtain ⟨hcall, hcalls⟩ := List.forall_mem_cons.mp hl
    simp only [run, Option.bind_eq_bind, Option.bind_eq_some_iff] at hrun
    obtain ⟨⟨result, next⟩, hnext, ⟨more, last'⟩, hmore, he⟩ := hrun
    obtain ⟨rfl, rfl⟩ := Prod.mk.inj (Option.some.inj he)
    cases result with
    | error error =>
      have hpoisoned := ((decompress_spec hcarries.live hnext).failed error rfl).2
      rw [run_poisoned D hpoisoned] at hmore
      obtain ⟨-, rfl⟩ := Prod.mk.inj (Option.some.inj hmore)
      exact Or.inl hpoisoned
    | ok out =>
      obtain ⟨hfit, hnext'⟩ := hcarries.call hcall hnext
      have hbytes : messageBytes (past ++ [(call, out)]) < usizeMax := by
        rw [messageBytes_concat]
        split <;> omega
      have hlast := ih hcalls hnext' hbytes hmore
      rw [List.append_assoc] at hlast
      exact hlast

/-! ## The size that is reported -/

/-- The law of the error: it names the limit of the call, and a size one past
whichever is higher, that limit or what the message was given before. -/
def OnePast (D : Decompress σ) (decoder : Decoder σ) (call : Call) (delivered : ℕ) : Prop :=
  ∀ size limit next, decoder.decompress D call.input call.finalFragment call.limit =
      some (.error (.messageTooLong size limit), next) →
    limit = call.limit.bytes ∧ size = max call.limit.bytes delivered + 1

/-- Offered one byte of room for a fragment, the backend gives that byte, or fails,
or stalls. -/
def GivesByte (D : Decompress σ) (inflater : σ) (input : Bytes) : Prop :=
  (D.decompress inflater input 1).status = none ∨
    D.totalOut inflater < D.totalOut (D.decompress inflater input 1).state ∨
    (input ≠ [] ∧ D.totalIn (D.decompress inflater input 1).state ≤ D.totalIn inflater)

/-- It is what keeps the first step from answering without a byte. -/
theorem givesByte_iff {inflater : σ} {input : Bytes} :
    GivesByte D inflater input ↔
      ∀ x scratch st, step D inflater input 1 = (x, scratch, .ok st) → st.produced ≠ 0 := by
  have hproduced : advance (D.totalOut inflater)
      (D.totalOut (D.decompress inflater input 1).state) 1 ≠ 0 ↔
        D.totalOut inflater < D.totalOut (D.decompress inflater input 1).state := by
    unfold advance
    omega
  have hconsumed : input ≠ [] → (advance (D.totalIn inflater)
      (D.totalIn (D.decompress inflater input 1).state) input.length ≠ 0 ↔
        D.totalIn inflater < D.totalIn (D.decompress inflater input 1).state) := by
    intro hne
    have hpos := List.length_pos_iff.mpr hne
    unfold advance
    omega
  constructor
  · intro hgives x scratch st hstep hzero
    obtain ⟨hstatus, hst, hmoved⟩ := step_answers hstep
    rcases hgives with hfailed | hout | ⟨hne, hin⟩
    · exact hstatus hfailed
    · exact hproduced.mpr hout (hst.symm.trans hzero)
    · exact Nat.not_lt_of_le hin ((hconsumed hne).mp (hmoved hne hzero))
  · intro hnever
    by_contra hquiet
    obtain ⟨hstatus, hout, hin⟩ : (D.decompress inflater input 1).status ≠ none ∧
        ¬ D.totalOut inflater < D.totalOut (D.decompress inflater input 1).state ∧
        (input ≠ [] → D.totalIn inflater < D.totalIn (D.decompress inflater input 1).state) := by
      unfold GivesByte at hquiet
      push Not at hquiet
      exact ⟨hquiet.1, Nat.not_lt_of_le hquiet.2.1, hquiet.2.2⟩
    obtain ⟨x, scratch, st, hstep⟩ :=
      step_of_answers hstatus fun hne => (hconsumed hne).mpr (hin hne)
    apply hnever x scratch st hstep
    rw [(step_answers hstep).2.1]
    exact not_not.mp (mt hproduced.mp hout)

section Law

variable {decoder : Decoder σ} {log : Log} {call : Call}

/-- A call that reports the message as too long names its own limit, and a size that
is one past the higher of the two, or the delivery alone. -/
theorem Carries.tooLong (h : Carries decoder log) (hlog : messageBytes log < usizeMax)
    (hl : call.limit.bytes < usizeMax) {size limit : ℕ} {next : Decoder σ}
    (hnext : decoder.decompress D call.input call.finalFragment call.limit =
      some (.error (.messageTooLong size limit), next)) :
    limit = call.limit.bytes ∧ (size = max call.limit.bytes (messageBytes log) + 1 ∨
      size = messageBytes log ∧ call.limit.bytes < messageBytes log ∧
        ∃ x scratch st, step D decoder.inflater call.input 1 = (x, scratch, .ok st) ∧
          st.produced = 0) := by
  rw [← h.delivered] at hlog ⊢
  by_cases hfit : decoder.delivered ≤ call.limit.bytes
  · rw [Nat.max_eq_left hfit]
    obtain ⟨hlimit, hsize⟩ := decompress_tooLong hl h.live hfit hnext
    exact ⟨hlimit, Or.inl hsize⟩
  · have hlow := Nat.lt_of_not_le hfit
    obtain ⟨next', hnext'⟩ :=
      decompress_lowered (D := D) h.live hlow hlog call.input call.finalFragment
    obtain ⟨he, -⟩ := Prod.mk.inj (Option.some.inj (hnext.symm.trans hnext'))
    cases hstep : step D decoder.inflater call.input 1 with
    | mk x answer =>
      obtain ⟨scratch, outcome⟩ := answer
      rw [hstep] at he
      cases outcome with
      | error error =>
        obtain rfl := Except.error.inj he
        cases step_not_tooLong hstep
      | ok st =>
        obtain ⟨rfl, rfl⟩ := CodecError.messageTooLong.inj (Except.error.inj he)
        have hle := step_produced_le hstep
        refine ⟨rfl, ?_⟩
        rw [Nat.max_eq_right hlow.le]
        by_cases hzero : st.produced = 0
        · exact Or.inr ⟨by omega, hlow, x, scratch, st, rfl, hzero⟩
        · exact Or.inl (by omega)

/-- A first step that answers, under a ceiling below the delivery. -/
theorem Carries.tooLong_lowered (h : Carries decoder log) (hlog : messageBytes log < usizeMax)
    (call : Call) (hlow : call.limit.bytes < messageBytes log) {x : σ} {scratch : Bytes} {st : Step}
    (hstep : step D decoder.inflater call.input 1 = (x, scratch, .ok st)) :
    ∃ next, decoder.decompress D call.input call.finalFragment call.limit =
      some (.error (.messageTooLong (messageBytes log + st.produced) call.limit.bytes), next) := by
  rw [← h.delivered] at hlog hlow ⊢
  obtain ⟨next, hnext⟩ :=
    decompress_lowered (D := D) h.live hlow hlog call.input call.finalFragment
  rw [hstep] at hnext
  exact ⟨next, hnext⟩

/-- **The law, one call.** -/
theorem Carries.onePast_iff (h : Carries decoder log) (hlog : messageBytes log < usizeMax)
    (hl : call.limit.bytes < usizeMax) :
    OnePast D decoder call (messageBytes log) ↔
      messageBytes log ≤ call.limit.bytes ∨ GivesByte D decoder.inflater call.input := by
  constructor
  · intro hlaw
    by_contra hnone
    obtain ⟨hlow, hgives⟩ := not_or.mp hnone
    rw [givesByte_iff] at hgives
    push Not at hgives hlow
    obtain ⟨x, scratch, st, hstep, hzero⟩ := hgives
    obtain ⟨next, hnext⟩ := h.tooLong_lowered hlog call hlow hstep
    obtain ⟨-, hsize⟩ := hlaw _ _ next hnext
    omega
  · intro hcond size limit next hnext
    obtain ⟨hlimit, hsize | ⟨-, hlow, x, scratch, st, hstep, hzero⟩⟩ := h.tooLong hlog hl hnext
    · exact ⟨hlimit, hsize⟩
    · have hgives := hcond.resolve_left (Nat.not_le_of_lt hlow)
      exact absurd hzero (givesByte_iff.mp hgives x scratch st hstep)

end Law

/-- **What `MessageTooLong` reports.** In every state a run reaches, over any
backend, the error names the limit of the call that failed, and its size is one past
whichever is higher, that limit or what the message was given before, if and only if
the decoder is poisoned, the limit has not fallen below that delivery, or the backend,
offered one byte of room for the fragment, gives that byte, fails or stalls. Where
none of these holds the size is the delivery itself. -/
theorem tooLong_onePast_iff (D : Decompress σ) (peerMaxWindowBits : ℕ)
    (peerNoContextTakeover : Bool) {calls : List Call}
    (hl : ∀ call ∈ calls, call.limit.bytes < usizeMax) {results : List (Except CodecError Bytes)}
    {decoder : Decoder σ}
    (hrun : run D (Decoder.forPeer D peerMaxWindowBits peerNoContextTakeover) calls =
      some (results, decoder)) (call : Call) (hcall : call.limit.bytes < usizeMax) :
    (OnePast D decoder call (messageBytes (answered calls results)) ↔
      decoder.poisoned = true ∨ messageBytes (answered calls results) ≤ call.limit.bytes ∨
        GivesByte D decoder.inflater call.input) ∧
    ∀ size limit next, decoder.decompress D call.input call.finalFragment call.limit =
        some (.error (.messageTooLong size limit), next) →
      limit = call.limit.bytes ∧
        (size = max call.limit.bytes (messageBytes (answered calls results)) + 1 ∨
          size = messageBytes (answered calls results)) := by
  have hmint : Carries (Decoder.forPeer D peerMaxWindowBits peerNoContextTakeover) [] := ⟨rfl, rfl⟩
  rcases run_carries hl hmint (by decide) hrun with hpoisoned | ⟨hcarries, hbytes⟩
  · have hrefused := decompress_poisoned D hpoisoned call.input call.finalFragment call.limit
    refine ⟨iff_of_true (fun size limit next hnext => ?_) (Or.inl hpoisoned),
      fun size limit next hnext => ?_⟩
    · rw [hrefused] at hnext
      cases hnext
    · rw [hrefused] at hnext
      cases hnext
  · rw [List.nil_append] at hcarries hbytes
    refine ⟨?_, fun size limit next hnext => ?_⟩
    · rw [hcarries.onePast_iff hbytes hcall, hcarries.live]
      exact (or_iff_right Bool.false_ne_true).symm
    · obtain ⟨hlimit, hsize⟩ := hcarries.tooLong hbytes hcall hnext
      exact ⟨hlimit, hsize.imp_right And.left⟩

/-- A fragment that gives two bytes, delivered. -/
theorem two_bytes_delivered {input : Bytes} {q : Position Deflate.State}
    (hdue : deliver (Deflate.machine (2 ^ 15)) false (Deflate.machine (2 ^ 15)).fresh input false =
      some ([0x61, 0x62], q)) :
    run (greedyInflater (Deflate.machine (2 ^ 15)))
        (Decoder.forPeer (greedyInflater (Deflate.machine (2 ^ 15))) 15 false)
        [⟨input, false, ⟨2, by decide⟩⟩] = some ([.ok [0x61, 0x62]],
      place (Decoder.forPeer (greedyInflater (Deflate.machine (2 ^ 15))) 15 false) q 2) := by
  have hG : Greedy (Deflate.machine (2 ^ 15)) (greedyInflater (Deflate.machine (2 ^ 15)))
      (InflaterConfig.forPeerWindow 15).windowBits := greedyInflater_greedy _ _
  have hfit : 2 < usizeMax := by decide
  have hcall : (place (Decoder.forPeer (greedyInflater (Deflate.machine (2 ^ 15))) 15 false)
      (Deflate.machine (2 ^ 15)).fresh 0).decompress (greedyInflater (Deflate.machine (2 ^ 15)))
        input false ⟨2, hfit.le⟩ = some (.ok [0x61, 0x62], place _ q 2) :=
    decompress_delivers hG rfl rfl (Deflate.machine (2 ^ 15)).live_fresh hdue (Nat.le_refl 2)
  rw [← forPeer_placed false hG] at hcall
  exact run_cons hcall (run_nil _ _)

/-- Two bytes into a stored block of three. -/
def twoOfThree : Position Deflate.State := ⟨⟨.stored 1, [], 56, false, [0x62, 0x61]⟩, true, 7, 2⟩

/-- The third byte, under a ceiling that has fallen below the two delivered. -/
theorem tooLong_onePast_level :
    ∃ decoder next, run (greedyInflater (Deflate.machine (2 ^ 15)))
        (Decoder.forPeer (greedyInflater (Deflate.machine (2 ^ 15))) 15 false)
        [⟨[0x00, 0x03, 0x00, 0xfc, 0xff, 0x61, 0x62], false, ⟨2, by decide⟩⟩] =
          some ([.ok [0x61, 0x62]], decoder) ∧
      OnePast (greedyInflater (Deflate.machine (2 ^ 15))) decoder
        ⟨[0x63], false, ⟨1, by decide⟩⟩ 2 ∧
      decoder.decompress (greedyInflater (Deflate.machine (2 ^ 15))) [0x63] false ⟨1, by decide⟩ =
        some (.error (.messageTooLong 3 1), next) := by
  have hfit : 2 < usizeMax := by decide
  have hlow : 1 < usizeMax := by decide
  have hdue : deliver (Deflate.machine (2 ^ 15)) false (Deflate.machine (2 ^ 15)).fresh
      [0x00, 0x03, 0x00, 0xfc, 0xff, 0x61, 0x62] false = some ([0x61, 0x62], twoOfThree) := rfl
  have hrun := two_bytes_delivered hdue
  have hgives : GivesByte (greedyInflater (Deflate.machine (2 ^ 15))) twoOfThree.settled [0x63] :=
    .inr (.inl (by decide))
  have hlaw := (tooLong_onePast_iff _ 15 false (List.forall_mem_singleton.mpr hfit) hrun
    ⟨[0x63], false, ⟨1, hlow.le⟩⟩ hlow).1.mpr (.inr (.inr hgives))
  obtain ⟨x, scratch, st, hstep, hone⟩ : ∃ x scratch st,
      step (greedyInflater (Deflate.machine (2 ^ 15))) twoOfThree.settled [0x63] 1 =
        (x, scratch, .ok st) ∧ st.produced = 1 := ⟨_, _, _, rfl, rfl⟩
  have hcarries : Carries
      (place (Decoder.forPeer (greedyInflater (Deflate.machine (2 ^ 15))) 15 false) twoOfThree 2)
      [(⟨[0x00, 0x03, 0x00, 0xfc, 0xff, 0x61, 0x62], false, ⟨2, hfit.le⟩⟩, [0x61, 0x62])] :=
    ⟨rfl, rfl⟩
  obtain ⟨next, hnext⟩ := hcarries.tooLong_lowered hfit ⟨[0x63], false, ⟨1, hlow.le⟩⟩
    Nat.one_lt_two hstep
  rw [hone] at hnext
  exact ⟨_, next, hrun, hlaw, hnext⟩

/-- An inflater that owes nothing has no byte for an empty fragment. -/
theorem step_settled_nil {S : Type} {M : ByteMachine S} {D : Decompress (Pending S)}
    {windowBits : ℕ} (hG : Greedy M D windowBits) {p : Position S} (hp : M.Live p) :
    ∃ x scratch st, step D p.settled [] 1 = (x, scratch, .ok st) ∧ st.produced = 0 := by
  rcases step_greedy hG (sound_settled hp) [] Nat.one_pos with
    ⟨_, _, -, hinvalid⟩ | ⟨_, taken, rest, output, _, hm, -, hstep⟩
  · have hnone := hinvalid p.begun
    rw [M.outlook_settled hp, M.read_nil] at hnone
    cases hnone
  · obtain ⟨rfl, -⟩ := List.append_eq_nil_iff.mp hm.input_eq.symm
    obtain ⟨⟩ := hm.consumes
    exact ⟨_, _, _, hstep, rfl⟩

/-- An empty fragment, under a ceiling that has fallen below the two bytes delivered:
the size reported is two, which is not past anything. -/
theorem tooLong_at_delivery :
    ∃ decoder next, run (greedyInflater (Deflate.machine (2 ^ 15)))
        (Decoder.forPeer (greedyInflater (Deflate.machine (2 ^ 15))) 15 false)
        [⟨[0x00, 0x02, 0x00, 0xfd, 0xff, 0x61, 0x62], false, ⟨2, by decide⟩⟩] =
          some ([.ok [0x61, 0x62]], decoder) ∧
      decoder.decompress (greedyInflater (Deflate.machine (2 ^ 15))) [] false ⟨1, by decide⟩ =
        some (.error (.messageTooLong 2 1), next) ∧
      ¬ OnePast (greedyInflater (Deflate.machine (2 ^ 15))) decoder
        ⟨[], false, ⟨1, by decide⟩⟩ 2 := by
  have hfit : 2 < usizeMax := by decide
  obtain ⟨q, hdue⟩ : ∃ q, deliver (Deflate.machine (2 ^ 15)) false (Deflate.machine (2 ^ 15)).fresh
      [0x00, 0x02, 0x00, 0xfd, 0xff, 0x61, 0x62] false = some ([0x61, 0x62], q) := ⟨_, rfl⟩
  have hrun := two_bytes_delivered hdue
  have hlive := deliver_live (Deflate.machine (2 ^ 15)).live_fresh hdue
  obtain ⟨x, scratch, st, hstep, hzero⟩ :=
    step_settled_nil (greedyInflater_greedy (Deflate.machine (2 ^ 15)) 15) hlive
  have hcarries : Carries
      (place (Decoder.forPeer (greedyInflater (Deflate.machine (2 ^ 15))) 15 false) q 2)
      [(⟨[0x00, 0x02, 0x00, 0xfd, 0xff, 0x61, 0x62], false, ⟨2, hfit.le⟩⟩, [0x61, 0x62])] :=
    ⟨rfl, rfl⟩
  obtain ⟨next, hnext⟩ := hcarries.tooLong_lowered hfit ⟨[], false, ⟨1, by decide⟩⟩
    Nat.one_lt_two hstep
  rw [hzero] at hnext
  refine ⟨_, next, hrun, hnext, fun hlaw => ?_⟩
  obtain ⟨-, hsize⟩ := hlaw _ _ next hnext
  cases hsize

end WsPmd.Decoding
