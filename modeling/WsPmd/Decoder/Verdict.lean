import WsPmd.Decoder.TooLong
import WsPmd.Decoder.Unbounded

/-!
# Which error a call fails with

Over a greedy backend a call fails for one of two reasons, and says which. A message is
reported too long only where the machine gives more than the limit of that call before it
meets any fault, and a stream is reported invalid only where no message of any length
could be read. The backend is never found stalled. So the answers of a whole run are
read off the machine, and with other limits the same calls answer the same, up to the
first that no longer fits.
-/

namespace WsPmd.Decoding

open Grammar (Bytes)
open Library
open Library.ByteMachine (Position Pending)

variable {S : Type}

/-! ## One feed -/

section Feeds

variable {M : ByteMachine S} {D : Decompress (Pending S)} {windowBits : ℕ}
  {b : Bounds (Pending S)}

/-- Why a feed fails: the fault is in the input, or what was given up to some point is
refused, and that is no more than there is to give. -/
def Faults (b : Bounds (Pending S)) (delivered given : ℕ) (invalid : Prop)
    (e : CodecError) : Prop :=
  (invalid ∧ e = .invalidStream) ∨
    ∃ size, size ≤ saturatingAdd delivered given ∧ b.refuses size = some e

theorem turn_fault (hG : Greedy M D windowBits) (b : Bounds (Pending S))
    {s : Inflate (Pending S)} (hc : s.decoder.config = ⟨false, windowBits⟩)
    (hs : Sound M s.decoder.inflater) {r : Outcome (Pending S) Bool} {e : CodecError}
    (h : inflateTurnWithin D b s = .inl r) (he : r.result = .error e) :
    Faults b s.decoder.delivered (s.output ++ (Inflate.outlook M s).output).length
      ((Inflate.outlook M s).position = none) e := by
  rcases step_greedy hG hs s.input (b.room_pos s) with ⟨x', scratch, hstep, hnone⟩ |
    ⟨status, taken, rest, output, s', hm, hidle, hstep⟩
  · simp only [inflateTurnWithin, hstep] at h
    obtain rfl := Sum.inl.inj h
    exact Or.inl ⟨hnone _, (Except.error.inj he).symm⟩
  · have hturn := turn_eq hG b s hc hm.input_eq hstep And.left
    obtain ⟨-, hout, -, -⟩ := outlook_stepped hm
    rw [hm.scratch] at hturn
    rw [hturn] at h
    cases hsize : b.refuses (saturatingAdd s.decoder.delivered
        (s.output ++ (s.decoder.inflater.owed ++ output).take (b.room s)).length) with
    | some error =>
      rw [hsize] at h
      obtain rfl := Sum.inl.inj h
      obtain rfl := Except.error.inj he
      refine Or.inr ⟨_, ?_, hsize⟩
      apply saturatingAdd_mono
      rw [hout]
      simp only [List.length_append]
      omega
    | none =>
      -- A turn with nothing against it either goes round again or answers.
      rw [hsize] at h
      simp only at h
      split at h
      · obtain rfl := Sum.inl.inj h
        cases he
      · cases h

theorem inflateWithin_fault (hG : Greedy M D windowBits) {decoder : Decoder (Pending S)}
    (hc : decoder.config = ⟨false, windowBits⟩) {p : Position S} (hp : M.Live p)
    {delivered : ℕ} {input output : Bytes} {r : Outcome (Pending S) Bool} {e : CodecError}
    (h : inflateWithin D b (place decoder p delivered) input output = some r)
    (he : r.result = .error e) :
    Faults b delivered (output ++ (M.read p input).output).length
      ((M.read p input).position = none) e := by
  have hstart : Inflate.outlook M ⟨place decoder p delivered, input, output, false⟩ =
      M.read p input := M.outlook_settled hp input
  apply Loop.run_invariant (fun s => Kept (place decoder p delivered) s.decoder ∧
      Sound M s.decoder.inflater ∧
      output ++ (M.read p input).output = s.output ++ (Inflate.outlook M s).output ∧
      (M.read p input).position = (Inflate.outlook M s).position)
    (fun r => r.result = .error e → Faults b delivered
      (output ++ (M.read p input).output).length ((M.read p input).position = none) e)
    _ _ ⟨Kept.refl _, sound_settled hp, by rw [hstart], by rw [hstart]⟩ h he
  · intro s r ⟨hkept, hs, hout, hposition⟩ hturn he
    have hdelivered : s.decoder.delivered = delivered := hkept.delivered
    have hfault := turn_fault hG b (hkept.config.trans hc) hs hturn he
    rwa [hdelivered, ← hout, ← hposition] at hfault
  · intro s s' ⟨hkept, hs, hout, hposition⟩ hturn
    rcases turn_reads hG b s (hkept.config.trans hc) hs with ⟨s1, hagain, honward⟩ |
      ⟨r, hleave, -⟩
    · obtain rfl : s1 = s' := by
        rw [hagain] at hturn
        exact Sum.inr.inj hturn
      exact ⟨hkept.trans honward.kept, honward.sound, hout.trans honward.total,
        hposition.trans honward.position⟩
    · rw [hleave] at hturn
      cases hturn

end Feeds

/-! ## One call -/

/-- Everything a call has to give before it meets a fault: what its input reads to, and
at the end of a message what the trailer reads to behind it. -/
def yields (M : ByteMachine S) (p : Position S) (input : Bytes) (finalFragment : Bool) : Bytes :=
  let fed := M.read p input
  match fed.position with
  | none => fed.output
  | some p =>
    if finalFragment ∧ p.begun then fed.output ++ (M.read p trailer).output else fed.output

theorem yields_of_deliver {M : ByteMachine S} {reset finalFragment : Bool} {p q : Position S}
    {input out : Bytes} (h : deliver M reset p input finalFragment = some (out, q)) :
    yields M p input finalFragment = out := by
  cases finalFragment with
  | false =>
    simp only [deliver, Bool.false_eq_true, if_false] at h
    split at h
    · cases h
    · next p1 hp1 =>
      obtain ⟨rfl, -⟩ := Prod.mk.inj (Option.some.inj h)
      simp only [yields, hp1, Bool.false_eq_true, false_and, if_false]
  | true =>
    obtain ⟨p1, q1, hp1, hbegun, -, -, rfl⟩ := deliver_final h
    simp only [yields, hp1, hbegun, and_self, if_true]

/-- The answer of a call to a live decoder at a position, read off the machine. -/
inductive Verdict (M : ByteMachine S) (reset : Bool) (p : Position S) (delivered : ℕ)
    (call : Call) : Except CodecError Bytes → Prop where
  | answered {out : Bytes} {q : Position S} :
      deliver M reset p call.input call.finalFragment = some (out, q) →
      saturatingAdd delivered out.length ≤ call.limit.bytes →
      Verdict M reset p delivered call (.ok out)
  | tooLong {size : ℕ} :
      call.limit.bytes < size →
      size ≤ saturatingAdd delivered (yields M p call.input call.finalFragment).length →
      Verdict M reset p delivered call (.error (.messageTooLong size call.limit.bytes))
  | invalid :
      deliver M reset p call.input call.finalFragment = none →
      Verdict M reset p delivered call (.error .invalidStream)

section Calls

variable {M : ByteMachine S} {D : Decompress (Pending S)} {windowBits : ℕ}

theorem Verdict.of_fault {reset : Bool} {p : Position S} {delivered given : ℕ} {call : Call}
    {invalid : Prop} {e : CodecError}
    (h : Faults (sourceBounds (σ := Pending S) call.limit) delivered given invalid e)
    (hgiven : given ≤ (yields M p call.input call.finalFragment).length)
    (hinvalid : invalid → deliver M reset p call.input call.finalFragment = none) :
    Verdict M reset p delivered call (.error e) := by
  rcases h with ⟨hnone, rfl⟩ | ⟨size, hsize, hrefuses⟩
  · exact .invalid (hinvalid hnone)
  · have hsource : (if size > call.limit.bytes then
        some (CodecError.messageTooLong size call.limit.bytes) else none) = some e := hrefuses
    split at hsource
    · next hpast =>
      obtain rfl := Option.some.inj hsource
      exact .tooLong hpast (hsize.trans (saturatingAdd_mono _ hgiven))
    · cases hsource

/-- A feed that answered has read its input, and left the decoder behind it. -/
theorem inflate_answered (hG : Greedy M D windowBits) {decoder : Decoder (Pending S)}
    (hc : decoder.config = ⟨false, windowBits⟩) {p : Position S} (hp : M.Live p)
    {delivered : ℕ} {input output : Bytes} {limit : DecompressedLimit}
    {r : Outcome (Pending S) Bool} {ended : Bool}
    (h : (place decoder p delivered).inflate D input limit output = some r)
    (hok : r.result = .ok ended) :
    ∃ q, (M.read p input).position = some q ∧ r = ⟨.ok (M.read p input).ended,
      place decoder q delivered, output ++ (M.read p input).output⟩ := by
  obtain ⟨r', hr', hreads⟩ := inflate_reads hG hc hp delivered input output limit
  obtain rfl := Option.some.inj (h.symm.trans hr')
  have hgood : ¬ ((M.read p input).position = none ∨ (sourceBounds (σ := Pending S) limit).refuses
      (saturatingAdd delivered (output ++ (M.read p input).output).length) ≠ none) := by
    intro hbad
    obtain ⟨e, he⟩ := hreads.fails hbad
    rw [hok] at he
    cases he
  obtain ⟨hsome, hfit⟩ := not_or.mp hgood
  obtain ⟨q, hq⟩ := Option.ne_none_iff_exists'.mp hsome
  exact ⟨q, hq, hreads.answers q hq (not_not.mp hfit)⟩

theorem inflate_fault (hG : Greedy M D windowBits) {decoder : Decoder (Pending S)}
    (hc : decoder.config = ⟨false, windowBits⟩) {p : Position S} (hp : M.Live p)
    {delivered : ℕ} {input output : Bytes} {limit : DecompressedLimit}
    {r : Outcome (Pending S) Bool} {e : CodecError}
    (h : (place decoder p delivered).inflate D input limit output = some r)
    (he : r.result = .error e) :
    Faults (sourceBounds (σ := Pending S) limit) delivered
      (output ++ (M.read p input).output).length ((M.read p input).position = none) e := by
  rw [inflate_eq_within] at h
  exact inflateWithin_fault hG hc hp h he

/-- **What a call fails with.** -/
theorem decode_verdict (hG : Greedy M D windowBits) {decoder : Decoder (Pending S)}
    (hc : decoder.config = ⟨false, windowBits⟩) {p : Position S} (hp : M.Live p)
    {delivered : ℕ} {call : Call} {r : Outcome (Pending S) Unit} {e : CodecError}
    (h : Decoded D (place decoder p delivered) call.input call.finalFragment call.limit r)
    (he : r.result = .error e) :
    Verdict M decoder.resetBetweenMessages p delivered call (.error e) := by
  cases h with
  | failed hfed herror =>
    obtain rfl := Except.error.inj he
    refine Verdict.of_fault (inflate_fault hG hc hp hfed herror) ?_ fun hnone => ?_
    · rw [List.nil_append]
      unfold yields
      simp only
      split
      · exact Nat.le_refl _
      split
      · rw [List.length_append]
        omega
      · exact Nat.le_refl _
    · simp only [deliver, hnone]
  | more _ _ _ => cases he
  | unopened hfed hok hfinal hshut =>
    obtain rfl := Except.error.inj he
    obtain ⟨p1, hp1, rfl⟩ := inflate_answered hG hc hp hfed hok
    have hbegun : p1.begun = false := hshut
    refine .invalid ?_
    simp only [deliver, hp1, hfinal, if_true, hbegun, Bool.false_eq_true, false_and, if_false]
    split <;> rfl
  | closingFailed hfed hok hfinal hopen hclosed herror =>
    obtain rfl := Except.error.inj he
    obtain ⟨p1, hp1, rfl⟩ := inflate_answered hG hc hp hfed hok
    have hbegun : p1.begun = true := hopen
    refine Verdict.of_fault
      (inflate_fault hG hc (ByteMachine.Live.read M hp hp1) hclosed herror) ?_ fun hnone => ?_
    · simp only [yields, hp1, hfinal, hbegun, and_self, if_true, List.nil_append, Nat.le_refl]
    · simp only [deliver, hp1, hfinal, if_true, hnone]
  | endedClosing hfed hok hfinal hopen hclosed hended =>
    obtain rfl := Except.error.inj he
    obtain ⟨p1, hp1, rfl⟩ := inflate_answered hG hc hp hfed hok
    obtain ⟨q1, hq1, rfl⟩ :=
      inflate_answered hG hc (ByteMachine.Live.read M hp hp1) hclosed hended
    have hended' : (M.read p1 trailer).ended = true := Except.ok.inj hended
    refine .invalid ?_
    simp only [deliver, hp1, hfinal, if_true, hq1, hended', Bool.true_eq_false, and_false,
      if_false]
  | closed _ _ _ _ _ _ => cases he

/-- **One call, read off the machine.** -/
theorem decompress_verdict (hG : Greedy M D windowBits) {decoder : Decoder (Pending S)}
    (hc : decoder.config = ⟨false, windowBits⟩) (hlive : decoder.poisoned = false)
    {p : Position S} (hp : M.Live p) {delivered : ℕ} {call : Call}
    {result : Except CodecError Bytes} {next : Decoder (Pending S)}
    (h : (place decoder p delivered).decompress D call.input call.finalFragment call.limit =
      some (result, next)) :
    Verdict M decoder.resetBetweenMessages p delivered call result := by
  cases result with
  | ok out =>
    obtain ⟨q, hdue, hfit, -⟩ := (decompress_ok_iff hG hc hlive hp).mp h
    exact .answered hdue hfit
  | error e =>
    have hplaced : (place decoder p delivered).poisoned = false := hlive
    cases decompress_settled hplaced h with
    | failed hdecoded herror => exact decode_verdict hG hc hp hdecoded herror

end Calls

/-! ## Whole runs -/

/-- The answers of a run, read off the machine: from a position, with a count of what the
message in progress was given, or from nowhere once the decoder is poisoned. -/
inductive Verdicts (M : ByteMachine S) (reset : Bool) :
    Option (Position S × ℕ) → List Call → List (Except CodecError Bytes) →
      Option (Position S × ℕ) → Prop where
  | nil {standing : Option (Position S × ℕ)} : Verdicts M reset standing [] [] standing
  | answered {p q : Position S} {delivered : ℕ} {call : Call} {calls : List Call} {out : Bytes}
      {results : List (Except CodecError Bytes)} {last : Option (Position S × ℕ)} :
      deliver M reset p call.input call.finalFragment = some (out, q) →
      saturatingAdd delivered out.length ≤ call.limit.bytes →
      Verdicts M reset
        (some (q, if call.finalFragment then 0 else saturatingAdd delivered out.length))
        calls results last →
      Verdicts M reset (some (p, delivered)) (call :: calls) (.ok out :: results) last
  | failed {p : Position S} {delivered : ℕ} {call : Call} {calls : List Call} {e : CodecError}
      {results : List (Except CodecError Bytes)} {last : Option (Position S × ℕ)} :
      Verdict M reset p delivered call (.error e) → Verdicts M reset none calls results last →
      Verdicts M reset (some (p, delivered)) (call :: calls) (.error e :: results) last
  | poisoned {call : Call} {calls : List Call} {results : List (Except CodecError Bytes)}
      {last : Option (Position S × ℕ)} :
      Verdicts M reset none calls results last →
      Verdicts M reset none (call :: calls) (.error .poisoned :: results) last

/-- The decoder stands there. -/
def StandsAt (M : ByteMachine S) (start : Decoder (Pending S)) (decoder : Decoder (Pending S)) :
    Option (Position S × ℕ) → Prop
  | none => decoder.poisoned = true
  | some (p, delivered) => M.Live p ∧ decoder = place start p delivered

section Runs

variable {M : ByteMachine S} {D : Decompress (Pending S)} {windowBits : ℕ}

theorem verdicts_none {reset : Bool} (calls : List Call) :
    Verdicts M reset none calls (calls.map fun _ => .error .poisoned) none := by
  induction calls with
  | nil => exact .nil
  | cons call calls ih => exact .poisoned ih

/-- Whatever is asked of a decoder at a position is answered, and as the machine has it. -/
theorem run_verdicts (hG : Greedy M D windowBits) {start : Decoder (Pending S)}
    (hc : start.config = ⟨false, windowBits⟩) (hlive : start.poisoned = false)
    (calls : List Call) :
    ∀ {p : Position S} (delivered : ℕ), M.Live p →
      ∃ results last standing, run D (place start p delivered) calls = some (results, last) ∧
        Verdicts M start.resetBetweenMessages (some (p, delivered)) calls results standing ∧
        StandsAt M start last standing := by
  induction calls with
  | nil => exact fun {p} delivered hp => ⟨[], _, some (p, delivered), rfl, .nil, hp, rfl⟩
  | cons call calls ih =>
    intro p delivered hp
    obtain ⟨result, next, hnext, -⟩ := decompress_placed hG hc hlive hp delivered call
    have hverdict := decompress_verdict hG hc hlive hp hnext
    cases result with
    | ok out =>
      obtain ⟨q, hdue, hfit, rfl⟩ := (decompress_ok_iff hG hc hlive hp).mp hnext
      obtain ⟨results, last, standing, hrun, hverdicts, hlast⟩ := ih _ (deliver_live hp hdue)
      exact ⟨_, last, standing, run_cons hnext hrun, .answered hdue hfit hverdicts, hlast⟩
    | error e =>
      have hplaced : (place start p delivered).poisoned = false := hlive
      obtain ⟨-, hpoisoned⟩ := (decompress_spec hplaced hnext).failed e rfl
      exact ⟨_, next, none, run_cons hnext (run_poisoned D hpoisoned calls),
        .failed hverdict (verdicts_none calls), hpoisoned⟩

/-- No verdict is that the backend stalled. -/
theorem Verdicts.errors {reset : Bool} {standing last : Option (Position S × ℕ)}
    {calls : List Call} {results : List (Except CodecError Bytes)}
    (h : Verdicts M reset standing calls results last) {e : CodecError}
    (he : .error e ∈ results) :
    e = .invalidStream ∨ e = .poisoned ∨ ∃ size limit, e = .messageTooLong size limit := by
  induction h with
  | nil => cases he
  | answered _ _ _ ih =>
    apply ih
    simpa using he
  | failed hverdict _ ih =>
    rcases List.mem_cons.mp he with heq | hmem
    · obtain rfl := Except.error.inj heq
      cases hverdict with
      | tooLong _ _ => exact Or.inr (Or.inr ⟨_, _, rfl⟩)
      | invalid _ => exact Or.inl rfl
    · exact ih hmem
  | poisoned _ ih =>
    rcases List.mem_cons.mp he with heq | hmem
    · exact Or.inr (Or.inl (Except.error.inj heq))
    · exact ih hmem

/-- **Every run answers what the machine reads.** Over a greedy backend any calls on a
decoder as it is minted return. Each is answered with what the machine delivers, if that
fits the limit of the call; with `MessageTooLong` only if what it gives before any fault
is longer than that; with `InvalidStream` only if it delivers nothing at all; and behind
the first failure with `Poisoned`. No call is ever `Stalled`. -/
theorem run_read_off (M : ByteMachine S) (D : Decompress (Pending S)) (peerMaxWindowBits : ℕ)
    (peerNoContextTakeover : Bool)
    (hG : Greedy M D (InflaterConfig.forPeerWindow peerMaxWindowBits).windowBits)
    (calls : List Call) :
    ∃ results last standing,
      run D (Decoder.forPeer D peerMaxWindowBits peerNoContextTakeover) calls =
        some (results, last) ∧
      Verdicts M peerNoContextTakeover (some (M.fresh, 0)) calls results standing ∧
      StandsAt M (Decoder.forPeer D peerMaxWindowBits peerNoContextTakeover) last standing ∧
      ∀ e, .error e ∈ results →
        e = .invalidStream ∨ e = .poisoned ∨ ∃ size limit, e = .messageTooLong size limit := by
  have hc : (Decoder.forPeer D peerMaxWindowBits peerNoContextTakeover).config =
      ⟨false, (InflaterConfig.forPeerWindow peerMaxWindowBits).windowBits⟩ := rfl
  obtain ⟨results, last, standing, hrun, hverdicts, hlast⟩ :=
    run_verdicts hG hc rfl calls 0 M.live_fresh
  rw [← forPeer_placed peerNoContextTakeover hG] at hrun
  exact ⟨results, last, standing, hrun, hverdicts, hlast, fun e => hverdicts.errors⟩

/-- A reserved block type, and then a call behind the failure. -/
theorem run_read_off_reserved :
    ∃ results last standing,
      run (greedyInflater (Deflate.machine (2 ^ 15)))
        (Decoder.forPeer (greedyInflater (Deflate.machine (2 ^ 15))) 15 false)
        [⟨[0x07], false, ⟨1, by decide⟩⟩, ⟨[], true, ⟨1, by decide⟩⟩] = some (results, last) ∧
      Verdicts (Deflate.machine (2 ^ 15)) false (some ((Deflate.machine (2 ^ 15)).fresh, 0))
        [⟨[0x07], false, ⟨1, by decide⟩⟩, ⟨[], true, ⟨1, by decide⟩⟩] results standing := by
  obtain ⟨results, last, standing, hrun, hverdicts, -, -⟩ :=
    run_read_off (Deflate.machine (2 ^ 15)) (greedyInflater (Deflate.machine (2 ^ 15))) 15 false
      (greedyInflater_greedy _ _) [⟨[0x07], false, ⟨1, by decide⟩⟩, ⟨[], true, ⟨1, by decide⟩⟩]
  exact ⟨results, last, standing, hrun, hverdicts⟩

/-! ## Other limits -/

/-- Calls that went through, made again under other limits: the same answers, up to the
first call whose limit the message no longer fits. -/
inductive Relimited : Log → Log → List Call → List (Except CodecError Bytes) → Prop where
  | nil {past : Log} : Relimited past [] [] []
  | fits {past log : Log} {entry : Call × Bytes} {call : Call} {calls : List Call}
      {results : List (Except CodecError Bytes)} :
      messageBytes past + entry.2.length ≤ call.limit.bytes →
      Relimited (past ++ [entry]) log calls results →
      Relimited past (entry :: log) (call :: calls) (.ok entry.2 :: results)
  | over {past log : Log} {entry : Call × Bytes} {call : Call} {calls : List Call} {size : ℕ} :
      call.limit.bytes < messageBytes past + entry.2.length →
      call.limit.bytes < size → size ≤ messageBytes past + entry.2.length →
      Relimited past (entry :: log) (call :: calls)
        (.error (.messageTooLong size call.limit.bytes) :: calls.map fun _ => .error .poisoned)

/-- The same call, whatever its limit. -/
def SameBytes (entry : Call × Bytes) (call : Call) : Prop :=
  call.input = entry.1.input ∧ call.finalFragment = entry.1.finalFragment

theorem Verdicts.of_none {reset : Bool} {calls : List Call}
    {results : List (Except CodecError Bytes)} {last : Option (Position S × ℕ)}
    (h : Verdicts M reset none calls results last) :
    results = calls.map fun _ => .error .poisoned := by
  induction calls generalizing results with
  | nil =>
    cases h
    rfl
  | cons call calls ih =>
    cases h with
    | poisoned h => rw [ih h, List.map_cons]

/-- Only a failure takes a decoder from its position. -/
theorem Verdicts.placed {reset : Bool} {log : Log} :
    ∀ {standing : Position S × ℕ} {last : Option (Position S × ℕ)},
      Verdicts M reset (some standing) (log.map (·.1)) (log.map fun entry => .ok entry.2) last →
      last ≠ none := by
  induction log with
  | nil =>
    intro standing last h
    cases h
    exact Option.some_ne_none standing
  | cons entry log ih =>
    intro standing last h
    cases h with
    | answered _ _ hrest => exact ih hrest

/-- Two readings from one position, of the same bytes under different limits. -/
theorem Verdicts.relimited {reset : Bool} {log : Log} {calls : List Call}
    (hsame : List.Forall₂ SameBytes log calls) :
    ∀ {past : Log} {p : Position S} {results : List (Except CodecError Bytes)}
      {last last' : Option (Position S × ℕ)},
      (∀ entry ∈ log, entry.1.limit.bytes < usizeMax) →
      Verdicts M reset (some (p, messageBytes past)) (log.map (·.1))
        (log.map fun entry => .ok entry.2) last →
      Verdicts M reset (some (p, messageBytes past)) calls results last' →
      Relimited past log calls results ∧
        (results = (log.map fun entry => .ok entry.2) → last' = last) := by
  induction hsame with
  | nil =>
    intro past p results last last' _ hlog hcalls
    cases hlog
    cases hcalls
    exact ⟨.nil, fun _ => rfl⟩
  | @cons entry call log calls hentry hsame ih =>
    intro past p results last last' hl hlog hcalls
    obtain ⟨hfirst, hl⟩ := List.forall_mem_cons.mp hl
    obtain ⟨hinput, hfinal⟩ := hentry
    cases hlog with
    | @answered _ q _ _ _ _ _ _ hdue hfit hrest =>
      obtain ⟨-, hsum⟩ := add_le_of_saturatingAdd hfit hfirst
      have hnext : (if entry.1.finalFragment = true then 0
          else saturatingAdd (messageBytes past) entry.2.length) =
            messageBytes (past ++ [entry]) := by
        rw [hsum]
        exact (messageBytes_concat past entry.1 entry.2).symm
      cases hcalls with
      | @answered _ q' _ _ _ out _ _ hdue' hfit' hrest' =>
        rw [hinput, hfinal, hdue] at hdue'
        obtain ⟨rfl, rfl⟩ := Prod.mk.inj (Option.some.inj hdue')
        rw [hfinal, hnext] at hrest'
        rw [hnext] at hrest
        rw [hsum] at hfit'
        obtain ⟨hrelimited, hlast⟩ := ih hl hrest hrest'
        exact ⟨.fits hfit' hrelimited, fun hall => hlast (List.cons.inj hall).2⟩
      | failed hverdict hrest' =>
        obtain rfl := hrest'.of_none
        cases hverdict with
        | tooLong hpast hsize =>
          rw [hinput, hfinal, yields_of_deliver hdue, hsum] at hsize
          exact ⟨.over (Nat.lt_of_lt_of_le hpast hsize) hpast hsize, nofun⟩
        | invalid hnone =>
          rw [hinput, hfinal, hdue] at hnone
          cases hnone

/-- **Limits only refuse.** Calls that went through under some limits are made again under
others, on another decoder of the agreement. They answer the same bytes, call for call,
as long as the message in progress fits the limit of the call; the first it does not fit
is `MessageTooLong` with that limit, and the rest are `Poisoned`. If all fit, the two
decoders are left in the same state. -/
theorem limits_only_refuse (M : ByteMachine S) (D : Decompress (Pending S))
    (peerMaxWindowBits : ℕ) (peerNoContextTakeover : Bool)
    (hG : Greedy M D (InflaterConfig.forPeerWindow peerMaxWindowBits).windowBits) {log : Log}
    (hl : ∀ entry ∈ log, entry.1.limit.bytes < usizeMax) {decoder : Decoder (Pending S)}
    (hrun : run D (Decoder.forPeer D peerMaxWindowBits peerNoContextTakeover) (log.map (·.1)) =
      some (log.map fun entry => .ok entry.2, decoder))
    {calls : List Call} (hsame : List.Forall₂ SameBytes log calls) :
    ∃ results last,
      run D (Decoder.forPeer D peerMaxWindowBits peerNoContextTakeover) calls =
        some (results, last) ∧
      Relimited [] log calls results ∧
      (results = (log.map fun entry => .ok entry.2) → last = decoder) := by
  have hc : (Decoder.forPeer D peerMaxWindowBits peerNoContextTakeover).config =
      ⟨false, (InflaterConfig.forPeerWindow peerMaxWindowBits).windowBits⟩ := rfl
  have hempty : messageBytes [] = 0 := rfl
  obtain ⟨before, mid, standing, hbefore, hverdicts, hmid⟩ :=
    run_verdicts hG hc rfl (log.map (·.1)) 0 M.live_fresh
  obtain ⟨results, last, standing', hagain, hverdicts', hlast⟩ :=
    run_verdicts hG hc rfl calls 0 M.live_fresh
  rw [← forPeer_placed peerNoContextTakeover hG] at hbefore hagain
  obtain ⟨rfl, rfl⟩ := Prod.mk.inj (Option.some.inj (hbefore.symm.trans hrun))
  rw [← hempty] at hverdicts hverdicts'
  obtain ⟨hrelimited, hsame⟩ := Verdicts.relimited hsame hl hverdicts hverdicts'
  refine ⟨results, last, hagain, hrelimited, fun hall => ?_⟩
  obtain rfl := hsame hall
  cases standing' with
  | none => exact absurd rfl hverdicts.placed
  | some standing => rw [hlast.2, hmid.2]

/-- Two bytes that went through under a ceiling of two. -/
def passedTwo : Log :=
  [(⟨[0x00, 0x02, 0x00, 0xfd, 0xff, 0x61, 0x62], false, ⟨2, by decide⟩⟩, [0x61, 0x62])]

/-- They are asked for again under a ceiling that the second of them is past. -/
theorem limits_only_refuse_lowered :
    ∃ results last,
      run (greedyInflater (Deflate.machine (2 ^ 15)))
        (Decoder.forPeer (greedyInflater (Deflate.machine (2 ^ 15))) 15 false)
        [⟨[0x00, 0x02, 0x00, 0xfd, 0xff, 0x61, 0x62], false, ⟨1, by decide⟩⟩] =
          some (results, last) ∧
      Relimited [] passedTwo
        [⟨[0x00, 0x02, 0x00, 0xfd, 0xff, 0x61, 0x62], false, ⟨1, by decide⟩⟩] results := by
  obtain ⟨q, hdue⟩ : ∃ q, deliver (Deflate.machine (2 ^ 15)) false (Deflate.machine (2 ^ 15)).fresh
      [0x00, 0x02, 0x00, 0xfd, 0xff, 0x61, 0x62] false = some ([0x61, 0x62], q) := ⟨_, rfl⟩
  have hrun := two_bytes_delivered hdue
  have hfit : ∀ entry ∈ passedTwo, entry.1.limit.bytes < usizeMax := by decide
  have hpassed : run (greedyInflater (Deflate.machine (2 ^ 15)))
      (Decoder.forPeer (greedyInflater (Deflate.machine (2 ^ 15))) 15 false)
      (passedTwo.map (·.1)) = some (passedTwo.map fun entry => .ok entry.2, _) := hrun
  have hsame : List.Forall₂ SameBytes passedTwo
      [⟨[0x00, 0x02, 0x00, 0xfd, 0xff, 0x61, 0x62], false, ⟨1, by decide⟩⟩] :=
    .cons ⟨rfl, rfl⟩ .nil
  obtain ⟨results, last, hagain, hrelimited, -⟩ :=
    limits_only_refuse _ _ 15 false (greedyInflater_greedy _ _) hfit hpassed hsame
  exact ⟨results, last, hagain, hrelimited⟩

end Runs

end WsPmd.Decoding
