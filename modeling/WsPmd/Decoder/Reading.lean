import WsPmd.Decoder.Greedy

/-!
# What the decoder computes over a machine

Over a greedy backend the loops of `inflate` disappear: a call answers what the
machine reads from where the decoder stands, as long as that fits the limit, and
fails otherwise. The invariant of the loop is the outlook of the inflater, that
is what it owes together with what it would still read.
-/

namespace WsPmd.Decoding

open Grammar (Bytes)
open Library
open Library.ByteMachine (Position Pending Reading)

variable {S : Type}

/-- The decoder moved to a position, with a count of what was delivered. -/
def place (decoder : Decoder (Pending S)) (p : Position S) (delivered : ℕ) :
    Decoder (Pending S) :=
  { decoder with inflater := p.settled, streamOpen := p.begun, delivered }

@[simp] theorem place_reset (decoder : Decoder (Pending S)) (p : Position S) (n : ℕ) :
    (place decoder p n).resetBetweenMessages = decoder.resetBetweenMessages := rfl

@[simp] theorem place_poisoned (decoder : Decoder (Pending S)) (p : Position S) (n : ℕ) :
    (place decoder p n).poisoned = decoder.poisoned := rfl

theorem saturatingAdd_mono (a : ℕ) {b c : ℕ} (h : b ≤ c) :
    saturatingAdd a b ≤ saturatingAdd a c := by
  unfold saturatingAdd
  omega

section Greedy

variable {M : ByteMachine S} {D : Decompress (Pending S)} {windowBits : ℕ}
  {b : Bounds (Pending S)}

/-- An inflater whose stream is over still owes some of it. -/
def Sound (M : ByteMachine S) (x : Pending S) : Prop := M.phase x.state = .ended → x.owed ≠ []

theorem sound_settled {p : Position S} (h : M.Live p) : Sound M p.settled := by
  intro hended
  rw [show M.phase p.settled.state = .live from h] at hended
  cases hended

/-- A step either meets the fault in the input, or moves the machine as far as
the room allows. It never stalls. -/
theorem step_greedy (hG : Greedy M D windowBits) {x : Pending S} (hs : Sound M x) (input : Bytes)
    {room : ℕ} (hroom : 0 < room) :
    (∃ x' scratch, step D x input room = (x', scratch, .error .invalidStream) ∧
      ∀ begun, (M.outlook x begun input).position = none) ∨
    ∃ status taken rest output s',
      Moves M x input room (D.decompress x input room) status taken rest output s' ∧
      (taken = [] ∧ x.owed ++ output = [] → input = []) ∧
      step D x input room = ((D.decompress x input room).state,
        (D.decompress x input room).scratch,
        .ok ⟨min room (x.owed ++ output).length,
          if taken = [] ∧ x.owed ++ output = [] then none else some rest,
          decide (status = .streamEnd)⟩) := by
  cases hstatus : (D.decompress x input room).status with
  | none =>
    obtain ⟨taken, rest, output, s', rfl, hcons, hinvalid⟩ := hG.failed x input room hstatus
    refine Or.inl ⟨_, _, by simp only [step, hstatus]; rfl, fun begun => ?_⟩
    rw [M.outlook_consumes hcons]
    simp only [ByteMachine.outlook, hinvalid]
  | some status =>
    obtain ⟨taken, rest, output, s', hm⟩ := hG.moved x input room status hstatus
    have hconsumed : advance (D.totalIn x) (D.totalIn (D.decompress x input room).state)
        input.length = taken.length := by
      have hle : taken.length ≤ input.length := by
        rw [hm.input_eq, List.length_append]
        omega
      rw [hG.totalIn, hG.totalIn, hm.state]
      unfold advance
      simp only
      omega
    have hproduced : advance (D.totalOut x) (D.totalOut (D.decompress x input room).state) room =
        min room (x.owed ++ output).length := by
      rw [hG.totalOut, hG.totalOut, hm.state]
      unfold advance
      simp only
      omega
    have hrest : input.drop taken.length = rest := by
      rw [hm.input_eq, List.drop_left]
    have hidle : taken = [] ∧ x.owed ++ output = [] → input = [] := by
      rintro ⟨htaken, hdue⟩
      have hzero : ¬ room ≤ (x.owed ++ output).length := by
        rw [hdue, List.length_nil]
        omega
      by_contra hinput
      have hne : rest ≠ [] := by
        rw [hm.input_eq, htaken, List.nil_append] at hinput
        exact hinput
      have hcons := hm.consumes
      rw [htaken] at hcons
      have hlive := (hm.stopped hne).resolve_right hzero
      cases hcons
      cases hphase : M.phase x.state with
      | live => exact hlive hphase
      | ended => exact hs hphase (List.append_eq_nil_iff.mp hdue).1
      | invalid => exact hzero (hm.valid hphase)
    refine Or.inr ⟨status, taken, rest, output, s', hm, hidle, ?_⟩
    simp only [step, sliceFrom_eq, hstatus, hconsumed, hproduced, hrest]
    by_cases hstill : taken = [] ∧ x.owed ++ output = []
    · obtain ⟨htaken, hdue⟩ := hstill
      have hempty : rest = [] := by
        have := hidle ⟨htaken, hdue⟩
        rw [hm.input_eq] at this
        exact (List.append_eq_nil_iff.mp this).2
      simp [htaken, hdue, hempty]
    · have hmoved : taken.length ≠ 0 ∨ min room (x.owed ++ output).length ≠ 0 := by
        by_contra hno
        apply hstill
        rw [not_or, not_not, not_not] at hno
        exact ⟨List.length_eq_zero_iff.mp hno.1, List.length_eq_zero_iff.mp (by omega)⟩
      rw [if_pos hmoved, if_neg hstill]

theorem reinitialise_eq (hG : Greedy M D windowBits) {decoder : Decoder (Pending S)}
    (hc : decoder.config = ⟨false, windowBits⟩) :
    decoder.reinitialise D = { decoder with inflater := M.pendingFresh, streamOpen := false } := by
  have hr : decoder.config.reinitialise D decoder.inflater = M.pendingFresh := by
    rw [hc, InflaterConfig.reinitialise, InflaterConfig.resetsInPlace]
    by_cases hw : windowBits = defaultInflaterWindowBits
    · simp only [hw, decide_true, if_true]
      exact hG.reset hw _
    · simp only [hw, decide_false, Bool.false_eq_true, if_false]
      exact hG.build
  rw [Decoder.reinitialise, hr]

/-- The outlook of a turn: what the inflater still has to say about what is left. -/
def Inflate.outlook (M : ByteMachine S) (s : Inflate (Pending S)) : Reading S :=
  M.outlook s.decoder.inflater s.decoder.streamOpen s.input

/-- A turn that goes round again takes what it produced off the outlook. -/
structure Onward (M : ByteMachine S) (s s' : Inflate (Pending S)) : Prop where
  kept : Kept s.decoder s'.decoder
  sound : Sound M s'.decoder.inflater
  total : s.output ++ (Inflate.outlook M s).output = s'.output ++ (Inflate.outlook M s').output
  ended : (s.endedAStream || (Inflate.outlook M s).ended) =
    (s'.endedAStream || (Inflate.outlook M s').ended)
  position : (Inflate.outlook M s).position = (Inflate.outlook M s').position
  less : s'.input.length + (Inflate.outlook M s').output.length <
    s.input.length + (Inflate.outlook M s).output.length

/-- A turn that leaves has either nothing more to say, or a reason to fail. -/
def Leaves (M : ByteMachine S) (b : Bounds (Pending S)) (s : Inflate (Pending S))
    (r : Outcome (Pending S) Bool) : Prop :=
  (∃ p, (Inflate.outlook M s).position = some p ∧ (Inflate.outlook M s).output = [] ∧
    b.refuses (saturatingAdd s.decoder.delivered s.output.length) = none ∧
    r = ⟨.ok (s.endedAStream || (Inflate.outlook M s).ended),
      place s.decoder p s.decoder.delivered, s.output⟩) ∨
  (((Inflate.outlook M s).position = none ∨ b.refuses
      (saturatingAdd s.decoder.delivered (s.output ++ (Inflate.outlook M s).output).length) ≠
        none) ∧
    ∃ e, r.result = .error e)

/-- The decoder behind a step that moved. -/
def stepped (M : ByteMachine S) (decoder : Decoder (Pending S)) (x : Pending S)
    (streamEnded consumed : Bool) : Decoder (Pending S) :=
  if streamEnded then { decoder with inflater := M.pendingFresh, streamOpen := false }
  else { decoder with inflater := x, streamOpen := decoder.streamOpen || consumed }

theorem stepped_kept (decoder : Decoder (Pending S)) (x : Pending S) (streamEnded consumed : Bool) :
    Kept decoder (stepped M decoder x streamEnded consumed) := by
  unfold stepped
  split <;> exact ⟨rfl, rfl, rfl, rfl⟩

/-- One turn over a step that answered, with the reinitialisation and the open
flag folded into `stepped`. -/
theorem turn_eq (hG : Greedy M D windowBits) (b : Bounds (Pending S)) (s : Inflate (Pending S))
    (hc : s.decoder.config = ⟨false, windowBits⟩) {x : Pending S} {scratch rest taken : Bytes}
    {produced : ℕ} {idle : Prop} [Decidable idle] {streamEnded : Bool}
    (hin : s.input = taken ++ rest)
    (hstep : step D s.decoder.inflater s.input (b.room s) =
      (x, scratch, .ok ⟨produced, if idle then none else some rest, streamEnded⟩))
    (hidle : idle → taken = []) :
    inflateTurnWithin D b s =
      match b.refuses
          (saturatingAdd s.decoder.delivered (s.output ++ scratch.take produced).length) with
      | some e =>
        .inl ⟨.error e, { s.decoder with inflater := x }, s.output ++ scratch.take produced⟩
      | none =>
        if idle then
          .inl ⟨.ok (s.endedAStream || streamEnded),
            stepped M s.decoder x streamEnded (!taken.isEmpty), s.output ++ scratch.take produced⟩
        else
          .inr ⟨stepped M s.decoder x streamEnded (!taken.isEmpty), rest,
            s.output ++ scratch.take produced, s.endedAStream || streamEnded⟩ := by
  have hreinit : ({ s.decoder with inflater := x } : Decoder (Pending S)).reinitialise D =
      { s.decoder with inflater := M.pendingFresh, streamOpen := false } :=
    reinitialise_eq hG hc
  have hshorter : (rest.length < s.input.length) ↔ taken ≠ [] := by
    rw [hin, List.length_append, ← List.length_pos_iff]
    omega
  simp only [inflateTurnWithin, hstep, hreinit]
  cases b.refuses
      (saturatingAdd s.decoder.delivered (s.output ++ scratch.take produced).length) with
  | some e => rfl
  | none =>
    by_cases hi : idle
    · simp only [hidle hi, hi, if_true, stepped, Option.any_none, Bool.false_eq_true, if_false,
        List.isEmpty_nil, Bool.not_true, Bool.or_false]
    · simp only [hi, if_false, stepped, Option.any_some, hshorter]
      cases taken with
      | nil => simp
      | cons b bs => simp

/-- The outlook behind a step, read off the decoder it leaves. -/
theorem outlook_stepped {s : Inflate (Pending S)} {room : ℕ}
    {call : Decompressed (Pending S) room} {status : Status} {taken rest output : Bytes} {s' : S}
    (hm : Moves M s.decoder.inflater s.input room call status taken rest output s') :
    let next := stepped M s.decoder call.state (decide (status = .streamEnd)) (!taken.isEmpty)
    Sound M next.inflater ∧
      (Inflate.outlook M s).output = (s.decoder.inflater.owed ++ output).take room ++
        (M.outlook next.inflater next.streamOpen rest).output ∧
      (Inflate.outlook M s).ended = (decide (status = .streamEnd) ||
        (M.outlook next.inflater next.streamOpen rest).ended) ∧
      (Inflate.outlook M s).position = (M.outlook next.inflater next.streamOpen rest).position := by
  have hlook : Inflate.outlook M s =
      ⟨(s.decoder.inflater.owed ++ output).take room ++
          (M.outlook call.state (s.decoder.streamOpen || !taken.isEmpty) rest).output,
        (M.outlook call.state (s.decoder.streamOpen || !taken.isEmpty) rest).ended,
        (M.outlook call.state (s.decoder.streamOpen || !taken.isEmpty) rest).position⟩ := by
    rw [hm.state, Inflate.outlook]
    conv_lhs => rw [hm.input_eq]
    rw [M.outlook_consumes hm.consumes rest]
    exact M.outlook_deliver _ _ rest room
  rw [hlook]
  by_cases hend : status = .streamEnd
  · obtain ⟨hphase, hfit⟩ := hm.ended.mp hend
    have hfresh : M.outlook M.pendingFresh false rest = M.read M.fresh rest :=
      M.outlook_settled M.live_fresh rest
    have hover : M.outlook call.state (s.decoder.streamOpen || !taken.isEmpty) rest =
        ⟨(M.read M.fresh rest).output, true, (M.read M.fresh rest).position⟩ := by
      simp only [hm.state, ByteMachine.outlook, hphase, List.drop_of_length_le hfit,
        List.nil_append]
    simp only [stepped, hend, decide_true, if_true, hfresh, hover, Bool.true_or]
    exact ⟨sound_settled M.live_fresh, trivial, trivial, trivial⟩
  · simp only [stepped, hend, decide_false, Bool.false_eq_true, if_false, Bool.false_or]
    refine ⟨fun hphase hnil => hend (hm.ended.mpr ⟨?_, ?_⟩), trivial, trivial, trivial⟩
    · rw [hm.state] at hphase
      exact hphase
    · rw [hm.state] at hnil
      exact List.drop_eq_nil_iff.mp hnil

/-- A step with nothing to take and nothing to hand over leaves the machine live,
where it was. -/
theorem outlook_idle {s : Inflate (Pending S)} (hs : Sound M s.decoder.inflater) {room : ℕ}
    (hroom : 0 < room) {call : Decompressed (Pending S) room} {status : Status}
    {rest output : Bytes} {s' : S}
    (hm : Moves M s.decoder.inflater s.input room call status [] rest output s')
    (hdue : s.decoder.inflater.owed ++ output = []) (hinput : s.input = []) :
    ∃ p, (Inflate.outlook M s).position = some p ∧ (Inflate.outlook M s).output = [] ∧
      (Inflate.outlook M s).ended = false ∧ status ≠ .streamEnd ∧
      stepped M s.decoder call.state (decide (status = .streamEnd)) false =
        place s.decoder p s.decoder.delivered := by
  obtain ⟨howed, houtput⟩ := List.append_eq_nil_iff.mp hdue
  have hs' : s' = s.decoder.inflater.state := by
    have hcons := hm.consumes
    cases hcons
    rfl
  have hlive : M.phase s.decoder.inflater.state = .live := by
    cases hphase : M.phase s.decoder.inflater.state with
    | live => rfl
    | ended => exact absurd howed (hs hphase)
    | invalid =>
      have hfull := hm.valid (by rw [hs', hphase])
      rw [hdue, List.length_nil] at hfull
      omega
  have hgoes : status ≠ .streamEnd := by
    intro hend
    obtain ⟨hphase, -⟩ := hm.ended.mp hend
    rw [hs', hlive] at hphase
    cases hphase
  refine ⟨⟨s.decoder.inflater.state, s.decoder.streamOpen, s.decoder.inflater.totalIn,
    s.decoder.inflater.totalOut⟩, ?_, ?_, ?_, hgoes, ?_⟩
  · simp only [Inflate.outlook, ByteMachine.outlook, hlive, hinput, ByteMachine.read_nil, howed,
      List.length_nil, Nat.add_zero]
  · simp only [Inflate.outlook, ByteMachine.outlook, hlive, hinput, ByteMachine.read_nil, howed,
      List.append_nil]
  · simp only [Inflate.outlook, ByteMachine.outlook, hlive, hinput, ByteMachine.read_nil]
  · simp only [stepped, hgoes, decide_false, Bool.false_eq_true, if_false, Bool.or_false, hm.state,
      hs', hdue, List.drop_nil, List.length_nil, Nat.min_zero, Nat.add_zero, place,
      Position.settled]

theorem turn_reads (hG : Greedy M D windowBits) (b : Bounds (Pending S))
    (s : Inflate (Pending S)) (hc : s.decoder.config = ⟨false, windowBits⟩)
    (hs : Sound M s.decoder.inflater) :
    (∃ s', inflateTurnWithin D b s = .inr s' ∧ Onward M s s') ∨
      ∃ r, inflateTurnWithin D b s = .inl r ∧ Leaves M b s r := by
  rcases step_greedy hG hs s.input (b.room_pos s) with ⟨x', scratch, hstep, hnone⟩ |
    ⟨status, taken, rest, output, s', hm, hidle, hstep⟩
  · exact Or.inr ⟨_, by simp only [inflateTurnWithin, hstep]; rfl,
      Or.inr ⟨Or.inl (hnone _), _, rfl⟩⟩
  · have hturn := turn_eq hG b s hc hm.input_eq hstep And.left
    obtain ⟨hsound, hout, hended, hposition⟩ := outlook_stepped hm
    rw [hm.scratch] at hturn
    have hroom := b.room_pos s
    generalize hnext : stepped M s.decoder _ (decide (status = .streamEnd)) (!taken.isEmpty) = next
      at *
    have hkept : Kept s.decoder next := hnext ▸ stepped_kept _ _ _ _
    rw [hturn]
    cases hsize : b.refuses (saturatingAdd s.decoder.delivered
        (s.output ++ (s.decoder.inflater.owed ++ output).take (b.room s)).length) with
    | some e =>
      refine Or.inr ⟨_, rfl, Or.inr ⟨Or.inr fun hfit => ?_, _, rfl⟩⟩
      rw [b.refuses_mono ?_ hfit] at hsize
      · cases hsize
      · apply saturatingAdd_mono
        rw [hout]
        simp only [List.length_append]
        omega
    | none =>
      simp only
      by_cases hstill : taken = [] ∧ s.decoder.inflater.owed ++ output = []
      · rw [if_pos hstill]
        obtain ⟨rfl, hdue⟩ := hstill
        obtain ⟨p, hp, hnil, hlast, hgoes, hplace⟩ :=
          outlook_idle hs hroom hm hdue (hidle ⟨rfl, hdue⟩)
        rw [hdue, List.take_nil, List.append_nil] at hsize ⊢
        rw [List.isEmpty_nil, Bool.not_true, hplace] at hnext
        refine Or.inr ⟨_, rfl, Or.inl ⟨p, hp, hnil, hsize, ?_⟩⟩
        rw [← hnext, hlast, decide_eq_false hgoes]
      · rw [if_neg hstill]
        refine Or.inl ⟨_, rfl, hkept, hsound, ?_, ?_, hposition, ?_⟩
        · rw [hout, List.append_assoc]
          rfl
        · rw [hended, Bool.or_assoc]
          rfl
        · have hmoved : 0 < taken.length + (s.decoder.inflater.owed ++ output).length := by
            by_contra hno
            apply hstill
            exact ⟨List.length_eq_zero_iff.mp (by omega), List.length_eq_zero_iff.mp (by omega)⟩
          have hinput := congrArg List.length hm.input_eq
          have hlength := congrArg List.length hout
          rw [List.length_append, List.length_take] at hlength
          rw [List.length_append] at hinput
          change rest.length + (M.outlook next.inflater next.streamOpen rest).output.length <
            s.input.length + (Inflate.outlook M s).output.length
          omega

theorem place_kept {decoder next : Decoder (Pending S)} {q : Position S} {n : ℕ}
    (h : Kept (place decoder q n) next) (p : Position S) :
    place next p next.delivered = place decoder p n := by
  obtain ⟨hconfig, hreset, hdelivered, hpoisoned⟩ := h
  unfold place at *
  simp only at hconfig hreset hdelivered hpoisoned
  rw [hconfig, hreset, hdelivered, hpoisoned]

/-- What `inflate` is to answer, for the reading of its input. -/
structure Reads (decoder : Decoder (Pending S)) (delivered : ℕ) (b : Bounds (Pending S))
    (output : Bytes) (reading : Reading S) (r : Outcome (Pending S) Bool) : Prop where
  answers : ∀ p, reading.position = some p →
    b.refuses (saturatingAdd delivered (output ++ reading.output).length) = none →
    r = ⟨.ok reading.ended, place decoder p delivered, output ++ reading.output⟩
  fails : (reading.position = none ∨
      b.refuses (saturatingAdd delivered (output ++ reading.output).length) ≠ none) →
    ∃ e, r.result = .error e

/-- **What `inflate` computes.** It returns whatever bounds it, since over a machine
every turn moves. -/
theorem inflateWithin_reads (hG : Greedy M D windowBits) {decoder : Decoder (Pending S)}
    (hc : decoder.config = ⟨false, windowBits⟩) {p : Position S} (hp : M.Live p) (delivered : ℕ)
    (input output : Bytes) (b : Bounds (Pending S)) :
    ∃ r, inflateWithin D b (place decoder p delivered) input output = some r ∧
      Reads decoder delivered b output (M.read p input) r := by
  have hstart : Inflate.outlook M ⟨place decoder p delivered, input, output, false⟩ =
      M.read p input := M.outlook_settled hp input
  apply Loop.run_total (fun s => Kept (place decoder p delivered) s.decoder ∧
      Sound M s.decoder.inflater ∧
      output ++ (M.read p input).output = s.output ++ (Inflate.outlook M s).output ∧
      (M.read p input).ended = (s.endedAStream || (Inflate.outlook M s).ended) ∧
      (M.read p input).position = (Inflate.outlook M s).position)
    (Reads decoder delivered b output (M.read p input))
    (fun s => s.input.length + (Inflate.outlook M s).output.length)
  · intro s r ⟨hkept, hs, hout, hended, hposition⟩ hturn
    have hconfig : s.decoder.config = ⟨false, windowBits⟩ := hkept.config.trans hc
    have hdelivered : s.decoder.delivered = delivered := hkept.delivered
    rcases turn_reads hG b s hconfig hs with ⟨s', hagain, -⟩ | ⟨r', hleave, hleaves⟩
    · rw [hagain] at hturn
      cases hturn
    · obtain rfl : r' = r := by
        rw [hleave] at hturn
        exact Sum.inl.inj hturn
      unfold Leaves at hleaves
      rw [← hout, ← hposition, hdelivered] at hleaves
      rcases hleaves with ⟨q, hq, hnil, hfit, rfl⟩ | ⟨hbad, e, he⟩
      · rw [hnil, List.append_nil] at hout
        rw [← hout] at hfit ⊢
        refine ⟨fun q' hq' _ => ?_, fun hbad => ?_⟩
        · obtain rfl : q = q' := Option.some.inj (hq.symm.trans hq')
          rw [← hended, ← hdelivered, place_kept hkept, hdelivered]
        · rcases hbad with hnone | hlarge
          · rw [hq] at hnone
            cases hnone
          · exact absurd hfit hlarge
      · refine ⟨fun q hq hfit => ?_, fun _ => ⟨e, he⟩⟩
        rcases hbad with hnone | hlarge
        · rw [hq] at hnone
          cases hnone
        · exact absurd hfit hlarge
  · intro s s' ⟨hkept, hs, hout, hended, hposition⟩ hturn
    have hconfig : s.decoder.config = ⟨false, windowBits⟩ := hkept.config.trans hc
    rcases turn_reads hG b s hconfig hs with ⟨s1, hagain, honward⟩ | ⟨r', hleave, -⟩
    · obtain rfl : s1 = s' := by
        rw [hagain] at hturn
        exact Sum.inr.inj hturn
      exact ⟨⟨hkept.trans honward.kept, honward.sound, hout.trans honward.total,
        hended.trans honward.ended, hposition.trans honward.position⟩, honward.less⟩
    · rw [hleave] at hturn
      cases hturn
  · exact ⟨Kept.refl _, sound_settled hp, by rw [hstart], by rw [hstart]; rfl, by rw [hstart]⟩

/-- The crate's own loop, in the words of its limit. -/
theorem inflate_reads (hG : Greedy M D windowBits) {decoder : Decoder (Pending S)}
    (hc : decoder.config = ⟨false, windowBits⟩) {p : Position S} (hp : M.Live p) (delivered : ℕ)
    (input output : Bytes) (limit : DecompressedLimit) :
    ∃ r, (place decoder p delivered).inflate D input limit output = some r ∧
      Reads decoder delivered (sourceBounds limit) output (M.read p input) r := by
  rw [inflate_eq_within]
  exact inflateWithin_reads hG hc hp delivered input output (sourceBounds limit)

end Greedy

/-! ## One call -/

/-- What a call delivers, and where it leaves the machine: the reading of its input,
and at the end of a message the reading of the trailer behind it. -/
def deliver (M : ByteMachine S) (reset : Bool) (p : Position S) (input : Bytes)
    (finalFragment : Bool) : Option (Bytes × Position S) :=
  let fed := M.read p input
  match fed.position with
  | none => none
  | some p =>
    if finalFragment then
      let closed := M.read p trailer
      match closed.position with
      | none => none
      | some q =>
        if p.begun ∧ closed.ended = false then
          some (fed.output ++ closed.output, if reset then M.fresh else q)
        else none
    else some (fed.output, p)

theorem deliver_live {M : ByteMachine S} {reset finalFragment : Bool} {p q : Position S}
    {input out : Bytes} (hp : M.Live p)
    (h : deliver M reset p input finalFragment = some (out, q)) : M.Live q := by
  unfold deliver at h
  simp only at h
  split at h
  · cases h
  · next p1 hp1 =>
    have hlive := ByteMachine.Live.read M hp hp1
    split at h
    · split at h
      · cases h
      · next q' hq' =>
        split at h
        · obtain ⟨-, rfl⟩ := Prod.mk.inj (Option.some.inj h)
          split
          · exact M.live_fresh
          · exact ByteMachine.Live.read M hlive hq'
        · cases h
    · obtain ⟨-, rfl⟩ := Prod.mk.inj (Option.some.inj h)
      exact hlive

/-- The two readings behind a final call. -/
theorem deliver_final {M : ByteMachine S} {reset : Bool} {p q : Position S} {input out : Bytes}
    (h : deliver M reset p input true = some (out, q)) :
    ∃ p1 q1, (M.read p input).position = some p1 ∧ p1.begun = true ∧
      (M.read p1 trailer).position = some q1 ∧ (M.read p1 trailer).ended = false ∧
      out = (M.read p input).output ++ (M.read p1 trailer).output := by
  unfold deliver at h
  simp only [if_true] at h
  split at h
  · cases h
  · next p1 hp1 =>
    split at h
    · cases h
    · next q1 hq1 =>
      split at h
      · next hgood =>
        obtain ⟨hout, -⟩ := Prod.mk.inj (Option.some.inj h)
        exact ⟨p1, q1, hp1, hgood.1, hq1, hgood.2, hout.symm⟩
      · cases h

/-- The second reading starts where the first left the machine. -/
theorem deliver_behind {M : ByteMachine S} {reset : Bool} {p p1 q : Position S}
    {input out : Bytes} (hp1 : (M.read p input).position = some p1)
    (h : deliver M reset p input true = some (out, q)) :
    p1.begun = true ∧ (M.read p1 trailer).position ≠ none ∧ (M.read p1 trailer).ended = false ∧
      out = (M.read p input).output ++ (M.read p1 trailer).output := by
  obtain ⟨p1', q1, hp1', hbegun, hq1, hended, hout⟩ := deliver_final h
  obtain rfl : p1 = p1' := Option.some.inj (hp1.symm.trans hp1')
  refine ⟨hbegun, ?_, hended, hout⟩
  rw [hq1]
  exact Option.some_ne_none q1

/-- A delivery begins with what its input reads to. -/
theorem deliver_fed {M : ByteMachine S} {reset finalFragment : Bool} {p q : Position S}
    {input out : Bytes} (h : deliver M reset p input finalFragment = some (out, q)) :
    ∃ p1, (M.read p input).position = some p1 ∧
      (M.read p input).output.length ≤ out.length := by
  cases finalFragment with
  | false =>
    simp only [deliver, Bool.false_eq_true, if_false] at h
    split at h
    · cases h
    · next p1 hp1 =>
      obtain ⟨rfl, -⟩ := Prod.mk.inj (Option.some.inj h)
      exact ⟨p1, hp1, Nat.le_refl _⟩
  | true =>
    obtain ⟨p1, q1, hp1, -, -, -, rfl⟩ := deliver_final h
    refine ⟨p1, hp1, ?_⟩
    rw [List.length_append]
    omega

section Calls

variable {M : ByteMachine S} {D : Decompress (Pending S)} {windowBits : ℕ}
  {b : Bounds (Pending S)}

/-- What `decode` is to answer, for what the call delivers. -/
structure Delivers (decoder : Decoder (Pending S)) (delivered : ℕ) (b : Bounds (Pending S))
    (due : Option (Bytes × Position S)) (r : Outcome (Pending S) Unit) : Prop where
  answers : ∀ out q, due = some (out, q) → b.refuses (saturatingAdd delivered out.length) = none →
    r = ⟨.ok (), place decoder q delivered, out⟩
  fails : (∀ out q, due = some (out, q) → b.refuses (saturatingAdd delivered out.length) ≠ none) →
    ∃ e, r.result = .error e

theorem Delivers.refused {decoder : Decoder (Pending S)} {delivered : ℕ}
    {due : Option (Bytes × Position S)} {r : Outcome (Pending S) Unit} {e : CodecError}
    (h : ∀ out q, due = some (out, q) → b.refuses (saturatingAdd delivered out.length) ≠ none)
    (he : r.result = .error e) : Delivers decoder delivered b due r :=
  ⟨fun out q hdue hfit => absurd hfit (h out q hdue), fun _ => ⟨e, he⟩⟩

theorem Delivers.answered {decoder : Decoder (Pending S)} {delivered : ℕ} {out : Bytes}
    {q : Position S} (hfit : b.refuses (saturatingAdd delivered out.length) = none) :
    Delivers decoder delivered b (some (out, q)) ⟨.ok (), place decoder q delivered, out⟩ := by
  refine ⟨fun out' q' hdue _ => ?_, fun h => absurd hfit (h out q rfl)⟩
  obtain ⟨rfl, rfl⟩ := Prod.mk.inj (Option.some.inj hdue)
  rfl

theorem decodeWithin_reads (hG : Greedy M D windowBits) {decoder : Decoder (Pending S)}
    (hc : decoder.config = ⟨false, windowBits⟩) {p : Position S} (hp : M.Live p) (delivered : ℕ)
    (input : Bytes) (finalFragment : Bool) (b : Bounds (Pending S)) :
    ∃ r, decodeWithin D b (place decoder p delivered) input finalFragment [] = some r ∧
      Delivers decoder delivered b
        (deliver M decoder.resetBetweenMessages p input finalFragment) r := by
  obtain ⟨fed, hfed, hreads⟩ := inflateWithin_reads hG hc hp delivered input [] b
  simp only [decodeWithin, hfed, Option.bind_eq_bind, Option.bind_some]
  by_cases hbad : (M.read p input).position = none ∨
      b.refuses (saturatingAdd delivered (M.read p input).output.length) ≠ none
  · -- The fragment itself is invalid or too long, and so is the whole call.
    obtain ⟨e, he⟩ := hreads.fails (by rwa [List.nil_append])
    simp only [he]
    refine ⟨_, rfl, .refused (fun out q hdue => ?_) rfl⟩
    obtain ⟨p1, hp1, hle⟩ := deliver_fed hdue
    rcases hbad with hnone | hlarge
    · rw [hp1] at hnone
      cases hnone
    · exact fun hfit => hlarge (b.refuses_mono (saturatingAdd_mono _ hle) hfit)
  · obtain ⟨hsome, hfit⟩ := not_or.mp hbad
    rw [not_not] at hfit
    obtain ⟨p1, hp1⟩ := Option.ne_none_iff_exists'.mp hsome
    have hlive := ByteMachine.Live.read M hp hp1
    obtain rfl := hreads.answers p1 hp1 (by rwa [List.nil_append])
    simp only [List.nil_append]
    cases finalFragment with
    | false =>
      simp only [deliver, hp1, Bool.false_eq_true, if_false]
      exact ⟨_, rfl, .answered hfit⟩
    | true =>
      simp only [if_true]
      by_cases hbegun : p1.begun
      · obtain ⟨closed, hclosed, hends⟩ :=
          inflateWithin_reads hG hc hlive delivered trailer (M.read p input).output b
        have hopen : (place decoder p1 delivered).streamOpen = true := hbegun
        simp only [hopen, hclosed, Option.bind_some, Bool.not_true, Bool.false_eq_true, if_false]
        by_cases hbad' : (M.read p1 trailer).position = none ∨
            b.refuses (saturatingAdd delivered
              ((M.read p input).output ++ (M.read p1 trailer).output).length) ≠ none
        · obtain ⟨e, he⟩ := hends.fails hbad'
          simp only [he]
          refine ⟨_, rfl, .refused (fun out q hdue => ?_) rfl⟩
          obtain ⟨-, hq, -, rfl⟩ := deliver_behind hp1 hdue
          exact hbad'.resolve_left hq
        · obtain ⟨hsome', hfit'⟩ := not_or.mp hbad'
          rw [not_not] at hfit'
          obtain ⟨q, hq⟩ := Option.ne_none_iff_exists'.mp hsome'
          obtain rfl := hends.answers q hq hfit'
          cases hended : (M.read p1 trailer).ended with
          | true =>
            refine ⟨_, rfl, .refused (fun out q' hdue => ?_) rfl⟩
            obtain ⟨-, -, hgoes, -⟩ := deliver_behind hp1 hdue
            rw [hended] at hgoes
            cases hgoes
          | false =>
            simp only [deliver, hp1, hq, hbegun, hended, and_self, if_true, place_reset]
            by_cases hreset : decoder.resetBetweenMessages
            · have hover : (place decoder q delivered).reinitialise D =
                  place decoder M.fresh delivered := reinitialise_eq hG hc
              simp only [hreset, if_true, hover]
              exact ⟨_, rfl, .answered hfit'⟩
            · simp only [hreset, Bool.false_eq_true, if_false]
              exact ⟨_, rfl, .answered hfit'⟩
      · have hshut : (place decoder p1 delivered).streamOpen = false := Bool.not_eq_true _ ▸ hbegun
        simp only [hshut, Bool.not_false, if_true]
        refine ⟨_, rfl, .refused (fun out q hdue => ?_) rfl⟩
        exact absurd (deliver_behind hp1 hdue).1 hbegun

section Call

variable (hG : Greedy M D windowBits) {decoder : Decoder (Pending S)}
  (hc : decoder.config = ⟨false, windowBits⟩) (hlive : decoder.poisoned = false)
  {p : Position S} (hp : M.Live p)
include hG hc hlive hp

/-- **A call that goes through.** -/
theorem decompressWithin_delivers {q : Position S} {delivered : ℕ} {input out : Bytes}
    {finalFragment : Bool}
    (hdue : deliver M decoder.resetBetweenMessages p input finalFragment = some (out, q))
    (hfit : b.refuses (saturatingAdd delivered out.length) = none) :
    decompressWithin D b (place decoder p delivered) input finalFragment = some (.ok out,
      place decoder q (if finalFragment then 0 else saturatingAdd delivered out.length)) := by
  obtain ⟨r, hr, hdelivers⟩ := decodeWithin_reads hG hc hp delivered input finalFragment b
  obtain rfl := hdelivers.answers out q hdue hfit
  rw [decompressWithin, if_neg (by rw [place_poisoned, hlive]; exact Bool.false_ne_true), hr]
  rfl

/-- **A call that does not.** -/
theorem decompressWithin_refuses {delivered : ℕ} {input : Bytes} {finalFragment : Bool}
    (hdue : ∀ out q, deliver M decoder.resetBetweenMessages p input finalFragment = some (out, q) →
      b.refuses (saturatingAdd delivered out.length) ≠ none) :
    ∃ e next, decompressWithin D b (place decoder p delivered) input finalFragment =
      some (.error e, next) ∧ next.poisoned = true := by
  obtain ⟨r, hr, hdelivers⟩ := decodeWithin_reads hG hc hp delivered input finalFragment b
  obtain ⟨e, he⟩ := hdelivers.fails hdue
  refine ⟨e, { r.decoder with poisoned := true }, ?_, rfl⟩
  simp only [decompressWithin, place_poisoned, hlive, Bool.false_eq_true, if_false, hr,
    Option.bind_eq_bind, Option.bind_some, he]

/-- **What one call computes.** -/
theorem decompressWithin_ok_iff {delivered : ℕ} {input out : Bytes} {finalFragment : Bool}
    {next : Decoder (Pending S)} :
    decompressWithin D b (place decoder p delivered) input finalFragment = some (.ok out, next) ↔
      ∃ q, deliver M decoder.resetBetweenMessages p input finalFragment = some (out, q) ∧
        b.refuses (saturatingAdd delivered out.length) = none ∧
        next = place decoder q
          (if finalFragment then 0 else saturatingAdd delivered out.length) := by
  constructor
  · intro h
    by_cases hdue : ∀ out q, deliver M decoder.resetBetweenMessages p input finalFragment =
        some (out, q) → b.refuses (saturatingAdd delivered out.length) ≠ none
    · obtain ⟨e, next', hrefused, -⟩ := decompressWithin_refuses hG hc hlive hp hdue
      rw [hrefused] at h
      cases h
    · push Not at hdue
      obtain ⟨out', q, hdeliver, hfit⟩ := hdue
      rw [decompressWithin_delivers hG hc hlive hp hdeliver hfit] at h
      obtain ⟨hout, hnext⟩ := Prod.mk.inj (Option.some.inj h)
      obtain rfl := Except.ok.inj hout
      exact ⟨q, hdeliver, hfit, hnext.symm⟩
  · rintro ⟨q, hdeliver, hfit, rfl⟩
    exact decompressWithin_delivers hG hc hlive hp hdeliver hfit

/-! ## The crate's own call -/

theorem decompress_delivers {q : Position S} {delivered : ℕ} {input out : Bytes}
    {finalFragment : Bool} {limit : DecompressedLimit}
    (hdue : deliver M decoder.resetBetweenMessages p input finalFragment = some (out, q))
    (hfit : saturatingAdd delivered out.length ≤ limit.bytes) :
    (place decoder p delivered).decompress D input finalFragment limit = some (.ok out,
      place decoder q (if finalFragment then 0 else saturatingAdd delivered out.length)) := by
  rw [decompress_eq_within]
  exact decompressWithin_delivers hG hc hlive hp hdue (Bounds.source_refuses.mpr hfit)

theorem decompress_refuses {delivered : ℕ} {input : Bytes} {finalFragment : Bool}
    {limit : DecompressedLimit}
    (hdue : ∀ out q, deliver M decoder.resetBetweenMessages p input finalFragment = some (out, q) →
      limit.bytes < saturatingAdd delivered out.length) :
    ∃ e next, (place decoder p delivered).decompress D input finalFragment limit =
      some (.error e, next) ∧ next.poisoned = true := by
  rw [decompress_eq_within]
  refine decompressWithin_refuses hG hc hlive hp fun out q hq hfit => ?_
  exact Nat.not_le_of_lt (hdue out q hq) (Bounds.source_refuses.mp hfit)

theorem decompress_ok_iff {delivered : ℕ} {input out : Bytes} {finalFragment : Bool}
    {limit : DecompressedLimit} {next : Decoder (Pending S)} :
    (place decoder p delivered).decompress D input finalFragment limit = some (.ok out, next) ↔
      ∃ q, deliver M decoder.resetBetweenMessages p input finalFragment = some (out, q) ∧
        saturatingAdd delivered out.length ≤ limit.bytes ∧
        next = place decoder q
          (if finalFragment then 0 else saturatingAdd delivered out.length) := by
  rw [decompress_eq_within, decompressWithin_ok_iff hG hc hlive hp]
  simp only [Bounds.source_refuses]

end Call

end Calls

end WsPmd.Decoding
