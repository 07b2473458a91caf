import WsPmd.Encoder.Progress
import WsPmd.Library.Transducer

/-!
# The rooms leave no mark on the wire

The encoder without its loops: a compressor that has room for all it emits, and so is fed a
chunk at once and flushed once. The encoder whose backend keeps back what it has no room
for says the same, whatever room each call is given and wherever the allocator put it, but
for an empty block behind a flush that came out even with its room.
-/

namespace WsPmd.Encoding

open Grammar (Bytes)
open Library

/-! ## The encoder without buffers -/

namespace Unbuffered

section Reference

variable {τ : Type} (T : Transducer UInt8 UInt8 τ)

def produce (t : τ) (payload : Bytes) : Except CodecError (τ × Bytes) :=
  (stripOrSynthesize payload (T.chunk t payload).2).map fun message =>
    ((T.chunk t payload).1, message)

def produceNonFinal (t : τ) (payload : Bytes) : Except CodecError (τ × Bytes) :=
  if trailer <:+ (T.chunk t payload).2 ∨ (payload = [] ∧ (T.chunk t payload).2 = []) then
    .ok (T.chunk t payload)
  else .error .compressionFailed

def restore (encoder : Encoder τ) (t : τ) : Encoder τ :=
  { encoder with compressor := some (if encoder.resetBetweenMessages then T.reset t else t) }

/-- A call, as the encoder without buffers answers it. -/
def step : World τ → Action → Option (Reply × World τ)
  | .idle encoder, .prepareMessage payload =>
    match encoder.compressor with
    | none => some (.refused .poisoned, .idle encoder)
    | some t =>
      match produce T t payload with
      | .ok (t, bytes) => some (.guard, .prepared ⟨encoder.vacated, t, bytes⟩)
      | .error error => some (.refused error, .idle encoder.vacated)
  | .idle encoder, .beginStreamingMessage =>
    match encoder.compressor with
    | none => some (.refused .poisoned, .idle encoder)
    | some t => some (.guard, .streaming ⟨encoder.vacated, t⟩)
  | .streaming stream, .prepareNonFinalFragment payload =>
    match produceNonFinal T stream.compressor payload with
    | .ok (t, bytes) => some (.guard, .nonFinal ⟨stream.encoder, t, bytes⟩)
    | .error error => some (.refused error, .idle stream.encoder)
  | .streaming stream, .prepareFinalFragment payload =>
    match produce T stream.compressor payload with
    | .ok (t, bytes) => some (.guard, .final ⟨stream.encoder, t, bytes⟩)
    | .error error => some (.refused error, .idle stream.encoder)
  | .prepared guard, .commit =>
    some (.message guard.bytes, .idle (restore T guard.encoder guard.compressor))
  | .nonFinal fragment, .commit =>
    some (.fragment fragment.bytes, .streaming ⟨fragment.encoder, fragment.compressor⟩)
  | .final fragment, .commit =>
    some (.message fragment.bytes, .idle (restore T fragment.encoder fragment.compressor))
  | .prepared guard, .resetToPlain =>
    some (.released, .idle { guard.encoder with compressor := some (T.reset guard.compressor) })
  | world, .drop => world.borrowed.map fun encoder => (.released, .idle encoder)
  | world, .leak => world.borrowed.map fun encoder => (.released, .idle encoder)
  | _, _ => none

def run (world : World τ) : List Action → Option (List (Action × Reply) × World τ)
  | [] => some ([], world)
  | action :: actions => do
    let (reply, world) ← step T world action
    let (events, world) ← run world actions
    some ((action, reply) :: events, world)

end Reference

end Unbuffered

/-! ## A backend that keeps back what it has no room for -/

/-- A backend that emits what `T` does. It holds a state of `T` and what it kept back, and
passes on what it has room for. Told to flush, it owes that and what the flush of `T` gives:
that ends in the trailer, but where there is nothing to give. -/
structure Buffers {σ τ : Type} (C : Compress σ) (T : Transducer UInt8 UInt8 τ)
    (holds : σ → τ → Bytes → Prop) (owes : τ → σ → Bytes → Prop) : Prop where
  flushing : ∀ t, FlushProtocol C (owes t)
  emits : ∀ {x t kept input room}, holds x t kept → Answers C x input .none room →
    consumed C x input .none room ≤ input.length →
    ∃ kept', (C.compressVec x input .none room).appended ++ kept' =
        kept ++ (T.feed t (input.take (consumed C x input .none room))).2 ∧
      holds (C.compressVec x input .none room).state
        (T.feed t (input.take (consumed C x input .none room))).1 kept'
  due : ∀ {x t kept}, holds x t kept → owes (T.flush t).1 x (kept ++ (T.flush t).2)
  ends : ∀ {x t kept}, holds x t kept →
    trailer <:+ (T.flush t).2 ∨ (kept = [] ∧ (T.flush t).2 = [])
  settles : ∀ {x t residue room}, owes t x residue → residue.length < room →
    holds (C.compressVec x [] .sync room).state t []
  resets : ∀ {x t}, holds x t [] → holds (C.reset x) (T.reset t) []

section Chunks

variable {σ τ : Type} {C : Compress σ} {T : Transducer UInt8 UInt8 τ}
  {holds : σ → τ → Bytes → Prop} {owes : τ → σ → Bytes → Prop} {A : Allocator} {room : ℕ}
  {fresh : τ}

/-- **Feeding.** What the calls gave and what is kept back behind them is what `T` emits. -/
theorem Buffers.feeds (h : Buffers C T holds owes) {s : Feed σ} {rounds : List Exchange}
    {last : σ × Output} (hfeeds : Feeds C A room s rounds last) :
    ∀ {t : τ} {kept : Bytes}, holds s.compressor t kept →
      ∃ kept', gave rounds ++ kept' = kept ++ (T.feed t s.input).2 ∧
        holds last.1 (T.feed t s.input).1 kept' := by
  induction hfeeds with
  | @done s hempty =>
    intro t kept hs
    rw [hempty]
    exact ⟨kept, (List.append_nil kept).symm, hs⟩
  | @round s rounds last _ hfeeding _ ih =>
    intro t kept hs
    obtain ⟨mid, hgiven, hmid⟩ := h.emits hs hfeeding.answers hfeeding.within
    obtain ⟨kept', hmore, hlast⟩ := ih hmid
    have hstate := T.feed_cut_state t s.input
      (consumed C s.compressor s.input .none (offered A room s.output))
    rw [gave_cons]
    refine ⟨kept', T.feed_cut _ hgiven hmore, ?_⟩
    rw [← hstate]
    exact hlast

/-- **Flushing.** It gives what is owed, and one block more only where that came out even
with the room of a call. -/
theorem Buffers.flushes (h : Buffers C T holds owes) (hroom : redundantBlock.length < room)
    {s last : σ × Output} {rounds : List Exchange} (hflushes : Flushes C A room s rounds last) :
    ∀ {t : τ} {residue : Bytes}, owes t s.1 residue → holds last.1 t [] ∧
      (gave rounds = residue ∨
        (room ≤ residue.length ∧ gave rounds = residue ++ redundantBlock)) := by
  induction hflushes with
  | @last s _ hspare =>
    intro t residue hdue
    have hpos : 0 < offered A room s.2 :=
      (Nat.zero_lt_of_lt hroom).trans_le (le_offered A room s.2)
    have hcounts := (h.flushing t).counts hdue hpos
    have hgives := (h.flushing t).gives hdue hpos
    have hfits : residue.length < offered A room s.2 := by omega
    rw [List.take_of_length_le hfits.le] at hgives
    refine ⟨h.settles hdue hfits, Or.inl ?_⟩
    rw [gave_cons]
    exact (List.append_nil _).trans hgives
  | @round s last rounds _ hfull _ ih =>
    intro t residue hdue
    have hoffered := le_offered A room s.2
    have hpos : 0 < offered A room s.2 := (Nat.zero_lt_of_lt hroom).trans_le hoffered
    have hcounts := (h.flushing t).counts hdue hpos
    have hgives : (flushCall C A room s).appended = residue.take (offered A room s.2) :=
      (h.flushing t).gives hdue hpos
    rw [gave_cons, hgives]
    rcases Nat.lt_or_ge (offered A room s.2) residue.length with hmore | hless
    · obtain ⟨hheld, hgave⟩ := ih ((h.flushing t).goes_on hdue hpos hmore)
      refine ⟨hheld, ?_⟩
      rcases hgave with hgave | ⟨_, hgave⟩
      · left
        rw [hgave, List.take_append_drop]
      · right
        rw [hgave, ← List.append_assoc, List.take_append_drop]
        exact ⟨by omega, rfl⟩
    · -- The flush was done, and the loop makes another, of an empty block.
      have hexact : residue.length = offered A room s.2 := by omega
      obtain ⟨hheld, hgave⟩ := ih ((h.flushing t).rearms hdue hpos hexact)
      refine ⟨hheld, Or.inr ⟨by omega, ?_⟩⟩
      rw [List.take_of_length_le hless]
      rcases hgave with hgave | ⟨hlong, -⟩
      · rw [hgave]
      · omega

/-- What was told without buffers, or as much and `extra` behind it, if that may be. -/
def Alike (even : Prop) (extra told bytes : Bytes) : Prop :=
  bytes = told ∨ (even ∧ bytes = told ++ extra)

/-- A backend between two chunks, with nothing kept back. -/
structure Stands (T : Transducer UInt8 UInt8 τ) (holds : σ → τ → Bytes → Prop) (fresh : τ)
    (x : σ) (t : τ) : Prop where
  holds : holds x t []
  rests : T.Rests fresh t

/-- A chunk whose flush always fits the room that is asked for. -/
def Slight (C : Compress σ) (T : Transducer UInt8 UInt8 τ) (holds : σ → τ → Bytes → Prop)
    (fresh : τ) (payload : Bytes) : Prop :=
  ∀ {A : Allocator} {x : σ} {t : τ} {rounds : List Exchange} {last : σ × Output} {kept : Bytes},
    Stands T holds fresh x t → Feeds C A (roomFor payload.length) ⟨x, payload, .new⟩ rounds last →
    holds last.1 (T.feed t payload).1 kept →
    (kept ++ (T.flush (T.feed t payload).1).2).length < roomFor payload.length

/-- **A chunk.** -/
theorem Buffers.aligned (h : Buffers C T holds owes) {x x' : σ} {t : τ} {payload bytes : Bytes}
    (hx : Stands T holds fresh x t)
    (haligned : produceAligned C A x payload = some (.ok (x', bytes))) :
    Stands T holds fresh x' (T.chunk t payload).1 ∧ (bytes = (T.chunk t payload).2 ∨
      (¬ Slight C T holds fresh payload ∧ trailer <:+ (T.chunk t payload).2 ∧
        bytes = (T.chunk t payload).2 ++ redundantBlock)) := by
  obtain ⟨rounds, ⟨hfeeds, hflushes⟩, rfl⟩ := produceAligned_ok_iff.mp haligned
  obtain ⟨kept, hgave, hs⟩ := h.feeds hfeeds hx.holds
  obtain ⟨hheld, hresidue⟩ := h.flushes (redundantBlock_lt payload.length) hflushes (h.due hs)
  have htold : (T.chunk t payload).2 = (T.feed t payload).2 ++ (T.flush (T.feed t payload).1).2 :=
    rfl
  rw [List.nil_append] at hgave
  refine ⟨⟨hheld, .flush _⟩, ?_⟩
  rw [gave_append, htold, ← hgave, List.append_assoc]
  rcases hresidue with hexact | ⟨heven, hmore⟩
  · left
    rw [hexact]
  · right
    refine ⟨fun hslight => ?_, ?_, ?_⟩
    · exact absurd (hslight hx hfeeds hs) (Nat.not_lt_of_le heven)
    · rcases h.ends hs with htail | ⟨hkept, hnone⟩
      · rw [← List.append_assoc]
        exact htail.trans (List.suffix_append _ _)
      · rw [hkept, hnone] at heven
        have hpos := Nat.zero_lt_of_lt (redundantBlock_lt payload.length)
        exact absurd hpos (Nat.not_lt_of_le heven)
    · rw [hmore]
      exact (List.append_assoc _ _ _).symm

/-- A message that is alike told as it was prepared, with the block in front of its end. -/
theorem Buffers.produces (h : Buffers C T holds owes) {x x' : σ} {t : τ} {payload bytes : Bytes}
    (hx : Stands T holds fresh x t)
    (hproduce : produce C A x payload = some (.ok (x', bytes))) :
    ∃ told, Unbuffered.produce T t payload = .ok ((T.chunk t payload).1, told) ∧
      Stands T holds fresh x' (T.chunk t payload).1 ∧
      Alike (¬ Slight C T holds fresh payload) (trailer ++ emptyMessage) told bytes := by
  obtain ⟨output, haligned, hstrip⟩ := produce_ok hproduce
  obtain ⟨hheld, houtput⟩ := h.aligned hx haligned
  rcases houtput with rfl | ⟨hlong, htail, rfl⟩
  · refine ⟨bytes, ?_, hheld, Or.inl rfl⟩
    rw [Unbuffered.produce, hstrip]
    rfl
  · obtain ⟨told, htold⟩ := (show Ends payload (T.chunk t payload).2 from Or.inl htail).completes
    refine ⟨told, ?_, hheld, Or.inr ⟨hlong, ?_⟩⟩
    · rw [Unbuffered.produce, htold]
      rfl
    · obtain ⟨-, htold⟩ := stripOrSynthesize_ok_iff.mp htold
      obtain ⟨-, hbytes⟩ := stripOrSynthesize_ok_iff.mp hstrip
      have hsome {emitted : Bytes} (hends : trailer <:+ emitted) :
          completed payload emitted = emitted := by
        apply if_neg
        intro ⟨_, hempty⟩
        rw [hempty] at hends
        cases List.suffix_nil.mp hends
      rw [hsome htail] at htold
      rw [hsome (trailer_redundantBlock _), ← htold] at hbytes
      apply (List.append_left_inj trailer).mp
      rw [hbytes, List.append_assoc, List.append_assoc, List.append_assoc]
      rfl

theorem Buffers.producesNonFinal (h : Buffers C T holds owes) {x x' : σ} {t : τ}
    {payload bytes : Bytes} (hx : Stands T holds fresh x t)
    (hproduce : produceNonFinal C A x payload = some (.ok (x', bytes))) :
    ∃ told, Unbuffered.produceNonFinal T t payload = .ok ((T.chunk t payload).1, told) ∧
      Stands T holds fresh x' (T.chunk t payload).1 ∧
      Alike (¬ Slight C T holds fresh payload) redundantBlock told bytes := by
  obtain ⟨rounds, hrounds, hends, rfl⟩ := produceNonFinal_gives hproduce
  obtain ⟨hheld, houtput⟩ := h.aligned hx (produceNonFinal_ok hproduce)
  refine ⟨(T.chunk t payload).2, ?_, hheld, ?_⟩
  · apply if_pos
    rcases houtput with hexact | ⟨-, htail, -⟩
    · rw [← hexact]
      exact hends
    · exact Or.inl htail
  · rcases houtput with hexact | ⟨hlong, -, hmore⟩
    · exact Or.inl hexact
    · exact Or.inr ⟨hlong, hmore⟩

/-! ### What a producer refuses for -/

theorem drive_error {x : σ} {input : Bytes} {output : Output} {flush : FlushCompress}
    {error : CodecError} (h : drive C A x input output flush room = .error error) :
    error = .compressionFailed := by
  by_cases hanswers : Answers C x input flush (offered A room output)
  · rw [drive_answers hanswers] at h
    cases h
  · rw [drive_fails hanswers] at h
    exact (Except.error.inj h).symm

theorem feed_not_poisoned {x : σ} {payload : Bytes} {output : Output} :
    feed C A x payload output room ≠ some (.error .poisoned) := by
  intro h
  obtain ⟨s, -, hlast⟩ := Loop.run_eq_some_iff.mp h
  unfold feedTurn at hlast
  split at hlast
  · cases hlast
  · split at hlast
    · next hdrive =>
      obtain rfl := drive_error hdrive
      cases hlast
    · split at hlast
      · cases hlast
      · split at hlast <;> cases hlast

theorem syncFlush_not_poisoned {x : σ} {output : Output} :
    syncFlush C A x output room ≠ some (.error .poisoned) := by
  intro h
  obtain ⟨s, -, hlast⟩ := Loop.run_eq_some_iff.mp h
  unfold syncFlushTurn at hlast
  split at hlast
  · next hdrive =>
    obtain rfl := drive_error hdrive
    cases hlast
  · split at hlast <;> cases hlast

theorem produceAligned_not_poisoned {x : σ} {payload : Bytes} :
    produceAligned C A x payload ≠ some (.error .poisoned) := by
  intro h
  obtain ⟨fed, hfeed, h⟩ := Option.bind_eq_some_iff.mp h
  cases fed with
  | error error =>
    cases h
    exact feed_not_poisoned hfeed
  | ok s =>
    obtain ⟨flushed, hflush, h⟩ := Option.bind_eq_some_iff.mp h
    cases flushed with
    | error error =>
      cases h
      exact syncFlush_not_poisoned hflush
    | ok last => cases h

theorem produce_not_poisoned {x : σ} {payload : Bytes} :
    produce C A x payload ≠ some (.error .poisoned) := by
  intro h
  obtain ⟨aligned, haligned, h⟩ := Option.bind_eq_some_iff.mp h
  cases aligned with
  | error error =>
    cases h
    exact produceAligned_not_poisoned haligned
  | ok answer =>
    by_cases hends : Ends payload answer.2
    · obtain ⟨message, hstrip⟩ := hends.completes
      simp only [hstrip] at h
      cases h
    · simp only [stripOrSynthesize_fault hends] at h
      cases h

theorem produceNonFinal_not_poisoned {x : σ} {payload : Bytes} :
    produceNonFinal C A x payload ≠ some (.error .poisoned) := by
  intro h
  obtain ⟨aligned, haligned, h⟩ := Option.bind_eq_some_iff.mp h
  cases aligned with
  | error error =>
    cases h
    exact produceAligned_not_poisoned haligned
  | ok answer =>
    simp only at h
    split at h <;> cases h

end Chunks

/-! ## Whole runs -/

section Runs

variable {σ τ : Type}

/-- Encoders that hold the same, or are both vacant. -/
structure Matches (stands : σ → τ → Prop) (encoder : Encoder σ) (told : Encoder τ) :
    Prop where
  reset : told.resetBetweenMessages = encoder.resetBetweenMessages
  compressor : Option.Rel stands encoder.compressor told.compressor

/-- The encoder or guard at hand, with a buffer and without. -/
inductive Tells (stands : σ → τ → Prop) (even : Prop) : World σ → World τ → Prop where
  | idle {encoder : Encoder σ} {told : Encoder τ} : Matches stands encoder told →
      Tells stands even (.idle encoder) (.idle told)
  | prepared {guard : PreparedMessage σ} {told : PreparedMessage τ} :
      Matches stands guard.encoder told.encoder → stands guard.compressor told.compressor →
      Alike even (trailer ++ emptyMessage) told.bytes guard.bytes →
      Tells stands even (.prepared guard) (.prepared told)
  | streaming {stream : StreamingMessage σ} {told : StreamingMessage τ} :
      Matches stands stream.encoder told.encoder → stands stream.compressor told.compressor →
      Tells stands even (.streaming stream) (.streaming told)
  | nonFinal {fragment : PreparedNonFinalFragment σ} {told : PreparedNonFinalFragment τ} :
      Matches stands fragment.encoder told.encoder →
      stands fragment.compressor told.compressor →
      Alike even redundantBlock told.bytes fragment.bytes →
      Tells stands even (.nonFinal fragment) (.nonFinal told)
  | final {fragment : PreparedFinalFragment σ} {told : PreparedFinalFragment τ} :
      Matches stands fragment.encoder told.encoder →
      stands fragment.compressor told.compressor →
      Alike even (trailer ++ emptyMessage) told.bytes fragment.bytes →
      Tells stands even (.final fragment) (.final told)

/-- A reply, and the one without buffers. A message carries its block in front of the four
octets it was rid of. -/
inductive Reply.Alike (even : Prop) : Reply → Reply → Prop where
  | same (reply : Reply) : Reply.Alike even reply reply
  | fragment {told bytes : Bytes} : Encoding.Alike even redundantBlock told bytes →
      Reply.Alike even (.fragment bytes) (.fragment told)
  | message {told bytes : Bytes} : Encoding.Alike even (trailer ++ emptyMessage) told bytes →
      Reply.Alike even (.message bytes) (.message told)

/-- A refusal, if it is one, of a vacant encoder: the backend was not at fault. -/
def Reply.Faultless (reply : Reply) : Prop := ∀ error, reply = .refused error → error = .poisoned

theorem Alike.mono {even even' : Prop} {extra told bytes : Bytes}
    (h : Alike even extra told bytes) (himp : even → even') : Alike even' extra told bytes :=
  h.imp_right fun ⟨heven, hbytes⟩ => ⟨himp heven, hbytes⟩

theorem Alike.eq {even : Prop} {extra told bytes : Bytes} (h : Alike even extra told bytes)
    (hnever : ¬ even) : bytes = told :=
  h.resolve_right fun hmore => hnever hmore.1

theorem Reply.Alike.eq {even : Prop} {reply told : Reply} (h : Reply.Alike even reply told)
    (hnever : ¬ even) : reply = told := by
  cases h with
  | same => rfl
  | fragment hbytes => exact congrArg Reply.fragment (hbytes.eq hnever)
  | message hbytes => exact congrArg Reply.message (hbytes.eq hnever)

section Matching

variable {stands : σ → τ → Prop} {even : Prop}

theorem Matches.vacant {encoder : Encoder σ} {told : Encoder τ} (h : Matches stands encoder told)
    (hvacant : encoder.compressor = none) : told.compressor = none := by
  have hrel := h.compressor
  rw [hvacant] at hrel
  generalize told.compressor = held at hrel ⊢
  cases hrel
  rfl

theorem Matches.held {encoder : Encoder σ} {told : Encoder τ} (h : Matches stands encoder told)
    {x : σ} (hheld : encoder.compressor = some x) :
    ∃ t, told.compressor = some t ∧ stands x t := by
  have hrel := h.compressor
  rw [hheld] at hrel
  generalize told.compressor = held at hrel ⊢
  cases hrel with
  | some hx => exact ⟨_, rfl, hx⟩

theorem Matches.vacated {encoder : Encoder σ} {told : Encoder τ} (h : Matches stands encoder told) :
    Matches stands encoder.vacated told.vacated := ⟨h.reset, .none⟩

/-- Whichever guard goes, the encoders it leaves match. -/
theorem Tells.borrowed {world : World σ} {told : World τ} (h : Tells stands even world told)
    {encoder : Encoder σ} (hborrowed : world.borrowed = some encoder) :
    ∃ encoder', told.borrowed = some encoder' ∧ Matches stands encoder encoder' := by
  cases h with
  | idle _ => cases hborrowed
  | prepared hencoder _ _ =>
    obtain rfl := Option.some.inj hborrowed
    exact ⟨_, rfl, hencoder⟩
  | streaming hencoder _ =>
    obtain rfl := Option.some.inj hborrowed
    exact ⟨_, rfl, hencoder⟩
  | nonFinal hencoder _ _ =>
    obtain rfl := Option.some.inj hborrowed
    exact ⟨_, rfl, hencoder⟩
  | final hencoder _ _ =>
    obtain rfl := Option.some.inj hborrowed
    exact ⟨_, rfl, hencoder⟩

end Matching

variable {C : Compress σ} {T : Transducer UInt8 UInt8 τ} {holds : σ → τ → Bytes → Prop}
  {owes : τ → σ → Bytes → Prop} {A : Allocator} {even : Prop} {fresh : τ}

theorem Matches.restored (hC : Buffers C T holds owes) {encoder : Encoder σ} {told : Encoder τ}
    (h : Matches (Stands T holds fresh) encoder told) {x : σ} {t : τ}
    (hx : Stands T holds fresh x t) :
    Matches (Stands T holds fresh) (encoder.restore C x) (Unbuffered.restore T told t) := by
  refine ⟨h.reset, .some ?_⟩
  rw [h.reset]
  split
  · exact ⟨hC.resets hx.holds, .reset t⟩
  · exact hx

/-- **One call** is answered as it is without buffers. -/
theorem Buffers.step_told (hC : Buffers C T holds owes) {world next : World σ} {told : World τ}
    {action : Action} {reply : Reply} (htells : Tells (Stands T holds fresh) even world told)
    (hstep : step C A world action = some (reply, next)) (hclean : reply.Faultless)
    (heven : ∀ payload, action.chunk = some payload → ¬ Slight C T holds fresh payload → even) :
    ∃ reply' next', Unbuffered.step T told action = some (reply', next') ∧
      Reply.Alike even reply reply' ∧ Tells (Stands T holds fresh) even next next' := by
  have hletGo {encoder : Encoder σ} (hborrowed : world.borrowed = some encoder) : ∃ reply' next',
      told.borrowed.map (fun encoder => (Reply.released, World.idle encoder)) =
        some (reply', next') ∧ Reply.Alike even .released reply' ∧
          Tells (Stands T holds fresh) even (.idle encoder) next' := by
    obtain ⟨encoder', hborrowed', hencoder⟩ := htells.borrowed hborrowed
    rw [hborrowed']
    exact ⟨_, _, rfl, .same _, .idle hencoder⟩
  cases stepped_of_step hstep with
  | prepareMessage hheld hproduce =>
    cases htells with
    | @idle encoder told hencoder =>
      obtain ⟨t, ht, hx⟩ := hencoder.held hheld
      obtain ⟨bytes', htold, hx', hbytes⟩ := hC.produces hx hproduce
      refine ⟨.guard, .prepared ⟨told.vacated, _, bytes'⟩, ?_, .same _,
        .prepared hencoder.vacated hx' (hbytes.mono (heven _ rfl))⟩
      simp only [Unbuffered.step, ht, htold]
  | refuseMessage _ hproduce =>
    obtain rfl := hclean _ rfl
    exact absurd hproduce produce_not_poisoned
  | vacantMessage hvacant =>
    cases htells with
    | @idle encoder told hencoder =>
      refine ⟨.refused .poisoned, .idle told, ?_, .same _, .idle hencoder⟩
      simp only [Unbuffered.step, hencoder.vacant hvacant]
  | beginStreamingMessage hheld =>
    cases htells with
    | @idle encoder told hencoder =>
      obtain ⟨t, ht, hx⟩ := hencoder.held hheld
      refine ⟨.guard, .streaming ⟨told.vacated, t⟩, ?_, .same _, .streaming hencoder.vacated hx⟩
      simp only [Unbuffered.step, ht]
  | vacantStream hvacant =>
    cases htells with
    | @idle encoder told hencoder =>
      refine ⟨.refused .poisoned, .idle told, ?_, .same _, .idle hencoder⟩
      simp only [Unbuffered.step, hencoder.vacant hvacant]
  | prepareNonFinalFragment hproduce =>
    cases htells with
    | @streaming stream told hencoder hx =>
      obtain ⟨bytes', htold, hx', hbytes⟩ := hC.producesNonFinal hx hproduce
      refine ⟨.guard, .nonFinal ⟨told.encoder, _, bytes'⟩, ?_, .same _,
        .nonFinal hencoder hx' (hbytes.mono (heven _ rfl))⟩
      simp only [Unbuffered.step, htold]
  | refuseNonFinalFragment hproduce =>
    obtain rfl := hclean _ rfl
    exact absurd hproduce produceNonFinal_not_poisoned
  | prepareFinalFragment hproduce =>
    cases htells with
    | @streaming stream told hencoder hx =>
      obtain ⟨bytes', htold, hx', hbytes⟩ := hC.produces hx hproduce
      refine ⟨.guard, .final ⟨told.encoder, _, bytes'⟩, ?_, .same _,
        .final hencoder hx' (hbytes.mono (heven _ rfl))⟩
      simp only [Unbuffered.step, htold]
  | refuseFinalFragment hproduce =>
    obtain rfl := hclean _ rfl
    exact absurd hproduce produce_not_poisoned
  | commitMessage =>
    cases htells with
    | prepared hencoder hx hbytes =>
      exact ⟨_, _, rfl, .message hbytes, .idle (hencoder.restored hC hx)⟩
  | commitNonFinal =>
    cases htells with
    | nonFinal hencoder hx hbytes =>
      exact ⟨_, _, rfl, .fragment hbytes, .streaming hencoder hx⟩
  | commitFinal =>
    cases htells with
    | final hencoder hx hbytes =>
      exact ⟨_, _, rfl, .message hbytes, .idle (hencoder.restored hC hx)⟩
  | resetToPlain =>
    cases htells with
    | prepared hencoder hx _ =>
      exact ⟨_, _, rfl, .same _, .idle ⟨hencoder.reset, .some ⟨hC.resets hx.holds, .reset _⟩⟩⟩
  | drop hborrowed => cases told <;> exact hletGo hborrowed
  | leak hborrowed => cases told <;> exact hletGo hborrowed

/-- A run, call by call. -/
theorem Buffers.run_told (hC : Buffers C T holds owes) (actions : List Action) :
    ∀ {world last : World σ} {told : World τ} {events : List (Action × Reply)},
      Tells (Stands T holds fresh) even world told → run C A world actions = some (events, last) →
      (∀ event ∈ events, event.2.Faultless) →
      (∀ action ∈ actions, ∀ payload, action.chunk = some payload →
        ¬ Slight C T holds fresh payload → even) →
      ∃ events' last', Unbuffered.run T told actions = some (events', last') ∧
        List.Forall₂ (fun event event' =>
          event.1 = event'.1 ∧ Reply.Alike even event.2 event'.2) events events' ∧
        Tells (Stands T holds fresh) even last last' := by
  induction actions with
  | nil =>
    intro world last told events htells hrun _ _
    obtain ⟨rfl, rfl⟩ := Prod.mk.inj (Option.some.inj hrun)
    exact ⟨[], told, rfl, .nil, htells⟩
  | cons action actions ih =>
    intro world last told events htells hrun hclean heven
    simp only [run, Option.bind_eq_bind, Option.bind_eq_some_iff] at hrun
    obtain ⟨⟨reply, mid⟩, hstep, ⟨more, final⟩, hmore, he⟩ := hrun
    obtain ⟨rfl, rfl⟩ := Prod.mk.inj (Option.some.inj he)
    obtain ⟨reply', mid', hstep', hreply, hmid⟩ := hC.step_told htells hstep
      (hclean _ List.mem_cons_self) (heven action List.mem_cons_self)
    obtain ⟨more', last', hmore', halike, hlast⟩ := ih hmid hmore
      (fun event hmem => hclean event (List.mem_cons_of_mem _ hmem))
      fun action hmem => heven action (List.mem_cons_of_mem _ hmem)
    refine ⟨(action, reply') :: more', last', ?_, .cons ⟨rfl, hreply⟩ halike, hlast⟩
    simp only [Unbuffered.run, hstep', hmore', Option.bind_eq_bind, Option.bind_some]

theorem alike_events {events events' : List (Action × Reply)} (hnever : ¬ even)
    (h : List.Forall₂ (fun event event' =>
      event.1 = event'.1 ∧ Reply.Alike even event.2 event'.2) events events') :
    events = events' := by
  induction h with
  | nil => rfl
  | cons hfirst _ ih =>
    rw [ih, Prod.ext hfirst.1 (hfirst.2.eq hnever)]

/-- **The rooms leave no mark on the wire.** Let a backend emit what a transducer does,
keeping back what it has no room for. In every run of the calls the encoder and its guards
have in which the backend is at fault for no refusal, wherever the allocator put the output
and however much room that left, the encoder without buffers answers the same calls, and
each of the host's replies is the one it gives, or that one with one empty block more.
Where each chunk's flush fits the room that is asked for there is no such block, and the
two runs are one and the same. -/
theorem rooms_leave_no_mark (C : Compress σ) (A : Allocator) (T : Transducer UInt8 UInt8 τ)
    (holds : σ → τ → Bytes → Prop) (owes : τ → σ → Bytes → Prop) (hC : Buffers C T holds owes)
    {negotiated : Negotiated} {config : EncoderConfig} {encoder : Encoder σ}
    (hbuilt : Encoder.forAgreement C negotiated config = some encoder) (fresh : τ)
    (hfresh : holds (C.newWithWindowBits config.level false negotiated.localMaxWindowBits)
      fresh [])
    {actions : List Action} {events : List (Action × Reply)} {world : World σ}
    (hrun : run C A (.idle encoder) actions = some (events, world))
    (hclean : ∀ event ∈ events, event.2.Faultless) :
    ∃ events' world', Unbuffered.run T
        (.idle ⟨some fresh, negotiated.localNoContextTakeover⟩) actions =
          some (events', world') ∧
      List.Forall₂ (fun event event' =>
        event.1 = event'.1 ∧ Reply.Alike True event.2 event'.2) events events' ∧
      ((∀ action ∈ actions, ∀ payload, action.chunk = some payload →
        Slight C T holds fresh payload) → events = events') := by
  obtain rfl := forAgreement_some hbuilt
  have htells (even : Prop) : Tells (Stands T holds fresh) even
      (.idle ⟨some (C.newWithWindowBits config.level false negotiated.localMaxWindowBits),
        negotiated.localNoContextTakeover⟩)
      (.idle ⟨some fresh, negotiated.localNoContextTakeover⟩) :=
    .idle ⟨rfl, .some ⟨hfresh, .fresh⟩⟩
  obtain ⟨events', world', hrun', halike, -⟩ :=
    hC.run_told actions (htells True) hrun hclean fun _ _ _ _ _ => trivial
  refine ⟨events', world', hrun', halike, fun hslight => ?_⟩
  obtain ⟨exact', last', hexact, hsame, -⟩ := hC.run_told actions (htells False) hrun hclean
    fun action hmem payload hchunk hlong => hlong (hslight action hmem payload hchunk)
  obtain ⟨rfl, -⟩ := Prod.mk.inj (Option.some.inj (hexact.symm.trans hrun'))
  exact alike_events not_false hsame

end Runs

/-! ## A backend that stores -/

/-- What the backend that stores does, told without its room. -/
def storing : Transducer UInt8 UInt8 Bytes where
  absorb := fun held byte => (held ++ [byte], [])
  flush := fun held => ([], storedFlush held)
  reset := fun _ => []

theorem storing_feed (input : Bytes) : ∀ held, storing.feed held input = (held ++ input, []) := by
  induction input with
  | nil =>
    intro held
    rw [List.append_nil]
    rfl
  | cons byte input ih =>
    intro held
    have habsorb : storing.absorb held byte = (held ++ [byte], []) := rfl
    rw [Transducer.feed, habsorb, ih, List.append_assoc, List.singleton_append]
    rfl

theorem rearmingCompress_buffers :
    Buffers rearmingCompress storing (fun x held kept => x.held = held ∧ x.owed = [] ∧ kept = [])
      fun held x residue => held = [] ∧ x.Due residue := by
  have hflush := rearmingCompress_cooperates.toFlushProtocol
  constructor
  · intro held
    exact {
      answers := fun h hroom => hflush.answers h.2 hroom
      gives := fun h hroom => hflush.gives h.2 hroom
      counts := fun h hroom => hflush.counts h.2 hroom
      goes_on := fun h hroom hmore => ⟨h.1, hflush.goes_on h.2 hroom hmore⟩
      rearms := fun h hroom hexact => ⟨h.1, hflush.rearms h.2 hroom hexact⟩ }
  · intro x held kept input room h _ _
    obtain ⟨hheld, howed, hkept⟩ := h
    have hconsumed : consumed rearmingCompress x input .none room = input.length :=
      Nat.add_sub_cancel_left _ _
    rw [hconsumed, List.take_length, storing_feed, hkept, ← hheld]
    exact ⟨[], rfl, rfl, howed, rfl⟩
  · intro x held kept h
    obtain ⟨hheld, howed, hkept⟩ := h
    refine ⟨rfl, ?_⟩
    rw [Stored.Due, hheld, howed, hkept]
    rfl
  · intro x held kept h
    obtain ⟨-, -, hkept⟩ := h
    have htail : (storing.flush held).2 = storedFlush held := rfl
    rw [htail, storedFlush]
    split
    · exact Or.inr ⟨hkept, rfl⟩
    · exact Or.inl (trailer_redundantBlock _)
  · intro held x residue room h hspare
    obtain ⟨hempty, hdue⟩ := h
    obtain ⟨howed, hheld⟩ := rearmingCompress_cooperates.settles hdue hspare
    exact ⟨(hheld.mp rfl).trans hempty.symm, howed, rfl⟩
  · intro x held _
    exact ⟨rfl, rfl, rfl⟩

/-- An allocator that always has one octet more than it was asked for. -/
def oneMore : Allocator where
  grow := fun _ length additional => length + additional + 1
  grow_ge := fun _ _ _ => Nat.le_succ _

/-- What the flush of twelve bytes comes to is what `oneMore` has room for. -/
theorem rearming_prepares :
    Encoder.prepareMessage rearmingCompress oneMore ⟨some ⟨[], [], 0, 0⟩, false⟩
        (List.replicate 12 0x61) =
      some (.ok ⟨⟨none, false⟩, ⟨[], [], 12, 82⟩,
        storedBlocks (List.replicate 12 0x61) ++ 0x00 :: trailer ++ emptyMessage⟩) := by
  have hfeed : feed rearmingCompress oneMore ⟨[], [], 0, 0⟩ (List.replicate 12 0x61) Output.new
      (roomFor 12) = some (.ok (⟨List.replicate 12 0x61, [], 12, 0⟩, ⟨[], 77, by decide⟩)) :=
    Loop.run_of_runFor (n := 2) rfl
  have hflush : syncFlush rearmingCompress oneMore ⟨List.replicate 12 0x61, [], 12, 0⟩
      ⟨[], 77, by decide⟩ (roomFor 12) = some (.ok (⟨[], [], 12, 82⟩,
        ⟨storedBlocks (List.replicate 12 0x61) ++ 0x00 :: trailer ++ redundantBlock, 154,
          by decide⟩)) := Loop.run_of_runFor (n := 2) rfl
  have haligned : produceAligned rearmingCompress oneMore ⟨[], [], 0, 0⟩ (List.replicate 12 0x61) =
      some (.ok (⟨[], [], 12, 82⟩,
        storedBlocks (List.replicate 12 0x61) ++ 0x00 :: trailer ++ redundantBlock)) := by
    unfold produceAligned
    exact Option.bind_eq_some_iff.mpr ⟨_, hfeed, Option.bind_eq_some_iff.mpr ⟨_, hflush, rfl⟩⟩
  have hproduce : produce rearmingCompress oneMore ⟨[], [], 0, 0⟩ (List.replicate 12 0x61) =
      some (.ok (⟨[], [], 12, 82⟩,
        storedBlocks (List.replicate 12 0x61) ++ 0x00 :: trailer ++ emptyMessage)) := by
    unfold produce
    exact Option.bind_eq_some_iff.mpr ⟨_, haligned, rfl⟩
  exact Option.bind_eq_some_iff.mpr ⟨_, hproduce, rfl⟩

/-- A message of twelve bytes, with a block more than without buffers. -/
theorem rooms_leave_no_mark_even :
    ∃ events, run rearmingCompress oneMore (.idle ⟨some ⟨[], [], 0, 0⟩, false⟩)
        [.prepareMessage (List.replicate 12 0x61), .commit] =
          some (events, .idle ⟨some ⟨[], [], 12, 82⟩, false⟩) ∧
      ∃ events' world', Unbuffered.run storing (.idle ⟨some [], false⟩)
          [.prepareMessage (List.replicate 12 0x61), .commit] = some (events', world') ∧
        List.Forall₂ (fun event event' =>
          event.1 = event'.1 ∧ Reply.Alike True event.2 event'.2) events events' := by
  have hbuilt : Encoder.forAgreement rearmingCompress ⟨.client, false, false, 15, 15⟩ .new =
      some ⟨some ⟨[], [], 0, 0⟩, false⟩ := rfl
  have hrun : run rearmingCompress oneMore (.idle ⟨some ⟨[], [], 0, 0⟩, false⟩)
      [.prepareMessage (List.replicate 12 0x61), .commit] =
        some ([(.prepareMessage (List.replicate 12 0x61), .guard),
          (.commit, .message (storedBlocks (List.replicate 12 0x61) ++ 0x00 :: trailer ++
            emptyMessage))], .idle ⟨some ⟨[], [], 12, 82⟩, false⟩) := by
    simp only [run, step, rearming_prepares]
    rfl
  have hclean : ∀ event ∈ [(Action.prepareMessage (List.replicate 12 0x61), Reply.guard),
      (.commit, .message (storedBlocks (List.replicate 12 0x61) ++ 0x00 :: trailer ++
        emptyMessage))], event.2.Faultless := by
    intro event hmem
    rcases List.mem_cons.mp hmem with rfl | hmem
    · intro error h
      cases h
    · rw [List.mem_singleton.mp hmem]
      intro error h
      cases h
  obtain ⟨events', world', hrun', halike, -⟩ := rooms_leave_no_mark rearmingCompress oneMore
    storing _ _ rearmingCompress_buffers hbuilt [] ⟨rfl, rfl, rfl⟩ hrun hclean
  exact ⟨_, hrun, events', world', hrun', halike⟩

end WsPmd.Encoding
