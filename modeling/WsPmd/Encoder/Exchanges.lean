import WsPmd.Encoder
import WsPmd.Library.Passage

/-!
# What passes between the encoder and its backend

A chunk is a sequence of exchanges with the backend: as long as there is input it is
fed, and then it is flushed until a flush leaves room to spare. The two loops of the
encoder make these calls and no others: they answer exactly when every call is as it
has to be, and fail exactly when they come to one that is not.
-/

namespace WsPmd.Encoding

open Grammar (Bytes)
open Library

/-- One backend call: what it took off the input it was offered, and what it gave. -/
abbrev Exchange := Passage UInt8

section Exchanges

variable {σ : Type} (C : Compress σ)

/-- What a call took, as the encoder reads it. -/
def consumed (x : σ) (input : Bytes) (flush : FlushCompress) (room : ℕ) : ℕ :=
  C.totalIn (C.compressVec x input flush room).state - C.totalIn x

/-- What a call gave, as the encoder reads it. -/
def produced (x : σ) (input : Bytes) (flush : FlushCompress) (room : ℕ) : ℕ :=
  C.totalOut (C.compressVec x input flush room).state - C.totalOut x

/-- The call answered, and not with the end of the stream. -/
def Answers (x : σ) (input : Bytes) (flush : FlushCompress) (room : ℕ) : Prop :=
  ∃ status, (C.compressVec x input flush room).status = some status ∧ status ≠ .streamEnd

variable (A : Allocator) (room : ℕ)

/-- The room a round has: what is spare once the request is reserved. -/
def offered (output : Output) : ℕ := (output.reserve A room).spare

/-- The output behind a round. -/
def written (output : Output) (call : Compressed σ (offered A room output)) : Output :=
  (output.reserve A room).append call.appended call.appended_le

/-! ## Feeding -/

/-- The call made with this much left to feed. -/
def feedCall (s : Feed σ) : Compressed σ (offered A room s.output) :=
  C.compressVec s.compressor s.input .none (offered A room s.output)

/-- That call, as it has to be: it answers, it takes no more than it was offered, and
it moves. -/
structure Feeding (s : Feed σ) : Prop where
  answers : Answers C s.compressor s.input .none (offered A room s.output)
  within : consumed C s.compressor s.input .none (offered A room s.output) ≤ s.input.length
  moves : ¬ (consumed C s.compressor s.input .none (offered A room s.output) = 0 ∧
    produced C s.compressor s.input .none (offered A room s.output) = 0)

def feedExchange (s : Feed σ) : Exchange :=
  ⟨s.input.take (consumed C s.compressor s.input .none (offered A room s.output)),
    (feedCall C A room s).appended⟩

def feedNext (s : Feed σ) : Feed σ :=
  ⟨(feedCall C A room s).state,
    s.input.drop (consumed C s.compressor s.input .none (offered A room s.output)),
    written A room s.output (feedCall C A room s)⟩

/-- Each call is offered what the ones before it left, until nothing is left. -/
inductive Feeds : Feed σ → List Exchange → σ × Output → Prop where
  | done {s : Feed σ} : s.input = [] → Feeds s [] (s.compressor, s.output)
  | round {s : Feed σ} {rounds : List Exchange} {last : σ × Output} :
      s.input ≠ [] → Feeding C A room s → Feeds (feedNext C A room s) rounds last →
      Feeds s (feedExchange C A room s :: rounds) last

/-! ## Flushing -/

def flushCall (s : σ × Output) : Compressed σ (offered A room s.2) :=
  C.compressVec s.1 [] .sync (offered A room s.2)

def flushNext (s : σ × Output) : σ × Output :=
  ((flushCall C A room s).state, written A room s.2 (flushCall C A room s))

/-- Each call is offered no input, up to the first that leaves room to spare. -/
inductive Flushes : σ × Output → List Exchange → σ × Output → Prop where
  | last {s : σ × Output} :
      Answers C s.1 [] .sync (offered A room s.2) →
      produced C s.1 [] .sync (offered A room s.2) < offered A room s.2 →
      Flushes s [⟨[], (flushCall C A room s).appended⟩] (flushNext C A room s)
  | round {s last : σ × Output} {rounds : List Exchange} :
      Answers C s.1 [] .sync (offered A room s.2) →
      offered A room s.2 ≤ produced C s.1 [] .sync (offered A room s.2) →
      Flushes (flushNext C A room s) rounds last →
      Flushes s (⟨[], (flushCall C A room s).appended⟩ :: rounds) last

end Exchanges

/-! ## The loops make these calls and no others -/

section Loops

variable {σ : Type} {C : Compress σ} {A : Allocator} {room : ℕ}

theorem drive_answers {x : σ} {input : Bytes} {output : Output} {flush : FlushCompress}
    (h : Answers C x input flush (offered A room output)) :
    drive C A x input output flush room =
      .ok (⟨consumed C x input flush (offered A room output),
          produced C x input flush (offered A room output), offered A room output⟩,
        (C.compressVec x input flush (offered A room output)).state,
        written A room output (C.compressVec x input flush (offered A room output))) := by
  obtain ⟨status, hstatus, hgoes⟩ := h
  unfold offered at hstatus
  simp only [drive, hstatus]
  cases status with
  | streamEnd => exact absurd rfl hgoes
  | ok => rfl
  | bufError => rfl

theorem drive_fails {x : σ} {input : Bytes} {output : Output} {flush : FlushCompress}
    (h : ¬ Answers C x input flush (offered A room output)) :
    drive C A x input output flush room = .error .compressionFailed := by
  unfold drive
  simp only
  split
  · rfl
  · rfl
  · next status hgoes hstatus =>
    refine absurd ⟨status, hstatus, ?_⟩ h
    intro hend
    exact hgoes hend

theorem feedTurn_done {s : Feed σ} (h : s.input = []) :
    feedTurn C A room s = .inl (.ok (s.compressor, s.output)) := by
  rw [feedTurn, if_pos h]

theorem feedTurn_feeding {s : Feed σ} (hleft : s.input ≠ []) (h : Feeding C A room s) :
    feedTurn C A room s = .inr (feedNext C A room s) := by
  rw [feedTurn, if_neg hleft, drive_answers h.answers]
  simp only
  rw [if_neg h.moves, if_neg (Nat.not_lt_of_le h.within)]
  rfl

theorem feedTurn_fault {s : Feed σ} (hleft : s.input ≠ []) (h : ¬ Feeding C A room s) :
    ∃ error, feedTurn C A room s = .inl (.error error) := by
  rw [feedTurn, if_neg hleft]
  by_cases hanswers : Answers C s.compressor s.input .none (offered A room s.output)
  · rw [drive_answers hanswers]
    simp only
    split
    · exact ⟨_, rfl⟩
    · next hmoves =>
      split
      · exact ⟨_, rfl⟩
      · next hwithin => exact absurd ⟨hanswers, Nat.le_of_not_lt hwithin, hmoves⟩ h
  · rw [drive_fails hanswers]
    exact ⟨_, rfl⟩

theorem feedTurn_eq_ok {s : Feed σ} {last : σ × Output} :
    feedTurn C A room s = .inl (.ok last) ↔ s.input = [] ∧ last = (s.compressor, s.output) := by
  by_cases hleft : s.input = []
  · simp [feedTurn_done hleft, hleft, eq_comm]
  by_cases hfeeding : Feeding C A room s
  · simp [feedTurn_feeding hleft hfeeding, hleft]
  · obtain ⟨error, hfault⟩ := feedTurn_fault hleft hfeeding
    simp [hfault, hleft]

theorem feedTurn_eq_inr {s next : Feed σ} :
    feedTurn C A room s = .inr next ↔
      s.input ≠ [] ∧ Feeding C A room s ∧ next = feedNext C A room s := by
  by_cases hleft : s.input = []
  · simp [feedTurn_done hleft, hleft]
  by_cases hfeeding : Feeding C A room s
  · simp [feedTurn_feeding hleft hfeeding, hleft, hfeeding, eq_comm]
  · obtain ⟨error, hfault⟩ := feedTurn_fault hleft hfeeding
    simp [hfault, hfeeding]

theorem feedTurn_fails_iff {s : Feed σ} :
    (∃ error, feedTurn C A room s = .inl (.error error)) ↔
      s.input ≠ [] ∧ ¬ Feeding C A room s := by
  by_cases hleft : s.input = []
  · simp [feedTurn_done hleft, hleft]
  by_cases hfeeding : Feeding C A room s
  · simp [feedTurn_feeding hleft hfeeding, hfeeding]
  · exact iff_of_true (feedTurn_fault hleft hfeeding) ⟨hleft, hfeeding⟩

theorem syncFlushTurn_last {s : σ × Output} (h : Answers C s.1 [] .sync (offered A room s.2))
    (hspare : produced C s.1 [] .sync (offered A room s.2) < offered A room s.2) :
    syncFlushTurn C A room s = .inl (.ok (flushNext C A room s)) := by
  rw [syncFlushTurn, drive_answers h]
  simp only
  rw [if_pos hspare]
  rfl

theorem syncFlushTurn_round {s : σ × Output} (h : Answers C s.1 [] .sync (offered A room s.2))
    (hfull : offered A room s.2 ≤ produced C s.1 [] .sync (offered A room s.2)) :
    syncFlushTurn C A room s = .inr (flushNext C A room s) := by
  rw [syncFlushTurn, drive_answers h]
  simp only
  rw [if_neg (Nat.not_lt_of_le hfull)]
  rfl

theorem syncFlushTurn_fault {s : σ × Output}
    (h : ¬ Answers C s.1 [] .sync (offered A room s.2)) :
    syncFlushTurn C A room s = .inl (.error .compressionFailed) := by
  rw [syncFlushTurn, drive_fails h]

theorem syncFlushTurn_eq_ok {s last : σ × Output} :
    syncFlushTurn C A room s = .inl (.ok last) ↔ Answers C s.1 [] .sync (offered A room s.2) ∧
      produced C s.1 [] .sync (offered A room s.2) < offered A room s.2 ∧
      last = flushNext C A room s := by
  by_cases hanswers : Answers C s.1 [] .sync (offered A room s.2)
  · by_cases hspare : produced C s.1 [] .sync (offered A room s.2) < offered A room s.2
    · simp [syncFlushTurn_last hanswers hspare, hanswers, hspare, eq_comm]
    · simp [syncFlushTurn_round hanswers (Nat.le_of_not_lt hspare), hspare]
  · simp [syncFlushTurn_fault hanswers, hanswers]

theorem syncFlushTurn_eq_inr {s next : σ × Output} :
    syncFlushTurn C A room s = .inr next ↔ Answers C s.1 [] .sync (offered A room s.2) ∧
      offered A room s.2 ≤ produced C s.1 [] .sync (offered A room s.2) ∧
      next = flushNext C A room s := by
  by_cases hanswers : Answers C s.1 [] .sync (offered A room s.2)
  · by_cases hspare : produced C s.1 [] .sync (offered A room s.2) < offered A room s.2
    · simp [syncFlushTurn_last hanswers hspare, Nat.not_le_of_lt hspare]
    · have hfull := Nat.le_of_not_lt hspare
      simp [syncFlushTurn_round hanswers hfull, hanswers, hfull, eq_comm]
  · simp [syncFlushTurn_fault hanswers, hanswers]

theorem syncFlushTurn_fails_iff {s : σ × Output} :
    (∃ error, syncFlushTurn C A room s = .inl (.error error)) ↔
      ¬ Answers C s.1 [] .sync (offered A room s.2) := by
  by_cases hanswers : Answers C s.1 [] .sync (offered A room s.2)
  · by_cases hspare : produced C s.1 [] .sync (offered A room s.2) < offered A room s.2
    · simp [syncFlushTurn_last hanswers hspare, hanswers]
    · simp [syncFlushTurn_round hanswers (Nat.le_of_not_lt hspare), hanswers]
  · exact iff_of_true ⟨_, syncFlushTurn_fault hanswers⟩ hanswers

/-- `feed` answers exactly when every call it makes is as it has to be. -/
theorem feed_ok_iff {x : σ} {payload : Bytes} {output : Output} {last : σ × Output} :
    feed C A x payload output room = some (.ok last) ↔
      ∃ rounds, Feeds C A room ⟨x, payload, output⟩ rounds last := by
  unfold feed
  generalize (⟨x, payload, output⟩ : Feed σ) = s
  rw [Loop.run_eq_some_iff]
  constructor
  · intro ⟨final, hreaches, hlast⟩
    induction hreaches using Relation.ReflTransGen.head_induction_on with
    | refl =>
      obtain ⟨hempty, rfl⟩ := feedTurn_eq_ok.mp hlast
      exact ⟨[], .done hempty⟩
    | head hagain _ ih =>
      obtain ⟨rounds, hrounds⟩ := ih
      obtain ⟨hleft, hfeeding, rfl⟩ := feedTurn_eq_inr.mp hagain
      exact ⟨_, .round hleft hfeeding hrounds⟩
  · intro ⟨rounds, hrounds⟩
    induction hrounds with
    | @done s hempty => exact ⟨s, .refl, feedTurn_done hempty⟩
    | round hleft hfeeding _ ih =>
      obtain ⟨final, hreaches, hlast⟩ := ih
      exact ⟨final, .head (feedTurn_feeding hleft hfeeding) hreaches, hlast⟩

/-- `feed` fails exactly when it comes to a call that is not. -/
theorem feed_error_iff {x : σ} {payload : Bytes} {output : Output} :
    (∃ error, feed C A x payload output room = some (.error error)) ↔
      ∃ s, Loop.Reaches (feedTurn C A room) ⟨x, payload, output⟩ s ∧ s.input ≠ [] ∧
        ¬ Feeding C A room s := by
  simp only [feed, Loop.run_eq_some_iff, ← feedTurn_fails_iff]
  constructor
  · intro ⟨error, s, hreaches, hlast⟩
    exact ⟨s, hreaches, error, hlast⟩
  · intro ⟨s, hreaches, error, hlast⟩
    exact ⟨error, s, hreaches, hlast⟩

theorem syncFlush_ok_iff {s last : σ × Output} :
    syncFlush C A s.1 s.2 room = some (.ok last) ↔ ∃ rounds, Flushes C A room s rounds last := by
  show Loop.run (syncFlushTurn C A room) s = _ ↔ _
  rw [Loop.run_eq_some_iff]
  constructor
  · intro ⟨final, hreaches, hlast⟩
    induction hreaches using Relation.ReflTransGen.head_induction_on with
    | refl =>
      obtain ⟨hanswers, hspare, rfl⟩ := syncFlushTurn_eq_ok.mp hlast
      exact ⟨_, .last hanswers hspare⟩
    | head hagain _ ih =>
      obtain ⟨rounds, hrounds⟩ := ih
      obtain ⟨hanswers, hfull, rfl⟩ := syncFlushTurn_eq_inr.mp hagain
      exact ⟨_, .round hanswers hfull hrounds⟩
  · intro ⟨rounds, hrounds⟩
    induction hrounds with
    | @last s hanswers hspare => exact ⟨s, .refl, syncFlushTurn_last hanswers hspare⟩
    | round hanswers hfull _ ih =>
      obtain ⟨final, hreaches, hlast⟩ := ih
      exact ⟨final, .head (syncFlushTurn_round hanswers hfull) hreaches, hlast⟩

theorem syncFlush_error_iff {s : σ × Output} :
    (∃ error, syncFlush C A s.1 s.2 room = some (.error error)) ↔
      ∃ last, Loop.Reaches (syncFlushTurn C A room) s last ∧
        ¬ Answers C last.1 [] .sync (offered A room last.2) := by
  simp only [syncFlush, Loop.run_eq_some_iff, ← syncFlushTurn_fails_iff]
  constructor
  · intro ⟨error, last, hreaches, hlast⟩
    exact ⟨last, hreaches, error, hlast⟩
  · intro ⟨last, hreaches, error, hlast⟩
    exact ⟨error, last, hreaches, hlast⟩

end Loops

/-! ## The bytes of a chunk -/

section Chunks

variable {σ : Type} {C : Compress σ} {A : Allocator} {room : ℕ}

/-- What is fed is the input, each byte of it once and in order. -/
theorem Feeds.taken_eq {s : Feed σ} {rounds : List Exchange} {last : σ × Output}
    (h : Feeds C A room s rounds last) : took rounds = s.input := by
  induction h with
  | done hempty => exact hempty.symm
  | round _ _ _ ih =>
    rw [took_cons, ih]
    exact List.take_append_drop _ _

theorem reserve_bytes (output : Output) (additional : ℕ) :
    (output.reserve A additional).bytes = output.bytes := by
  unfold Output.reserve
  split <;> rfl

theorem written_bytes (output : Output) (call : Compressed σ (offered A room output)) :
    (written A room output call).bytes = output.bytes ++ call.appended :=
  congrArg (· ++ call.appended) (reserve_bytes output room)

theorem Feeds.bytes_eq {s : Feed σ} {rounds : List Exchange} {last : σ × Output}
    (h : Feeds C A room s rounds last) : last.2.bytes = s.output.bytes ++ gave rounds := by
  induction h with
  | done _ => exact (List.append_nil _).symm
  | @round s rounds last _ _ _ ih =>
    have hnext : (feedNext C A room s).output.bytes =
        s.output.bytes ++ (feedExchange C A room s).given := written_bytes _ _
    rw [gave_cons, ih, hnext, List.append_assoc]

theorem Flushes.taken_eq {s last : σ × Output} {rounds : List Exchange}
    (h : Flushes C A room s rounds last) : took rounds = [] := by
  induction h with
  | last _ _ => rfl
  | round _ _ _ ih => exact ih

theorem Flushes.bytes_eq {s last : σ × Output} {rounds : List Exchange}
    (h : Flushes C A room s rounds last) : last.2.bytes = s.2.bytes ++ gave rounds := by
  have hnext (s : σ × Output) : (flushNext C A room s).2.bytes =
      s.2.bytes ++ (flushCall C A room s).appended := written_bytes _ _
  induction h with
  | @last s _ _ =>
    rw [hnext, gave_cons]
    exact congrArg _ (List.append_nil _).symm
  | round _ _ _ ih => rw [gave_cons, ih, hnext, List.append_assoc]

/-- The compressor behind a feed is the one before it, some calls later. -/
theorem Feeds.descends {first : σ} {s : Feed σ} {rounds : List Exchange} {last : σ × Output}
    (h : Feeds C A room s rounds last) (hfirst : C.Descends first s.compressor) :
    C.Descends first last.1 := by
  induction h with
  | done _ => exact hfirst
  | round _ _ _ ih => exact ih (hfirst.call _ _ _)

theorem Flushes.descends {first : σ} {s last : σ × Output} {rounds : List Exchange}
    (h : Flushes C A room s rounds last) (hfirst : C.Descends first s.1) :
    C.Descends first last.1 := by
  induction h with
  | last _ _ => exact hfirst.call _ _ _
  | round _ _ _ ih => exact ih (hfirst.call _ _ _)

end Chunks

section Producing

variable {σ : Type} (C : Compress σ) (A : Allocator)

/-- All that passes between the encoder and the backend for one chunk. -/
inductive Exchanges (x : σ) (chunk : Bytes) : List Exchange → σ → Prop where
  | chunk {fed flushed : List Exchange} {s last : σ × Output} :
      Feeds C A (roomFor chunk.length) ⟨x, chunk, .new⟩ fed s →
      Flushes C A (roomFor chunk.length) s flushed last →
      Exchanges x chunk (fed ++ flushed) last.1

variable {C A} {x x' : σ} {chunk bytes : Bytes}

theorem Exchanges.taken_eq {rounds : List Exchange} (h : Exchanges C A x chunk rounds x') :
    took rounds = chunk := by
  obtain ⟨hfeeds, hflushes⟩ := h
  rw [took_append, hfeeds.taken_eq, hflushes.taken_eq, List.append_nil]

theorem Exchanges.descends {first : σ} {rounds : List Exchange}
    (h : Exchanges C A x chunk rounds x') (hfirst : C.Descends first x) :
    C.Descends first x' := by
  obtain ⟨hfeeds, hflushes⟩ := h
  exact hflushes.descends (hfeeds.descends hfirst)

/-- Steps 1 and 2 give what the backend gave. -/
theorem produceAligned_ok_iff :
    produceAligned C A x chunk = some (.ok (x', bytes)) ↔
      ∃ rounds, Exchanges C A x chunk rounds x' ∧ bytes = gave rounds := by
  constructor
  · intro h
    unfold produceAligned at h
    obtain ⟨answer, hfeed, h⟩ := Option.bind_eq_some_iff.mp h
    cases answer with
    | error error => cases h
    | ok s =>
      obtain ⟨answer', hflush, h⟩ := Option.bind_eq_some_iff.mp h
      cases answer' with
      | error error => cases h
      | ok last =>
        obtain ⟨rfl, rfl⟩ := Prod.mk.inj (Except.ok.inj (Option.some.inj h))
        obtain ⟨fed, hfed⟩ := feed_ok_iff.mp hfeed
        obtain ⟨flushed, hflushed⟩ := syncFlush_ok_iff.mp hflush
        refine ⟨fed ++ flushed, .chunk hfed hflushed, ?_⟩
        rw [hflushed.bytes_eq, hfed.bytes_eq, gave_append]
        rfl
  · intro ⟨rounds, hrounds, hbytes⟩
    obtain @⟨fed, flushed, s, last, hfed, hflushed⟩ := hrounds
    obtain rfl : last.2.bytes = bytes := by
      rw [hbytes, hflushed.bytes_eq, hfed.bytes_eq, gave_append]
      rfl
    unfold produceAligned
    refine Option.bind_eq_some_iff.mpr ⟨_, feed_ok_iff.mpr ⟨_, hfed⟩, ?_⟩
    exact Option.bind_eq_some_iff.mpr ⟨_, syncFlush_ok_iff.mpr ⟨_, hflushed⟩, rfl⟩

/-- They fail for what the backend did. -/
theorem produceAligned_error_iff :
    (∃ error, produceAligned C A x chunk = some (.error error)) ↔
      (∃ s, Loop.Reaches (feedTurn C A (roomFor chunk.length)) ⟨x, chunk, .new⟩ s ∧
        s.input ≠ [] ∧ ¬ Feeding C A (roomFor chunk.length) s) ∨
      ∃ fed s last, Feeds C A (roomFor chunk.length) ⟨x, chunk, .new⟩ fed s ∧
        Loop.Reaches (syncFlushTurn C A (roomFor chunk.length)) s last ∧
        ¬ Answers C last.1 [] .sync (offered A (roomFor chunk.length) last.2) := by
  constructor
  · intro ⟨error, h⟩
    unfold produceAligned at h
    obtain ⟨answer, hfeed, h⟩ := Option.bind_eq_some_iff.mp h
    cases answer with
    | error error' => exact Or.inl (feed_error_iff.mp ⟨error', hfeed⟩)
    | ok s =>
      obtain ⟨answer', hflush, h⟩ := Option.bind_eq_some_iff.mp h
      cases answer' with
      | error error' =>
        obtain ⟨fed, hfed⟩ := feed_ok_iff.mp hfeed
        obtain ⟨last, hreaches, hfault⟩ := syncFlush_error_iff.mp ⟨error', hflush⟩
        exact Or.inr ⟨fed, s, last, hfed, hreaches, hfault⟩
      | ok last => cases h
  · rintro (hfeeding | ⟨fed, s, last, hfed, hflushing⟩)
    · obtain ⟨error, hfeed⟩ := feed_error_iff.mpr hfeeding
      exact ⟨error, Option.bind_eq_some_iff.mpr ⟨_, hfeed, rfl⟩⟩
    · obtain ⟨error, hflush⟩ := syncFlush_error_iff.mpr ⟨last, hflushing⟩
      refine ⟨error, Option.bind_eq_some_iff.mpr ⟨_, feed_ok_iff.mpr ⟨_, hfed⟩, ?_⟩⟩
      exact Option.bind_eq_some_iff.mpr ⟨_, hflush, rfl⟩

end Producing

end WsPmd.Encoding
