import WsPmd.Encoder.Progress

/-!
# What a chunk costs

The encoder puts no ceiling on what a chunk comes to, so its loops go on for as long as the
backend emits. They go on for nothing else: over a backend that counts what it emits, a
chunk takes at most one call for each byte that moves and one more, and one that never
comes to its end is one for which the backend emits without end.
-/

namespace WsPmd.Encoding

open Grammar (Bytes)
open Library

section Counting

variable {σ : Type} (C : Compress σ) (A : Allocator)

/-- A backend that counts what it emits. -/
def CountsOut : Prop :=
  ∀ x input flush room, C.totalOut (C.compressVec x input flush room).state =
    C.totalOut x + (C.compressVec x input flush room).appended.length

/-- What there is of a chunk's output behind some turn of the two loops. -/
inductive Emits (x : σ) (chunk : Bytes) : Bytes → Prop where
  | feeding {s : Feed σ} :
      Loop.Reaches (feedTurn C A (roomFor chunk.length)) ⟨x, chunk, .new⟩ s →
      Emits x chunk s.output.bytes
  | flushing {fed : List Exchange} {s last : σ × Output} :
      Feeds C A (roomFor chunk.length) ⟨x, chunk, .new⟩ fed s →
      Loop.Reaches (syncFlushTurn C A (roomFor chunk.length)) s last →
      Emits x chunk last.2.bytes

/-- The backend emits without end. -/
def Floods (x : σ) (chunk : Bytes) : Prop :=
  ∀ bound, ∃ bytes, Emits C A x chunk bytes ∧ bound < bytes.length

variable {C A} {room : ℕ}

theorem CountsOut.produced_eq (hC : CountsOut C) (x : σ) (input : Bytes) (flush : FlushCompress)
    (room : ℕ) :
    produced C x input flush room = (C.compressVec x input flush room).appended.length := by
  rw [produced, hC]
  omega

/-- Every call of the feed loop moves a byte. -/
theorem CountsOut.feeding_moves (hC : CountsOut C) {s : Feed σ} (h : Feeding C A room s) :
    (feedNext C A room s).input.length + 1 ≤
      s.input.length + (feedCall C A room s).appended.length := by
  have hlength : (feedNext C A room s).input.length =
      s.input.length - consumed C s.compressor s.input .none (offered A room s.output) :=
    List.length_drop
  have hproduced : produced C s.compressor s.input .none (offered A room s.output) =
      (feedCall C A room s).appended.length := hC.produced_eq _ _ _ _
  have hwithin := h.within
  have hmoves := h.moves
  omega

theorem CountsOut.feeds (hC : CountsOut C) {s : Feed σ} {rounds : List Exchange}
    {last : σ × Output} (h : Feeds C A room s rounds last) :
    rounds.length ≤ s.input.length + (gave rounds).length := by
  induction h with
  | done _ => exact Nat.zero_le _
  | @round s rounds last _ hfeeding _ ih =>
    have hgiven : (feedExchange C A room s).given.length =
        (feedCall C A room s).appended.length := rfl
    have hmoves := hC.feeding_moves hfeeding
    rw [gave_cons, List.length_append, List.length_cons]
    omega

/-- Every call of the flush loop but the last fills its room. -/
theorem CountsOut.flush_fills (hC : CountsOut C) (hroom : 0 < room) {s : σ × Output}
    (hfull : offered A room s.2 ≤ produced C s.1 [] .sync (offered A room s.2)) :
    0 < (flushCall C A room s).appended.length := by
  have hproduced : produced C s.1 [] .sync (offered A room s.2) =
      (flushCall C A room s).appended.length := hC.produced_eq _ _ _ _
  have hoffered := le_offered A room s.2
  omega

theorem CountsOut.flushes (hC : CountsOut C) (hroom : 0 < room) {s last : σ × Output}
    {rounds : List Exchange} (h : Flushes C A room s rounds last) :
    rounds.length ≤ (gave rounds).length + 1 := by
  induction h with
  | last _ _ => exact Nat.le_add_left _ _
  | @round s last rounds _ hfull _ ih =>
    have hfills := hC.flush_fills hroom hfull
    rw [gave_cons, List.length_append, List.length_cons]
    show rounds.length + 1 ≤ (flushCall C A room s).appended.length + (gave rounds).length + 1
    omega

/-- **What a chunk costs**: a call for each byte that moved, and one. -/
theorem CountsOut.exchanges (hC : CountsOut C) {x x' : σ} {chunk : Bytes}
    {rounds : List Exchange} (h : Exchanges C A x chunk rounds x') :
    rounds.length ≤ chunk.length + (gave rounds).length + 1 := by
  obtain ⟨hfeeds, hflushes⟩ := h
  have hfed := hC.feeds hfeeds
  have hflushed := hC.flushes (roomFor_pos chunk.length) hflushes
  have hinput : (Feed.mk x chunk Output.new).input.length = chunk.length := rfl
  rw [gave_append, List.length_append, List.length_append]
  omega

/-! ## Chunks without end -/

/-- The feed loop ends exactly if it comes to so many bytes at most. -/
theorem CountsOut.feed_returns_iff (hC : CountsOut C) (x : σ) (chunk : Bytes) :
    (∃ answer, feed C A x chunk .new (roomFor chunk.length) = some answer) ↔
      ∃ bound, ∀ s, Loop.Reaches (feedTurn C A (roomFor chunk.length)) ⟨x, chunk, .new⟩ s →
        s.output.bytes.length ≤ bound := by
  have hagain : ∀ s next : Feed σ, s.input.length ≤ chunk.length →
      feedTurn C A (roomFor chunk.length) s = .inr next → next.input.length ≤ chunk.length ∧
        chunk.length - s.input.length + s.output.bytes.length <
          chunk.length - next.input.length + next.output.bytes.length := by
    intro s next hinv hturn
    obtain ⟨-, hfeeding, rfl⟩ := feedTurn_eq_inr.mp hturn
    have hmoves := hC.feeding_moves hfeeding
    have hbytes : (feedNext C A (roomFor chunk.length) s).output.bytes.length =
        s.output.bytes.length + (feedCall C A (roomFor chunk.length) s).appended.length :=
      (congrArg List.length (written_bytes _ _)).trans List.length_append
    have hdrop : (feedNext C A (roomFor chunk.length) s).input.length ≤ s.input.length :=
      (List.drop_sublist _ _).length_le
    omega
  refine (Loop.run_returns_iff _ _ hagain (Nat.le_refl chunk.length)).trans ?_
  constructor
  · intro ⟨bound, hbound⟩
    refine ⟨bound, fun s hreaches => ?_⟩
    have hgain := hbound s hreaches
    omega
  · intro ⟨bound, hbound⟩
    refine ⟨chunk.length + bound, fun s hreaches => ?_⟩
    have hbytes := hbound s hreaches
    omega

theorem CountsOut.flush_returns_iff (hC : CountsOut C) (hroom : 0 < room) (s : σ × Output) :
    (∃ answer, syncFlush C A s.1 s.2 room = some answer) ↔
      ∃ bound, ∀ last, Loop.Reaches (syncFlushTurn C A room) s last →
        last.2.bytes.length ≤ bound := by
  have hagain : ∀ s next : σ × Output, True → syncFlushTurn C A room s = .inr next →
      True ∧ s.2.bytes.length < next.2.bytes.length := by
    intro s next _ hturn
    obtain ⟨-, hfull, rfl⟩ := syncFlushTurn_eq_inr.mp hturn
    have hfills := hC.flush_fills hroom hfull
    have hbytes : (flushNext C A room s).2.bytes.length =
        s.2.bytes.length + (flushCall C A room s).appended.length :=
      (congrArg List.length (written_bytes _ _)).trans List.length_append
    exact ⟨trivial, by omega⟩
  exact Loop.run_returns_iff _ _ hagain trivial

/-- **A chunk comes to its end** exactly if the backend does not emit without end. -/
theorem CountsOut.aligned_returns_iff (hC : CountsOut C) (x : σ) (chunk : Bytes) :
    (∃ answer, produceAligned C A x chunk = some answer) ↔ ¬ Floods C A x chunk := by
  have hroom := roomFor_pos chunk.length
  constructor
  · intro ⟨answer, haligned⟩ hfloods
    obtain ⟨fed, hfeed, hrest⟩ := Option.bind_eq_some_iff.mp haligned
    obtain ⟨bound, hbound⟩ := (hC.feed_returns_iff x chunk).mp ⟨fed, hfeed⟩
    have hflushed : ∃ bound', ∀ rounds s last,
        Feeds C A (roomFor chunk.length) ⟨x, chunk, .new⟩ rounds s →
        Loop.Reaches (syncFlushTurn C A (roomFor chunk.length)) s last →
        last.2.bytes.length ≤ bound' := by
      cases fed with
      | error error =>
        refine ⟨0, fun rounds s last hrounds _ => ?_⟩
        cases hfeed.symm.trans (feed_ok_iff.mpr ⟨rounds, hrounds⟩)
      | ok s =>
        obtain ⟨flushed, hflush, -⟩ := Option.bind_eq_some_iff.mp hrest
        obtain ⟨bound', hbound'⟩ := (hC.flush_returns_iff hroom s).mp ⟨flushed, hflush⟩
        refine ⟨bound', fun rounds s' last hrounds hreaches => ?_⟩
        cases hfeed.symm.trans (feed_ok_iff.mpr ⟨rounds, hrounds⟩)
        exact hbound' last hreaches
    obtain ⟨bound', hbound'⟩ := hflushed
    obtain ⟨bytes, hemits, hmore⟩ := hfloods (bound + bound')
    cases hemits with
    | feeding hreaches =>
      have hle := hbound _ hreaches
      omega
    | flushing hrounds hreaches =>
      have hle := hbound' _ _ _ hrounds hreaches
      omega
  · intro hfloods
    obtain ⟨bound, hbound⟩ := Classical.not_forall.mp hfloods
    have hends {bytes : Bytes} (hemits : Emits C A x chunk bytes) : bytes.length ≤ bound :=
      Nat.le_of_not_lt fun hmore => hbound ⟨bytes, hemits, hmore⟩
    obtain ⟨fed, hfeed⟩ := (hC.feed_returns_iff x chunk).mpr
      ⟨bound, fun s hreaches => hends (.feeding hreaches)⟩
    cases fed with
    | error error => exact ⟨_, Option.bind_eq_some_iff.mpr ⟨_, hfeed, rfl⟩⟩
    | ok s =>
      obtain ⟨rounds, hrounds⟩ := feed_ok_iff.mp hfeed
      obtain ⟨flushed, hflush⟩ := (hC.flush_returns_iff hroom s).mpr
        ⟨bound, fun last hreaches => hends (.flushing hrounds hreaches)⟩
      cases flushed with
      | error error =>
        exact ⟨_, Option.bind_eq_some_iff.mpr ⟨_, hfeed,
          Option.bind_eq_some_iff.mpr ⟨_, hflush, rfl⟩⟩⟩
      | ok last =>
        exact ⟨_, Option.bind_eq_some_iff.mpr ⟨_, hfeed,
          Option.bind_eq_some_iff.mpr ⟨_, hflush, rfl⟩⟩⟩

theorem produce_returns_iff {x : σ} {chunk : Bytes} :
    (∃ answer, produce C A x chunk = some answer) ↔
      ∃ answer, produceAligned C A x chunk = some answer := by
  constructor
  · intro ⟨answer, h⟩
    obtain ⟨aligned, haligned, -⟩ := Option.bind_eq_some_iff.mp h
    exact ⟨aligned, haligned⟩
  · intro ⟨aligned, haligned⟩
    cases aligned with
    | error error => exact ⟨_, Option.bind_eq_some_iff.mpr ⟨_, haligned, rfl⟩⟩
    | ok last => exact ⟨_, Option.bind_eq_some_iff.mpr ⟨_, haligned, rfl⟩⟩

theorem produceNonFinal_returns_iff {x : σ} {chunk : Bytes} :
    (∃ answer, produceNonFinal C A x chunk = some answer) ↔
      ∃ answer, produceAligned C A x chunk = some answer := by
  constructor
  · intro ⟨answer, h⟩
    obtain ⟨aligned, haligned, -⟩ := Option.bind_eq_some_iff.mp h
    exact ⟨aligned, haligned⟩
  · intro ⟨aligned, haligned⟩
    cases aligned with
    | error error => exact ⟨_, Option.bind_eq_some_iff.mpr ⟨_, haligned, rfl⟩⟩
    | ok last =>
      by_cases hends : Ends chunk last.2
      · exact ⟨_, Option.bind_eq_some_iff.mpr ⟨_, haligned, if_pos hends⟩⟩
      · exact ⟨_, Option.bind_eq_some_iff.mpr ⟨_, haligned, if_neg hends⟩⟩

end Counting

/-! ## Whole runs -/

/-- The chunk of a call that gave a guard. -/
def guarded : Action × Reply → Option Bytes
  | (action, .guard) => action.chunk
  | _ => none

section Runs

variable {σ : Type} (C : Compress σ) (A : Allocator)

/-- A run, with the backend calls each of its chunks took. -/
inductive Charged : World σ → List (Action × Reply) → List (Bytes × List Exchange) →
    World σ → Prop where
  | done {world : World σ} : Charged world [] [] world
  | free {world next last : World σ} {action : Action} {reply : Reply}
      {events : List (Action × Reply)} {accounts : List (Bytes × List Exchange)} :
      step C A world action = some (reply, next) → guarded (action, reply) = none →
      Charged next events accounts last → Charged world ((action, reply) :: events) accounts last
  | chunk {world next last : World σ} {action : Action} {reply : Reply}
      {events : List (Action × Reply)} {accounts : List (Bytes × List Exchange)} {x x' : σ}
      {chunk : Bytes} {rounds : List Exchange} :
      step C A world action = some (reply, next) → guarded (action, reply) = some chunk →
      world.compressor = some x → Exchanges C A x chunk rounds x' → next.compressor = some x' →
      Charged next events accounts last →
      Charged world ((action, reply) :: events) ((chunk, rounds) :: accounts) last

variable {C A}

theorem Charged.chunks {world last : World σ} {events : List (Action × Reply)}
    {accounts : List (Bytes × List Exchange)} (h : Charged C A world events accounts last) :
    accounts.map Prod.fst = events.filterMap guarded := by
  induction h with
  | done => rfl
  | free _ hfree _ ih => rw [List.filterMap_cons_none hfree, ih]
  | chunk _ hchunk _ _ _ _ ih => rw [List.filterMap_cons_some hchunk, List.map_cons, ih]

theorem Charged.paid (hC : CountsOut C) {world last : World σ} {events : List (Action × Reply)}
    {accounts : List (Bytes × List Exchange)} (h : Charged C A world events accounts last) :
    (accounts.map fun account => account.2.length).sum ≤
      (accounts.map fun account => account.1.length + (gave account.2).length + 1).sum := by
  induction h with
  | done => exact Nat.le_refl 0
  | free _ _ _ ih => exact ih
  | chunk _ _ _ hexchanges _ _ ih =>
    rw [List.map_cons, List.map_cons, List.sum_cons, List.sum_cons]
    exact Nat.add_le_add (hC.exchanges hexchanges) ih

/-- What one call takes of the backend. -/
theorem step_charged {world next : World σ} {action : Action} {reply : Reply}
    (h : step C A world action = some (reply, next)) :
    guarded (action, reply) = none ∨ ∃ x x' chunk rounds, guarded (action, reply) = some chunk ∧
      world.compressor = some x ∧ Exchanges C A x chunk rounds x' ∧
      next.compressor = some x' := by
  cases stepped_of_step h with
  | prepareMessage hheld hproduce =>
    obtain ⟨output, haligned, -⟩ := produce_ok hproduce
    obtain ⟨rounds, hrounds, -⟩ := produceAligned_ok_iff.mp haligned
    exact Or.inr ⟨_, _, _, rounds, rfl, hheld, hrounds, rfl⟩
  | prepareNonFinalFragment hproduce =>
    obtain ⟨rounds, hrounds, -⟩ := produceAligned_ok_iff.mp (produceNonFinal_ok hproduce)
    exact Or.inr ⟨_, _, _, rounds, rfl, rfl, hrounds, rfl⟩
  | prepareFinalFragment hproduce =>
    obtain ⟨output, haligned, -⟩ := produce_ok hproduce
    obtain ⟨rounds, hrounds, -⟩ := produceAligned_ok_iff.mp haligned
    exact Or.inr ⟨_, _, _, rounds, rfl, rfl, hrounds, rfl⟩
  | _ => exact Or.inl rfl

theorem run_charged (actions : List Action) :
    ∀ {world last : World σ} {events : List (Action × Reply)},
      run C A world actions = some (events, last) →
      ∃ accounts, Charged C A world events accounts last := by
  induction actions with
  | nil =>
    intro world last events h
    obtain ⟨rfl, rfl⟩ := Prod.mk.inj (Option.some.inj h)
    exact ⟨[], .done⟩
  | cons action actions ih =>
    intro world last events h
    simp only [run, Option.bind_eq_bind, Option.bind_eq_some_iff] at h
    obtain ⟨⟨reply, mid⟩, hstep, ⟨more, final⟩, hmore, he⟩ := h
    obtain ⟨rfl, rfl⟩ := Prod.mk.inj (Option.some.inj he)
    obtain ⟨accounts, haccounts⟩ := ih hmore
    rcases step_charged hstep with hfree | ⟨x, x', chunk, rounds, hchunk, hx, hrounds, hx'⟩
    · exact ⟨accounts, .free hstep hfree haccounts⟩
    · exact ⟨(chunk, rounds) :: accounts, .chunk hstep hchunk hx hrounds hx' haccounts⟩

/-- A call that compresses a chunk returns exactly if the chunk comes to its end. -/
theorem step_chunk_returns_iff {world : World σ} {action : Action} {x : σ} {chunk : Bytes}
    (hhas : world.has action = true) (hx : world.compressor = some x)
    (hchunk : action.chunk = some chunk) :
    (∃ answer, step C A world action = some answer) ↔
      ∃ answer, produceAligned C A x chunk = some answer := by
  cases action with
  | prepareMessage payload =>
    cases world with
    | idle encoder =>
      obtain rfl := Option.some.inj hchunk
      have hheld : encoder.compressor = some x := hx
      rw [← produce_returns_iff]
      simp only [step, Encoder.prepareMessage, hheld]
      rcases produce C A x payload with _ | ⟨error | produced⟩
      · simp only [Option.bind_eq_bind, Option.bind_none, reduceCtorEq, exists_false]
      · exact iff_of_true ⟨_, rfl⟩ ⟨_, rfl⟩
      · exact iff_of_true ⟨_, rfl⟩ ⟨_, rfl⟩
    | _ => cases hhas
  | prepareNonFinalFragment payload =>
    cases world with
    | streaming stream =>
      obtain rfl := Option.some.inj hchunk
      obtain rfl := Option.some.inj hx
      rw [← produceNonFinal_returns_iff]
      simp only [step, StreamingMessage.prepareNonFinalFragment]
      rcases produceNonFinal C A stream.compressor payload with _ | ⟨error | produced⟩
      · simp only [Option.bind_eq_bind, Option.bind_none, reduceCtorEq, exists_false]
      · exact iff_of_true ⟨_, rfl⟩ ⟨_, rfl⟩
      · exact iff_of_true ⟨_, rfl⟩ ⟨_, rfl⟩
    | _ => cases hhas
  | prepareFinalFragment payload =>
    cases world with
    | streaming stream =>
      obtain rfl := Option.some.inj hchunk
      obtain rfl := Option.some.inj hx
      rw [← produce_returns_iff]
      simp only [step, StreamingMessage.prepareFinalFragment]
      rcases produce C A stream.compressor payload with _ | ⟨error | produced⟩
      · simp only [Option.bind_eq_bind, Option.bind_none, reduceCtorEq, exists_false]
      · exact iff_of_true ⟨_, rfl⟩ ⟨_, rfl⟩
      · exact iff_of_true ⟨_, rfl⟩ ⟨_, rfl⟩
    | _ => cases hhas
  | _ => cases hchunk

/-- A call that compresses nothing returns: there is no chunk to it, or no compressor. -/
theorem step_returns {world : World σ} {action : Action} (hhas : world.has action = true)
    (hnone : world.compressor = none ∨ action.chunk = none) :
    ∃ answer, step C A world action = some answer := by
  cases action with
  | prepareMessage payload =>
    cases world with
    | idle encoder =>
      have hvacant : encoder.compressor = none := hnone.resolve_right (Option.some_ne_none _)
      exact ⟨_, (Stepped.vacantMessage hvacant).step⟩
    | _ => cases hhas
  | beginStreamingMessage =>
    cases world with
    | idle encoder =>
      cases hheld : encoder.compressor with
      | none => exact ⟨_, (Stepped.vacantStream hheld).step⟩
      | some x => exact ⟨_, (Stepped.beginStreamingMessage hheld).step⟩
    | _ => cases hhas
  | prepareNonFinalFragment payload =>
    cases world with
    | streaming stream => rcases hnone with hnone | hnone <;> cases hnone
    | _ => cases hhas
  | prepareFinalFragment payload =>
    cases world with
    | streaming stream => rcases hnone with hnone | hnone <;> cases hnone
    | _ => cases hhas
  | commit =>
    cases world with
    | prepared guard => exact ⟨_, Stepped.commitMessage.step⟩
    | nonFinal fragment => exact ⟨_, Stepped.commitNonFinal.step⟩
    | final fragment => exact ⟨_, Stepped.commitFinal.step⟩
    | _ => cases hhas
  | resetToPlain =>
    cases world with
    | prepared guard => exact ⟨_, Stepped.resetToPlain.step⟩
    | _ => cases hhas
  | drop =>
    cases world with
    | idle encoder => cases hhas
    | _ => exact ⟨_, (Stepped.drop rfl).step⟩
  | leak =>
    cases world with
    | idle encoder => cases hhas
    | _ => exact ⟨_, (Stepped.leak rfl).step⟩

/-- A call the value at hand has returns exactly if the backend does not emit without end. -/
theorem CountsOut.step_returns_iff (hC : CountsOut C) {world : World σ} {action : Action}
    (hhas : world.has action = true) :
    (∃ answer, step C A world action = some answer) ↔
      ∀ x chunk, world.compressor = some x → action.chunk = some chunk →
        ¬ Floods C A x chunk := by
  constructor
  · intro h x chunk hx hchunk
    exact (hC.aligned_returns_iff x chunk).mp ((step_chunk_returns_iff hhas hx hchunk).mp h)
  · intro h
    cases hx : world.compressor with
    | none => exact step_returns hhas (Or.inl hx)
    | some x =>
      cases hchunk : action.chunk with
      | none => exact step_returns hhas (Or.inr hchunk)
      | some chunk =>
        exact (step_chunk_returns_iff hhas hx hchunk).mpr
          ((hC.aligned_returns_iff x chunk).mpr (h x chunk hx hchunk))

/-- **Every backend call is paid for by a byte.** Over any backend that counts what it
emits, whatever else it does: the chunks a run got a guard for took at most one call for
each byte of theirs and each byte of what came of them, and one for each chunk; and at any
point of the run a call the value at hand has returns exactly if the backend does not
answer its chunk with output without end. -/
theorem calls_paid_for (C : Compress σ) (A : Allocator) (hC : CountsOut C)
    {world last : World σ} {actions : List Action} {events : List (Action × Reply)}
    (hrun : run C A world actions = some (events, last)) :
    (∃ accounts, Charged C A world events accounts last ∧
      accounts.map Prod.fst = events.filterMap guarded ∧
      (accounts.map fun account => account.2.length).sum ≤
        (accounts.map fun account => account.1.length + (gave account.2).length + 1).sum) ∧
    ∀ action, last.has action = true → ((∃ answer, step C A last action = some answer) ↔
      ∀ x chunk, last.compressor = some x → action.chunk = some chunk →
        ¬ Floods C A x chunk) := by
  obtain ⟨accounts, haccounts⟩ := run_charged actions hrun
  exact ⟨⟨accounts, haccounts, haccounts.chunks, haccounts.paid hC⟩,
    fun action hhas => hC.step_returns_iff hhas⟩

end Runs

theorem storedCompress_countsOut : CountsOut storedCompress := by
  intro x input flush room
  cases flush with
  | none => rfl
  | sync => rfl

/-- What a message of one byte takes. -/
theorem calls_paid_for_stored :
    ∃ accounts, Charged storedCompress exactAllocator (.idle ⟨some ⟨[], [], 0, 0⟩, false⟩)
        [(.prepareMessage [0x61], .guard),
          (.commit, .message [0x00, 0x01, 0x00, 0xfe, 0xff, 0x61, 0x00])] accounts
        (.idle ⟨some ⟨[], [], 1, 11⟩, false⟩) ∧
      accounts.map Prod.fst = [[0x61]] := by
  obtain ⟨⟨accounts, hcharged, hchunks, -⟩, -⟩ :=
    calls_paid_for storedCompress exactAllocator storedCompress_countsOut stored_sends
  exact ⟨accounts, hcharged, hchunks⟩

end WsPmd.Encoding
