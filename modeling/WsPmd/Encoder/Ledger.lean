import WsPmd.Encoder.SyncFlush
import Mathlib.Data.List.DropRight

/-!
# The encoder is a replay of its ledger

The encoder and the four guards as one machine, which a host drives with the calls
each of them has, dropping and leaking included. What the host saw is a ledger of
transactions. While none of them was lost the compressor is where a fresh one gets
by the chunks committed since the last reset; once one was lost the encoder is
vacant, and stays so whatever the backend.
-/

namespace WsPmd.Encoding

open Grammar (Bytes)
open Library

/-- The encoder, or the guard that holds it. -/
inductive World (σ : Type) where
  | idle (encoder : Encoder σ)
  | prepared (guard : PreparedMessage σ)
  | streaming (stream : StreamingMessage σ)
  | nonFinal (fragment : PreparedNonFinalFragment σ)
  | final (fragment : PreparedFinalFragment σ)

inductive Action where
  | prepareMessage (payload : Bytes)
  | beginStreamingMessage
  | prepareNonFinalFragment (payload : Bytes)
  | prepareFinalFragment (payload : Bytes)
  | commit
  | resetToPlain
  | drop
  | leak
  deriving DecidableEq

inductive Reply where
  | guard
  | fragment (bytes : Bytes)
  | message (bytes : Bytes)
  | released
  | refused (error : CodecError)
  deriving DecidableEq

/-- The encoder a guard borrowed. It is what is left when the guard goes away. -/
def World.borrowed {σ : Type} : World σ → Option (Encoder σ)
  | .idle _ => none
  | .prepared guard => some guard.encoder
  | .streaming stream => some stream.encoder
  | .nonFinal fragment => some fragment.encoder
  | .final fragment => some fragment.encoder

section Steps

variable {σ : Type} (C : Compress σ) (A : Allocator)

/-- A call as the host makes it. There is no step for a call the value at hand does
not have, or one that never returns. -/
def step : World σ → Action → Option (Reply × World σ)
  | .idle encoder, .prepareMessage payload =>
    match encoder.prepareMessage C A payload with
    | some (.ok guard) => some (.guard, .prepared guard)
    | some (.error (error, encoder)) => some (.refused error, .idle encoder)
    | none => none
  | .idle encoder, .beginStreamingMessage =>
    match encoder.beginStreamingMessage with
    | .ok stream => some (.guard, .streaming stream)
    | .error (error, encoder) => some (.refused error, .idle encoder)
  | .streaming stream, .prepareNonFinalFragment payload =>
    match stream.prepareNonFinalFragment C A payload with
    | some (.ok fragment) => some (.guard, .nonFinal fragment)
    | some (.error (error, encoder)) => some (.refused error, .idle encoder)
    | none => none
  | .streaming stream, .prepareFinalFragment payload =>
    match stream.prepareFinalFragment C A payload with
    | some (.ok fragment) => some (.guard, .final fragment)
    | some (.error (error, encoder)) => some (.refused error, .idle encoder)
    | none => none
  | .prepared guard, .commit => some (.message (guard.commit C).1, .idle (guard.commit C).2)
  | .nonFinal fragment, .commit => some (.fragment fragment.commit.1, .streaming fragment.commit.2)
  | .final fragment, .commit => some (.message (fragment.commit C).1, .idle (fragment.commit C).2)
  | .prepared guard, .resetToPlain => some (.released, .idle (guard.resetToPlain C))
  | world, .drop => world.borrowed.map fun encoder => (.released, .idle encoder)
  -- A leak ends the borrow as a drop does, without running anything.
  | world, .leak => world.borrowed.map fun encoder => (.released, .idle encoder)
  | _, _ => none

/-- A run, with what the host called and what it got. -/
def run (world : World σ) : List Action → Option (List (Action × Reply) × World σ)
  | [] => some ([], world)
  | action :: actions => do
    let (reply, world) ← step C A world action
    let (events, world) ← run world actions
    some ((action, reply) :: events, world)

/-- The compressor after these chunks: each of them fed, then sync flushed. -/
def replay (compressor : σ) : List Bytes → Option σ
  | [] => some compressor
  | chunk :: chunks =>
    match produceAligned C A compressor chunk with
    | some (.ok (compressor, _)) => replay compressor chunks
    | _ => none

/-- The same, call by call: each chunk is fed without a flush until it is taken, and then
sync flushed until a flush leaves room to spare. -/
inductive Replays : σ → List Bytes → σ → Prop where
  | nil (compressor : σ) : Replays compressor [] compressor
  | chunk {compressor next last : σ} {chunk : Bytes} {chunks : List Bytes}
      {rounds : List Exchange} :
      Exchanges C A compressor chunk rounds next → Replays next chunks last →
      Replays compressor (chunk :: chunks) last

end Steps

/-! ## The ledger -/

/-- How a transaction was resolved, if it was. -/
inductive Transaction where
  | committed (chunks : List Bytes)
  | plain
  | lost
  deriving DecidableEq

def Transaction.chunks : Transaction → List Bytes
  | committed chunks => chunks
  | plain => []
  | lost => []

def Transaction.isCommitted : Transaction → Bool
  | committed _ => true
  | plain => false
  | lost => false

/-- The transactions so far, and the chunks of the one in progress. -/
structure Ledger where
  closed : List Transaction
  opened : List Bytes
  deriving DecidableEq

namespace Ledger

def empty : Ledger := ⟨[], []⟩

def close (ledger : Ledger) (transaction : Transaction) : Ledger :=
  ⟨ledger.closed ++ [transaction], []⟩

/-- What the ledger makes of one call and its answer. -/
def record (ledger : Ledger) : Action × Reply → Ledger
  | (_, .refused _) => ledger.close .lost
  | (.prepareMessage payload, _) => { ledger with opened := [payload] }
  | (.beginStreamingMessage, _) => { ledger with opened := [] }
  | (.prepareNonFinalFragment payload, _) => { ledger with opened := ledger.opened ++ [payload] }
  | (.prepareFinalFragment payload, _) => { ledger with opened := ledger.opened ++ [payload] }
  | (.commit, .message _) => ledger.close (.committed ledger.opened)
  | (.commit, _) => ledger
  | (.resetToPlain, _) => ledger.close .plain
  | (.drop, _) => ledger.close .lost
  | (.leak, _) => ledger.close .lost

def ofEvents (events : List (Action × Reply)) : Ledger := events.foldl record empty

/-- The chunks of the messages committed since the last reset. Without context
takeover every commit is followed by one. -/
def sinceReset (ledger : Ledger) (noContextTakeover : Bool) : List Bytes :=
  if noContextTakeover then []
  else (ledger.closed.rtakeWhile Transaction.isCommitted).flatMap Transaction.chunks

theorem sinceReset_commit (ledger : Ledger) (noContextTakeover : Bool) :
    (ledger.close (.committed ledger.opened)).sinceReset noContextTakeover =
      if noContextTakeover then [] else ledger.sinceReset false ++ ledger.opened := by
  unfold sinceReset close
  rw [List.rtakeWhile_concat_pos _ _ _ rfl, List.flatMap_append, List.flatMap_singleton]
  rfl

theorem sinceReset_plain (ledger : Ledger) (noContextTakeover : Bool) :
    (ledger.close .plain).sinceReset noContextTakeover = [] := by
  unfold sinceReset close
  rw [List.rtakeWhile_concat_neg _ _ _ Bool.false_ne_true]
  exact ite_self []

theorem lost_mem_close (ledger : Ledger) : .lost ∈ (ledger.close .lost).closed :=
  List.mem_append_right _ List.mem_cons_self

theorem lost_not_mem_close {ledger : Ledger} (h : .lost ∉ ledger.closed) {transaction : Transaction}
    (hne : transaction ≠ .lost) : .lost ∉ (ledger.close transaction).closed := by
  intro hmem
  rcases List.mem_append.mp hmem with hmem | hmem
  · exact h hmem
  · exact hne (List.mem_singleton.mp hmem).symm

end Ledger

/-! ## What the producers leave -/

section Producers

variable {σ : Type} {C : Compress σ} {A : Allocator} {compressor next : σ} {payload bytes : Bytes}

theorem produce_ok (h : produce C A compressor payload = some (.ok (next, bytes))) :
    ∃ output, produceAligned C A compressor payload = some (.ok (next, output)) ∧
      stripOrSynthesize payload output = .ok bytes := by
  unfold produce at h
  obtain ⟨answer, haligned, h⟩ := Option.bind_eq_some_iff.mp h
  cases answer with
  | error error => cases h
  | ok pair =>
    obtain ⟨next', output⟩ := pair
    simp only at h
    cases hstrip : stripOrSynthesize payload output with
    | error error =>
      rw [hstrip] at h
      cases h
    | ok message =>
      rw [hstrip] at h
      obtain ⟨rfl, rfl⟩ := Prod.mk.inj (Except.ok.inj (Option.some.inj h))
      exact ⟨output, haligned, hstrip⟩

theorem produceNonFinal_ok (h : produceNonFinal C A compressor payload = some (.ok (next, bytes))) :
    produceAligned C A compressor payload = some (.ok (next, bytes)) := by
  unfold produceNonFinal at h
  obtain ⟨answer, haligned, h⟩ := Option.bind_eq_some_iff.mp h
  cases answer with
  | error error => cases h
  | ok pair =>
    obtain ⟨next', output⟩ := pair
    simp only at h
    split at h
    · obtain ⟨rfl, rfl⟩ := Prod.mk.inj (Except.ok.inj (Option.some.inj h))
      exact haligned
    · cases h

/-- A whole-message guard: the compressor that was held has processed the payload. -/
theorem prepareMessage_ok {encoder : Encoder σ} {guard : PreparedMessage σ}
    (h : encoder.prepareMessage C A payload = some (.ok guard)) :
    ∃ compressor output, encoder.compressor = some compressor ∧
      produceAligned C A compressor payload = some (.ok (guard.compressor, output)) ∧
      stripOrSynthesize payload output = .ok guard.bytes ∧ guard.encoder = encoder.vacated := by
  unfold Encoder.prepareMessage at h
  cases hc : encoder.compressor with
  | none =>
    rw [hc] at h
    cases h
  | some compressor =>
    rw [hc] at h
    obtain ⟨answer, hproduce, h⟩ := Option.bind_eq_some_iff.mp h
    cases answer with
    | error error => cases h
    | ok pair =>
      obtain ⟨next, bytes⟩ := pair
      obtain rfl := Except.ok.inj (Option.some.inj h)
      obtain ⟨output, haligned, hstrip⟩ := produce_ok hproduce
      exact ⟨compressor, output, rfl, haligned, hstrip, rfl⟩

/-- A refused whole message leaves the encoder vacant. -/
theorem prepareMessage_error {encoder after : Encoder σ} {error : CodecError}
    (h : encoder.prepareMessage C A payload = some (.error (error, after))) :
    after = encoder.vacated := by
  unfold Encoder.prepareMessage at h
  cases hc : encoder.compressor with
  | none =>
    rw [hc] at h
    obtain ⟨-, rfl⟩ := Prod.mk.inj (Except.error.inj (Option.some.inj h))
    rw [Encoder.vacated, ← hc]
  | some compressor =>
    rw [hc] at h
    obtain ⟨answer, -, h⟩ := Option.bind_eq_some_iff.mp h
    cases answer with
    | error error' =>
      obtain ⟨-, rfl⟩ := Prod.mk.inj (Except.error.inj (Option.some.inj h))
      rfl
    | ok pair => cases h

theorem prepareNonFinalFragment_ok {stream : StreamingMessage σ}
    {fragment : PreparedNonFinalFragment σ}
    (h : stream.prepareNonFinalFragment C A payload = some (.ok fragment)) :
    produceAligned C A stream.compressor payload =
        some (.ok (fragment.compressor, fragment.bytes)) ∧
      fragment.encoder = stream.encoder := by
  unfold StreamingMessage.prepareNonFinalFragment at h
  obtain ⟨answer, hproduce, h⟩ := Option.bind_eq_some_iff.mp h
  cases answer with
  | error error => cases h
  | ok pair =>
    obtain rfl := Except.ok.inj (Option.some.inj h)
    exact ⟨produceNonFinal_ok hproduce, rfl⟩

theorem prepareNonFinalFragment_error {stream : StreamingMessage σ} {after : Encoder σ}
    {error : CodecError}
    (h : stream.prepareNonFinalFragment C A payload = some (.error (error, after))) :
    after = stream.encoder := by
  unfold StreamingMessage.prepareNonFinalFragment at h
  obtain ⟨answer, -, h⟩ := Option.bind_eq_some_iff.mp h
  cases answer with
  | error error' => exact (Prod.mk.inj (Except.error.inj (Option.some.inj h))).2.symm
  | ok pair => cases h

theorem prepareFinalFragment_ok {stream : StreamingMessage σ} {fragment : PreparedFinalFragment σ}
    (h : stream.prepareFinalFragment C A payload = some (.ok fragment)) :
    ∃ output, produceAligned C A stream.compressor payload =
        some (.ok (fragment.compressor, output)) ∧
      stripOrSynthesize payload output = .ok fragment.bytes ∧
      fragment.encoder = stream.encoder := by
  unfold StreamingMessage.prepareFinalFragment at h
  obtain ⟨answer, hproduce, h⟩ := Option.bind_eq_some_iff.mp h
  cases answer with
  | error error => cases h
  | ok pair =>
    obtain ⟨next, bytes⟩ := pair
    obtain rfl := Except.ok.inj (Option.some.inj h)
    obtain ⟨output, haligned, hstrip⟩ := produce_ok hproduce
    exact ⟨output, haligned, hstrip, rfl⟩

theorem prepareFinalFragment_error {stream : StreamingMessage σ} {after : Encoder σ}
    {error : CodecError}
    (h : stream.prepareFinalFragment C A payload = some (.error (error, after))) :
    after = stream.encoder := by
  unfold StreamingMessage.prepareFinalFragment at h
  obtain ⟨answer, -, h⟩ := Option.bind_eq_some_iff.mp h
  cases answer with
  | error error' => exact (Prod.mk.inj (Except.error.inj (Option.some.inj h))).2.symm
  | ok pair => cases h

theorem replay_concat {start : σ} {chunks : List Bytes} {output : Bytes}
    (h : replay C A start chunks = some compressor)
    (haligned : produceAligned C A compressor payload = some (.ok (next, output))) :
    replay C A start (chunks ++ [payload]) = some next := by
  induction chunks generalizing start with
  | nil =>
    obtain rfl := Option.some.inj h
    rw [List.nil_append, replay, haligned]
    rfl
  | cons chunk chunks ih =>
    rw [replay] at h
    rw [List.cons_append, replay]
    split at h
    · exact ih h
    · cases h

theorem replay_eq_some_iff {chunks : List Bytes} :
    ∀ {start : σ}, replay C A start chunks = some compressor ↔
      Replays C A start chunks compressor := by
  induction chunks with
  | nil =>
    intro start
    constructor
    · intro h
      obtain rfl := Option.some.inj h
      exact .nil start
    · intro h
      cases h
      rfl
  | cons chunk chunks ih =>
    intro start
    rw [replay]
    constructor
    · intro h
      split at h
      · next hproduced =>
        obtain ⟨rounds, hrounds, -⟩ := produceAligned_ok_iff.mp hproduced
        exact .chunk hrounds (ih.mp h)
      · cases h
    · intro h
      cases h with
      | chunk hrounds hrest =>
        rw [produceAligned_ok_iff.mpr ⟨_, hrounds, rfl⟩]
        exact ih.mpr hrest

/-- A replay is calls on the compressor it starts from. -/
theorem replay_descends {first start : σ} {chunks : List Bytes}
    (h : replay C A start chunks = some compressor) (hstart : C.Descends first start) :
    C.Descends first compressor := by
  have hreplays := replay_eq_some_iff.mp h
  clear h
  induction hreplays with
  | nil => exact hstart
  | chunk hrounds _ ih => exact ih (hrounds.descends hstart)

end Producers

/-! ## The invariant -/

section Books

variable {σ : Type} (C : Compress σ) (A : Allocator) (start : σ) (reset : Bool)

/-- A compressor on loan from the encoder: nothing was lost so far, and it has
processed the chunks of the message in progress behind those of the ledger. -/
structure OnLoan (encoder : Encoder σ) (compressor : σ) (ledger : Ledger) : Prop where
  vacant : encoder = ⟨none, reset⟩
  kept : .lost ∉ ledger.closed
  replayed : replay C A start (ledger.sinceReset reset ++ ledger.opened) = some compressor

/-- An encoder without a guard: vacant if a transaction was lost, and if none was
with the compressor the ledger replays to. -/
structure AtRest (encoder : Encoder σ) (ledger : Ledger) : Prop where
  setting : encoder.resetBetweenMessages = reset
  held : (encoder.compressor = none ∧ .lost ∈ ledger.closed) ∨
    (.lost ∉ ledger.closed ∧ ∃ compressor, encoder.compressor = some compressor ∧
      replay C A start (ledger.sinceReset reset) = some compressor)

def Books : World σ → Ledger → Prop
  | .idle encoder, ledger => AtRest C A start reset encoder ledger
  | .prepared guard, ledger => OnLoan C A start reset guard.encoder guard.compressor ledger
  | .streaming stream, ledger => OnLoan C A start reset stream.encoder stream.compressor ledger
  | .nonFinal fragment, ledger =>
    OnLoan C A start reset fragment.encoder fragment.compressor ledger
  | .final fragment, ledger => OnLoan C A start reset fragment.encoder fragment.compressor ledger

end Books

section Run

variable {σ : Type} {C : Compress σ} {A : Allocator} {start : σ} {reset : Bool}

/-- A vacant encoder, behind a transaction nobody resolved. -/
theorem AtRest.lost {encoder : Encoder σ} (hsetting : encoder.resetBetweenMessages = reset)
    (hnone : encoder.compressor = none) (ledger : Ledger) :
    AtRest C A start reset encoder (ledger.close .lost) :=
  ⟨hsetting, Or.inl ⟨hnone, ledger.lost_mem_close⟩⟩

/-- An abandoned guard leaves a vacant encoder. -/
theorem OnLoan.lose {encoder : Encoder σ} {compressor : σ} {ledger : Ledger}
    (h : OnLoan C A start reset encoder compressor ledger) :
    AtRest C A start reset encoder (ledger.close .lost) := by
  rw [h.vacant]
  apply AtRest.lost <;> rfl

/-- Another chunk of the message in progress. -/
theorem OnLoan.chunk {encoder : Encoder σ} {compressor next : σ} {ledger : Ledger}
    {payload output : Bytes} (h : OnLoan C A start reset encoder compressor ledger)
    (haligned : produceAligned C A compressor payload = some (.ok (next, output))) :
    OnLoan C A start reset encoder next { ledger with opened := ledger.opened ++ [payload] } := by
  refine ⟨h.vacant, h.kept, ?_⟩
  rw [← List.append_assoc]
  exact replay_concat h.replayed haligned

/-- A message that is over: the compressor goes back, started over if the agreement
says so. -/
theorem OnLoan.commit (hreset : ∀ x, C.Descends start x → C.reset x = start)
    {encoder : Encoder σ} {compressor : σ} {ledger : Ledger}
    (h : OnLoan C A start reset encoder compressor ledger) :
    AtRest C A start reset (encoder.restore C compressor)
      (ledger.close (.committed ledger.opened)) := by
  rw [h.vacant]
  refine ⟨rfl, Or.inr ⟨Ledger.lost_not_mem_close h.kept nofun, _, rfl, ?_⟩⟩
  rw [Ledger.sinceReset_commit]
  have hreplayed := h.replayed
  cases reset with
  | false => exact hreplayed
  | true =>
    have hdescends := replay_descends hreplayed .first
    simp only [if_true, hreset compressor hdescends]
    rfl

theorem OnLoan.plain (hreset : ∀ x, C.Descends start x → C.reset x = start)
    {encoder : Encoder σ} {compressor : σ} {ledger : Ledger}
    (h : OnLoan C A start reset encoder compressor ledger) :
    AtRest C A start reset { encoder with compressor := some (C.reset compressor) }
      (ledger.close .plain) := by
  rw [h.vacant]
  refine ⟨rfl, Or.inr ⟨Ledger.lost_not_mem_close h.kept nofun, _, rfl, ?_⟩⟩
  rw [Ledger.sinceReset_plain, hreset compressor (replay_descends h.replayed .first)]
  rfl

/-- What taking the compressor out of the encoder gives. -/
theorem AtRest.take {encoder : Encoder σ} {ledger : Ledger} {compressor : σ}
    (h : AtRest C A start reset encoder ledger) (hsome : encoder.compressor = some compressor) :
    OnLoan C A start reset encoder.vacated compressor { ledger with opened := [] } := by
  rcases h.held with ⟨hnone, -⟩ | ⟨hkept, x, hx, hreplay⟩
  · rw [hsome] at hnone
    cases hnone
  · rw [hsome] at hx
    obtain rfl := Option.some.inj hx
    refine ⟨?_, hkept, ?_⟩
    · rw [Encoder.vacated, h.setting]
    · rw [List.append_nil]
      exact hreplay

/-- Whatever guard is abandoned, the encoder it borrowed is left vacant. -/
theorem Books.abandon {world : World σ} {encoder : Encoder σ} {ledger : Ledger}
    (h : Books C A start reset world ledger) (hborrowed : world.borrowed = some encoder) :
    AtRest C A start reset encoder (ledger.close .lost) := by
  cases world with
  | idle encoder' => cases hborrowed
  | prepared guard =>
    obtain rfl := Option.some.inj hborrowed
    exact OnLoan.lose h
  | streaming stream =>
    obtain rfl := Option.some.inj hborrowed
    exact OnLoan.lose h
  | nonFinal fragment =>
    obtain rfl := Option.some.inj hborrowed
    exact OnLoan.lose h
  | final fragment =>
    obtain rfl := Option.some.inj hborrowed
    exact OnLoan.lose h

theorem step_drop (world : World σ) : step C A world .drop =
    world.borrowed.map fun encoder => (.released, .idle encoder) := by
  cases world <;> rfl

theorem step_leak (world : World σ) : step C A world .leak =
    world.borrowed.map fun encoder => (.released, .idle encoder) := by
  cases world <;> rfl

/-- **One call keeps the books.** -/
theorem step_books (hreset : ∀ x, C.Descends start x → C.reset x = start)
    {world world' : World σ} {action : Action} {reply : Reply} {ledger : Ledger}
    (h : Books C A start reset world ledger)
    (hstep : step C A world action = some (reply, world')) :
    Books C A start reset world' (ledger.record (action, reply)) := by
  cases action with
  | prepareMessage payload =>
    cases world with
    | idle encoder =>
      have hrest : AtRest C A start reset encoder ledger := h
      simp only [step] at hstep
      split at hstep
      · next guard hguard =>
        obtain ⟨rfl, rfl⟩ := Prod.mk.inj (Option.some.inj hstep)
        obtain ⟨compressor, output, hsome, haligned, -, hencoder⟩ := prepareMessage_ok hguard
        have hloan := (hrest.take hsome).chunk haligned
        rw [← hencoder] at hloan
        exact hloan
      · next error after hrefused =>
        obtain ⟨rfl, rfl⟩ := Prod.mk.inj (Option.some.inj hstep)
        obtain rfl := prepareMessage_error hrefused
        have hsetting : encoder.vacated.resetBetweenMessages = reset := hrest.setting
        exact .lost hsetting rfl ledger
      · cases hstep
    | _ => cases hstep
  | beginStreamingMessage =>
    cases world with
    | idle encoder =>
      have hrest : AtRest C A start reset encoder ledger := h
      simp only [step, Encoder.beginStreamingMessage] at hstep
      cases hsome : encoder.compressor with
      | none =>
        rw [hsome] at hstep
        obtain ⟨rfl, rfl⟩ := Prod.mk.inj (Option.some.inj hstep)
        exact .lost hrest.setting hsome ledger
      | some compressor =>
        rw [hsome] at hstep
        obtain ⟨rfl, rfl⟩ := Prod.mk.inj (Option.some.inj hstep)
        exact hrest.take hsome
    | _ => cases hstep
  | prepareNonFinalFragment payload =>
    cases world with
    | streaming stream =>
      have hloan : OnLoan C A start reset stream.encoder stream.compressor ledger := h
      simp only [step] at hstep
      split at hstep
      · next fragment hfragment =>
        obtain ⟨rfl, rfl⟩ := Prod.mk.inj (Option.some.inj hstep)
        obtain ⟨haligned, hencoder⟩ := prepareNonFinalFragment_ok hfragment
        rw [← hencoder] at hloan
        exact hloan.chunk haligned
      · next error after hrefused =>
        obtain ⟨rfl, rfl⟩ := Prod.mk.inj (Option.some.inj hstep)
        obtain rfl := prepareNonFinalFragment_error hrefused
        exact hloan.lose
      · cases hstep
    | _ => cases hstep
  | prepareFinalFragment payload =>
    cases world with
    | streaming stream =>
      have hloan : OnLoan C A start reset stream.encoder stream.compressor ledger := h
      simp only [step] at hstep
      split at hstep
      · next fragment hfragment =>
        obtain ⟨rfl, rfl⟩ := Prod.mk.inj (Option.some.inj hstep)
        obtain ⟨output, haligned, -, hencoder⟩ := prepareFinalFragment_ok hfragment
        rw [← hencoder] at hloan
        exact hloan.chunk haligned
      · next error after hrefused =>
        obtain ⟨rfl, rfl⟩ := Prod.mk.inj (Option.some.inj hstep)
        obtain rfl := prepareFinalFragment_error hrefused
        exact hloan.lose
      · cases hstep
    | _ => cases hstep
  | commit =>
    cases world with
    | prepared guard =>
      obtain ⟨rfl, rfl⟩ := Prod.mk.inj (Option.some.inj hstep)
      exact OnLoan.commit hreset h
    | nonFinal fragment =>
      -- Between fragments the compressor changes hands and nothing is settled.
      obtain ⟨rfl, rfl⟩ := Prod.mk.inj (Option.some.inj hstep)
      exact h
    | final fragment =>
      obtain ⟨rfl, rfl⟩ := Prod.mk.inj (Option.some.inj hstep)
      exact OnLoan.commit hreset h
    | _ => cases hstep
  | resetToPlain =>
    cases world with
    | prepared guard =>
      obtain ⟨rfl, rfl⟩ := Prod.mk.inj (Option.some.inj hstep)
      exact OnLoan.plain hreset h
    | _ => cases hstep
  | drop =>
    rw [step_drop] at hstep
    obtain ⟨encoder, hborrowed, he⟩ := Option.map_eq_some_iff.mp hstep
    obtain ⟨rfl, rfl⟩ := Prod.mk.inj he
    exact h.abandon hborrowed
  | leak =>
    rw [step_leak] at hstep
    obtain ⟨encoder, hborrowed, he⟩ := Option.map_eq_some_iff.mp hstep
    obtain ⟨rfl, rfl⟩ := Prod.mk.inj he
    exact h.abandon hborrowed

theorem run_cons {world mid last : World σ} {action : Action} {reply : Reply}
    {actions : List Action} {events : List (Action × Reply)}
    (hstep : step C A world action = some (reply, mid))
    (hrun : run C A mid actions = some (events, last)) :
    run C A world (action :: actions) = some ((action, reply) :: events, last) := by
  simp only [run, hstep, hrun, Option.bind_eq_bind, Option.bind_some]

theorem run_append {actions actions' : List Action} {mid last : World σ}
    {events' : List (Action × Reply)} (hlater : run C A mid actions' = some (events', last)) :
    ∀ {world : World σ} {events : List (Action × Reply)},
      run C A world actions = some (events, mid) →
      run C A world (actions ++ actions') = some (events ++ events', last) := by
  induction actions with
  | nil =>
    intro world events h
    obtain ⟨rfl, rfl⟩ := Prod.mk.inj (Option.some.inj h)
    exact hlater
  | cons action actions ih =>
    intro world events h
    simp only [run, Option.bind_eq_bind, Option.bind_eq_some_iff] at h
    obtain ⟨⟨reply, next⟩, hstep, ⟨more, last'⟩, hmore, he⟩ := h
    obtain ⟨rfl, rfl⟩ := Prod.mk.inj (Option.some.inj he)
    exact run_cons hstep (ih hmore)

theorem run_books (hreset : ∀ x, C.Descends start x → C.reset x = start) (actions : List Action) :
    ∀ {world world' : World σ} {ledger : Ledger} {events : List (Action × Reply)},
      Books C A start reset world ledger → run C A world actions = some (events, world') →
      Books C A start reset world' (events.foldl Ledger.record ledger) := by
  induction actions with
  | nil =>
    intro world world' ledger events h hrun
    obtain ⟨rfl, rfl⟩ := Prod.mk.inj (Option.some.inj hrun)
    exact h
  | cons action actions ih =>
    intro world world' ledger events h hrun
    simp only [run, Option.bind_eq_bind, Option.bind_eq_some_iff] at hrun
    obtain ⟨⟨reply, mid⟩, hstep, ⟨more, last⟩, hmore, he⟩ := hrun
    obtain ⟨rfl, rfl⟩ := Prod.mk.inj (Option.some.inj he)
    have hbooks := ih (step_books hreset h hstep) hmore
    exact hbooks

/-- A vacant encoder refuses whatever it can be asked, without a backend. -/
theorem vacant_step {encoder : Encoder σ} (hnone : encoder.compressor = none) {world' : World σ}
    {action : Action} {reply : Reply}
    (hstep : step C A (.idle encoder) action = some (reply, world')) :
    reply = .refused .poisoned ∧ world' = .idle encoder := by
  cases action with
  | prepareMessage payload =>
    simp only [step, Encoder.prepareMessage, hnone] at hstep
    obtain ⟨rfl, rfl⟩ := Prod.mk.inj (Option.some.inj hstep)
    exact ⟨rfl, rfl⟩
  | beginStreamingMessage =>
    simp only [step, Encoder.beginStreamingMessage, hnone] at hstep
    obtain ⟨rfl, rfl⟩ := Prod.mk.inj (Option.some.inj hstep)
    exact ⟨rfl, rfl⟩
  | _ => cases hstep

theorem vacant_run {encoder : Encoder σ} (hnone : encoder.compressor = none)
    (actions : List Action) :
    ∀ {world' : World σ} {events : List (Action × Reply)},
      run C A (.idle encoder) actions = some (events, world') →
      world' = .idle encoder ∧ ∀ event ∈ events, event.2 = .refused .poisoned := by
  induction actions with
  | nil =>
    intro world' events hrun
    obtain ⟨rfl, rfl⟩ := Prod.mk.inj (Option.some.inj hrun)
    exact ⟨rfl, nofun⟩
  | cons action actions ih =>
    intro world' events hrun
    simp only [run, Option.bind_eq_bind, Option.bind_eq_some_iff] at hrun
    obtain ⟨⟨reply, mid⟩, hstep, ⟨more, last⟩, hmore, he⟩ := hrun
    obtain ⟨rfl, rfl⟩ := Prod.mk.inj (Option.some.inj he)
    obtain ⟨rfl, rfl⟩ := vacant_step hnone hstep
    obtain ⟨hlast, hevents⟩ := ih hmore
    exact ⟨hlast, List.forall_mem_cons.mpr ⟨rfl, hevents⟩⟩

theorem forAgreement_some {negotiated : Negotiated} {config : EncoderConfig} {encoder : Encoder σ}
    (h : Encoder.forAgreement C negotiated config = some encoder) :
    encoder = ⟨some (C.newWithWindowBits config.level false negotiated.localMaxWindowBits),
      negotiated.localNoContextTakeover⟩ := by
  obtain ⟨compressor, hcompressor, he⟩ := Option.bind_eq_some_iff.mp h
  unfold CompressorConfig.build at hcompressor
  split at hcompressor
  · obtain rfl := Option.some.inj hcompressor
    exact (Option.some.inj he).symm
  · cases hcompressor

/-! ## A storing backend -/

/-- What the storing backend makes of a chunk of one byte. -/
theorem stored_aligned (byte : UInt8) (i o : ℕ) :
    produceAligned storedCompress exactAllocator ⟨[], [], i, o⟩ [byte] =
      some (.ok (⟨[], [], i + 1, o + 11⟩,
        [0x00, 0x01, 0x00, 0xfe, 0xff, byte, 0x00] ++ trailer)) := by
  have htaken : feedTurn storedCompress exactAllocator 65 ⟨⟨[], [], i, o⟩, [byte], Output.new⟩ =
      .inr ⟨⟨[byte], [], i + 1, o⟩, [], ⟨[], 65, by decide⟩⟩ := by
    simp [feedTurn, drive, storedCompress, exactAllocator, Output.new, Output.reserve, Output.spare,
      Output.append]
  have hfeed : feed storedCompress exactAllocator ⟨[], [], i, o⟩ [byte] Output.new (roomFor 1) =
      some (.ok (⟨[byte], [], i + 1, o⟩, ⟨[], 65, by decide⟩)) :=
    (Loop.run_again htaken).trans (Loop.run_stop rfl)
  have hgiven : syncFlushTurn storedCompress exactAllocator 65
      (⟨[byte], [], i + 1, o⟩, ⟨[], 65, by decide⟩) = .inl (.ok (⟨[], [], i + 1, o + 11⟩,
        ⟨[0x00, 0x01, 0x00, 0xfe, 0xff, byte, 0x00] ++ trailer, 65,
          Nat.le_of_ble_eq_true rfl⟩)) := by
    simp [syncFlushTurn, drive, storedCompress, exactAllocator, Output.reserve, Output.spare,
      Output.append, storedFlush, storedBlocks, trailer]
  have hflush : syncFlush storedCompress exactAllocator ⟨[byte], [], i + 1, o⟩
      ⟨[], 65, by decide⟩ (roomFor 1) = some (.ok (⟨[], [], i + 1, o + 11⟩,
        ⟨[0x00, 0x01, 0x00, 0xfe, 0xff, byte, 0x00] ++ trailer, 65,
          Nat.le_of_ble_eq_true rfl⟩)) := Loop.run_stop hgiven
  unfold produceAligned
  exact Option.bind_eq_some_iff.mpr ⟨_, hfeed, Option.bind_eq_some_iff.mpr ⟨_, hflush, rfl⟩⟩

theorem stored_produces (byte : UInt8) (i o : ℕ) :
    produce storedCompress exactAllocator ⟨[], [], i, o⟩ [byte] =
      some (.ok (⟨[], [], i + 1, o + 11⟩, [0x00, 0x01, 0x00, 0xfe, 0xff, byte, 0x00])) := by
  have hstrip : stripOrSynthesize [byte]
      ([0x00, 0x01, 0x00, 0xfe, 0xff, byte, 0x00] ++ trailer) =
        .ok [0x00, 0x01, 0x00, 0xfe, 0xff, byte, 0x00] := if_pos (List.suffix_append _ _)
  unfold produce
  refine Option.bind_eq_some_iff.mpr ⟨_, stored_aligned byte i o, ?_⟩
  simp only [hstrip, Except.map]

theorem stored_message (reset : Bool) (byte : UInt8) (i o : ℕ) :
    Encoder.prepareMessage storedCompress exactAllocator ⟨some ⟨[], [], i, o⟩, reset⟩ [byte] =
      some (.ok ⟨⟨none, reset⟩, ⟨[], [], i + 1, o + 11⟩,
        [0x00, 0x01, 0x00, 0xfe, 0xff, byte, 0x00]⟩) :=
  Option.bind_eq_some_iff.mpr ⟨_, stored_produces byte i o, rfl⟩

theorem stored_nonFinal (encoder : Encoder Stored) (byte : UInt8) (i o : ℕ) :
    StreamingMessage.prepareNonFinalFragment storedCompress exactAllocator
        ⟨encoder, ⟨[], [], i, o⟩⟩ [byte] =
      some (.ok ⟨encoder, ⟨[], [], i + 1, o + 11⟩,
        [0x00, 0x01, 0x00, 0xfe, 0xff, byte, 0x00] ++ trailer⟩) := by
  have hproduce : produceNonFinal storedCompress exactAllocator ⟨[], [], i, o⟩ [byte] =
      some (.ok (⟨[], [], i + 1, o + 11⟩,
        [0x00, 0x01, 0x00, 0xfe, 0xff, byte, 0x00] ++ trailer)) := by
    unfold produceNonFinal
    refine Option.bind_eq_some_iff.mpr ⟨_, stored_aligned byte i o, ?_⟩
    exact if_pos (.inl (List.suffix_append _ _))
  exact Option.bind_eq_some_iff.mpr ⟨_, hproduce, rfl⟩

theorem stored_final (encoder : Encoder Stored) (byte : UInt8) (i o : ℕ) :
    StreamingMessage.prepareFinalFragment storedCompress exactAllocator
        ⟨encoder, ⟨[], [], i, o⟩⟩ [byte] =
      some (.ok ⟨encoder, ⟨[], [], i + 1, o + 11⟩,
        [0x00, 0x01, 0x00, 0xfe, 0xff, byte, 0x00]⟩) :=
  Option.bind_eq_some_iff.mpr ⟨_, stored_produces byte i o, rfl⟩

/-- A message of one byte, from the start. -/
theorem stored_prepares (reset : Bool) :
    Encoder.prepareMessage storedCompress exactAllocator ⟨some ⟨[], [], 0, 0⟩, reset⟩ [0x61] =
      some (.ok ⟨⟨none, reset⟩, ⟨[], [], 1, 11⟩, [0x00, 0x01, 0x00, 0xfe, 0xff, 0x61, 0x00]⟩) :=
  stored_message reset 0x61 0 0

theorem stored_sends :
    run storedCompress exactAllocator (.idle ⟨some ⟨[], [], 0, 0⟩, false⟩)
      [.prepareMessage [0x61], .commit] = some ([(.prepareMessage [0x61], .guard),
        (.commit, .message [0x00, 0x01, 0x00, 0xfe, 0xff, 0x61, 0x00])],
        .idle ⟨some ⟨[], [], 1, 11⟩, false⟩) := by
  simp only [run, step, stored_prepares]
  rfl

/-! ## The encoder -/

/-- **The encoder is a replay of its ledger.** Whenever no guard is live, either a
transaction was lost, and the encoder is vacant and answers every call of every
continuation with `Poisoned` over any backend; or none was, and the compressor is
the one a fresh compressor becomes by the chunks committed since the last reset, each of
them fed and then sync flushed. -/
theorem encoder_replays (C : Compress σ) (A : Allocator) (negotiated : Negotiated)
    (config : EncoderConfig) {encoder₀ encoder : Encoder σ}
    (hbuilt : Encoder.forAgreement C negotiated config = some encoder₀)
    (hreset : ∀ x, C.reset x =
      C.newWithWindowBits config.level false negotiated.localMaxWindowBits)
    {actions : List Action} {events : List (Action × Reply)}
    (hrun : run C A (.idle encoder₀) actions = some (events, .idle encoder)) :
    (encoder.compressor = none ∧ .lost ∈ (Ledger.ofEvents events).closed ∧
      ∀ (C' : Compress σ) (A' : Allocator),
        (∀ payload, step C' A' (.idle encoder) (.prepareMessage payload) =
          some (.refused .poisoned, .idle encoder)) ∧
        step C' A' (.idle encoder) .beginStreamingMessage =
          some (.refused .poisoned, .idle encoder) ∧
        ∀ actions' events' world', run C' A' (.idle encoder) actions' = some (events', world') →
          world' = .idle encoder ∧ ∀ event ∈ events', event.2 = .refused .poisoned) ∨
    (.lost ∉ (Ledger.ofEvents events).closed ∧
      ∃ compressor, encoder.compressor = some compressor ∧
        replay C A (C.newWithWindowBits config.level false negotiated.localMaxWindowBits)
          ((Ledger.ofEvents events).sinceReset negotiated.localNoContextTakeover) =
            some compressor ∧
        Replays C A (C.newWithWindowBits config.level false negotiated.localMaxWindowBits)
          ((Ledger.ofEvents events).sinceReset negotiated.localNoContextTakeover)
          compressor) := by
  have hstart : Books C A (C.newWithWindowBits config.level false negotiated.localMaxWindowBits)
      negotiated.localNoContextTakeover (.idle encoder₀) .empty := by
    rw [forAgreement_some hbuilt]
    refine ⟨rfl, Or.inr ⟨nofun, _, rfl, ?_⟩⟩
    unfold Ledger.sinceReset
    split <;> rfl
  have hbooks := run_books (fun x _ => hreset x) actions hstart hrun
  rcases hbooks.held with ⟨hnone, hlost⟩ | ⟨hkept, compressor, hcompressor, hreplay⟩
  · refine Or.inl ⟨hnone, hlost, fun C' A' => ⟨fun payload => ?_, ?_, fun actions' events' world' =>
      vacant_run hnone actions'⟩⟩
    · simp only [step, Encoder.prepareMessage, hnone]
    · simp only [step, Encoder.beginStreamingMessage, hnone]
  · exact Or.inr ⟨hkept, compressor, hcompressor, hreplay, replay_eq_some_iff.mp hreplay⟩

/-- A candidate given up, a message, and one in two fragments. -/
def storedActions : List Action :=
  [.prepareMessage [0x61], .resetToPlain, .prepareMessage [0x61], .commit, .beginStreamingMessage,
    .prepareNonFinalFragment [0x62], .commit, .prepareFinalFragment [0x63], .commit]

theorem stored_run :
    run storedCompress exactAllocator (.idle ⟨some ⟨[], [], 0, 0⟩, false⟩) storedActions =
      some ([(.prepareMessage [0x61], .guard), (.resetToPlain, .released),
        (.prepareMessage [0x61], .guard),
        (.commit, .message [0x00, 0x01, 0x00, 0xfe, 0xff, 0x61, 0x00]),
        (.beginStreamingMessage, .guard), (.prepareNonFinalFragment [0x62], .guard),
        (.commit, .fragment ([0x00, 0x01, 0x00, 0xfe, 0xff, 0x62, 0x00] ++ trailer)),
        (.prepareFinalFragment [0x63], .guard),
        (.commit, .message [0x00, 0x01, 0x00, 0xfe, 0xff, 0x63, 0x00])],
        .idle ⟨some ⟨[], [], 3, 33⟩, false⟩) := by
  have hprepare : step storedCompress exactAllocator (.idle ⟨some ⟨[], [], 0, 0⟩, false⟩)
      (.prepareMessage [0x61]) = some (.guard, .prepared ⟨⟨none, false⟩, ⟨[], [], 1, 11⟩,
        [0x00, 0x01, 0x00, 0xfe, 0xff, 0x61, 0x00]⟩) := by
    simp only [step, stored_prepares]
  have hfragment : step storedCompress exactAllocator
      (.streaming ⟨⟨none, false⟩, ⟨[], [], 1, 11⟩⟩) (.prepareNonFinalFragment [0x62]) =
        some (.guard, .nonFinal ⟨⟨none, false⟩, ⟨[], [], 2, 22⟩,
          [0x00, 0x01, 0x00, 0xfe, 0xff, 0x62, 0x00] ++ trailer⟩) := by
    simp only [step, stored_nonFinal]
  have hlast : step storedCompress exactAllocator
      (.streaming ⟨⟨none, false⟩, ⟨[], [], 2, 22⟩⟩) (.prepareFinalFragment [0x63]) =
        some (.guard, .final ⟨⟨none, false⟩, ⟨[], [], 3, 33⟩,
          [0x00, 0x01, 0x00, 0xfe, 0xff, 0x63, 0x00]⟩) := by
    simp only [step, stored_final]
  exact run_cons hprepare (run_cons rfl (run_cons hprepare (run_cons rfl (run_cons rfl
    (run_cons hfragment (run_cons rfl (run_cons hlast (run_cons rfl rfl))))))))

/-- That run leaves a compressor that took three chunks since the reset. A guard dropped
behind it leaves none. -/
theorem encoder_replays_stored :
    (∃ events compressor,
      run storedCompress exactAllocator (.idle ⟨some ⟨[], [], 0, 0⟩, false⟩) storedActions =
        some (events, .idle ⟨some compressor, false⟩) ∧
      Replays storedCompress exactAllocator ⟨[], [], 0, 0⟩ [[0x61], [0x62], [0x63]] compressor) ∧
    ∃ events encoder,
      run storedCompress exactAllocator (.idle ⟨some ⟨[], [], 0, 0⟩, false⟩)
        (storedActions ++ [.beginStreamingMessage, .drop]) = some (events, .idle encoder) ∧
      encoder.compressor = none ∧
      step storedCompress exactAllocator (.idle encoder) .beginStreamingMessage =
        some (.refused .poisoned, .idle encoder) := by
  have hbuilt : Encoder.forAgreement storedCompress ⟨.client, false, false, 15, 15⟩ .new =
      some ⟨some ⟨[], [], 0, 0⟩, false⟩ := rfl
  have hdrop : run storedCompress exactAllocator (.idle ⟨some ⟨[], [], 3, 33⟩, false⟩)
      [.beginStreamingMessage, .drop] =
        some ([(.beginStreamingMessage, .guard), (.drop, .released)], .idle ⟨none, false⟩) := rfl
  have hdropped := run_append hdrop stored_run
  constructor
  · rcases encoder_replays storedCompress exactAllocator _ _ hbuilt (fun _ => rfl) stored_run with
      ⟨hnone, -⟩ | ⟨-, compressor, hcompressor, -, hreplays⟩
    · cases hnone
    · obtain rfl := Option.some.inj hcompressor
      exact ⟨_, _, stored_run, hreplays⟩
  · rcases encoder_replays storedCompress exactAllocator _ _ hbuilt (fun _ => rfl) hdropped with
      ⟨hnone, -, hpoisoned⟩ | ⟨-, compressor, hcompressor, -⟩
    · exact ⟨_, _, hdropped, hnone, (hpoisoned _ _).2.1⟩
    · cases hcompressor

end Run

end WsPmd.Encoding
