import WsPmd.Encoder.Flushing
import WsPmd.Encoder.Steps
import WsPmd.Encoder.Wire
import WsPmd.Library.Trace

/-!
# A sender that is never refused

What the encoder needs of its backend to answer every call. A backend that takes what it
is fed, as far as the room it is given goes, and flushes as zlib does brings every chunk
to its end; and then nothing but a guard that was abandoned makes the encoder refuse, and
from there on it refuses every call it has.
-/

namespace WsPmd.Encoding

open Grammar (Bytes)
open Library

/-! ## A backend that cooperates -/

section Contract

variable {σ : Type} (C : Compress σ)

/-- A backend behind a flush (`false`), or one that took something since (`true`), which
is all `standing` tells of it. It answers as long as there is room. It takes some of what
it is offered, or makes room for it: what it holds back gets less. What a flush owes ends
in the trailer, and a flush of nothing may owe nothing. -/
structure Cooperates (standing : Bool → σ → Prop) (due : σ → Bytes → Prop)
    (backlog : σ → ℕ) : Prop extends FlushProtocol C due where
  takes : ∀ {fed x input room}, standing fed x → input ≠ [] → 0 < room →
    Answers C x input .none room
  within : ∀ {fed x input room}, standing fed x → input ≠ [] → 0 < room →
    consumed C x input .none room ≤ input.length
  moves : ∀ {fed x input room}, standing fed x → input ≠ [] → 0 < room →
    consumed C x input .none room = 0 → 0 < produced C x input .none room ∧
      backlog (C.compressVec x input .none room).state < backlog x
  stands : ∀ {fed x input room}, standing fed x → input ≠ [] → 0 < room →
    standing (fed || decide (0 < consumed C x input .none room))
      (C.compressVec x input .none room).state
  owes : ∀ {fed x}, standing fed x →
    ∃ residue, due x residue ∧ (trailer <:+ residue ∨ (fed = false ∧ residue = []))
  settles : ∀ {x residue room}, due x residue → residue.length < room →
    standing false (C.compressVec x [] .sync room).state
  resets : ∀ {x}, standing false x → standing false (C.reset x)

end Contract

section Chunks

variable {σ : Type} {C : Compress σ} {standing : Bool → σ → Prop} {due : σ → Bytes → Prop}
  {backlog : σ → ℕ} {A : Allocator} {room : ℕ}

theorem roomFor_pos (n : ℕ) : 0 < roomFor n := Nat.zero_lt_of_lt (redundantBlock_lt n)

/-- One call of the feed loop is as it has to be, and leaves less to feed or less held
back. -/
theorem Cooperates.feeding (h : Cooperates C standing due backlog) (hroom : 0 < room)
    {fed : Bool} {s : Feed σ} (hs : standing fed s.compressor) (hleft : s.input ≠ []) :
    Feeding C A room s ∧
      ∃ fed', standing fed' (feedNext C A room s).compressor ∧
        (fed' = true ∨ (fed' = fed ∧ (feedNext C A room s).input = s.input)) ∧
        ((feedNext C A room s).input.length < s.input.length ∨
          (feedNext C A room s).input.length = s.input.length ∧
            backlog (feedNext C A room s).compressor < backlog s.compressor) := by
  have hoffered : 0 < offered A room s.output := hroom.trans_le (le_offered A room s.output)
  have hwithin := h.within hs hleft hoffered
  have hmoves := h.moves hs hleft hoffered
  have hstands := h.stands hs hleft hoffered
  have hlength : (feedNext C A room s).input.length =
      s.input.length - consumed C s.compressor s.input .none (offered A room s.output) :=
    List.length_drop
  rcases Nat.eq_zero_or_pos
    (consumed C s.compressor s.input .none (offered A room s.output)) with hnone | hsome
  · obtain ⟨hgives, hless⟩ := hmoves hnone
    refine ⟨⟨h.takes hs hleft hoffered, hwithin, fun hstill => ?_⟩, fed, ?_, Or.inr ⟨rfl, ?_⟩,
      Or.inr ⟨?_, hless⟩⟩
    · omega
    · rw [hnone] at hstands
      rw [← Bool.or_false fed]
      exact hstands
    · have hdrop : (feedNext C A room s).input =
          s.input.drop (consumed C s.compressor s.input .none (offered A room s.output)) := rfl
      rw [hdrop, hnone, List.drop_zero]
    · omega
  · refine ⟨⟨h.takes hs hleft hoffered, hwithin, fun hstill => ?_⟩, true, ?_, Or.inl rfl,
      Or.inl ?_⟩
    · omega
    · rw [decide_eq_true hsome, Bool.or_true] at hstands
      exact hstands
    · omega

/-- **The feed loop ends**, with everything taken. -/
theorem Cooperates.feeds (h : Cooperates C standing due backlog) (hroom : 0 < room)
    (length : ℕ) : ∀ (held : ℕ) (fed : Bool) (s : Feed σ), s.input.length = length →
      backlog s.compressor = held → standing fed s.compressor →
      ∃ rounds last fed', Feeds C A room s rounds last ∧ standing fed' last.1 ∧
        (fed' = true ∨ (fed' = fed ∧ s.input = [])) := by
  induction length using Nat.strong_induction_on with
  | _ length ihLength =>
    intro held
    induction held using Nat.strong_induction_on with
    | _ held ihHeld =>
      intro fed s hlength hheld hs
      by_cases hleft : s.input = []
      · exact ⟨[], _, fed, .done hleft, hs, Or.inr ⟨rfl, hleft⟩⟩
      · obtain ⟨hfeeding, fed', hnext, hfed, hless⟩ := h.feeding (A := A) hroom hs hleft
        have hrest : ∃ rounds last fed'', Feeds C A room (feedNext C A room s) rounds last ∧
            standing fed'' last.1 ∧
            (fed'' = true ∨ (fed'' = fed' ∧ (feedNext C A room s).input = [])) := by
          rcases hless with hshorter | ⟨hsame, hdrained⟩
          · exact ihLength _ (hlength ▸ hshorter) _ _ _ rfl rfl hnext
          · exact ihHeld _ (hheld ▸ hdrained) _ _ (hsame.trans hlength) rfl hnext
        obtain ⟨rounds, last, fed'', hrounds, hlast, htook⟩ := hrest
        refine ⟨_, last, fed'', .round hleft hfeeding hrounds, hlast, Or.inl ?_⟩
        -- There was something to feed and nothing of it is left, so some of it was taken.
        rcases htook with htrue | ⟨rfl, hempty⟩
        · exact htrue
        · rcases hfed with htrue | ⟨-, hkept⟩
          · exact htrue
          · exact absurd (hkept.symm.trans hempty) hleft

/-- The flush loop ends at a boundary. -/
theorem Cooperates.settled (h : Cooperates C standing due backlog) (hroom : 0 < room)
    {s last : σ × Output} {rounds : List Exchange} (hflushes : Flushes C A room s rounds last) :
    ∀ {residue : Bytes}, due s.1 residue → standing false last.1 := by
  induction hflushes with
  | @last s _ hspare =>
    intro residue hdue
    have hcounts := h.counts hdue (hroom.trans_le (le_offered A room s.2))
    apply h.settles hdue
    omega
  | @round s last rounds _ hfull _ ih =>
    intro residue hdue
    have hoffered : 0 < offered A room s.2 := hroom.trans_le (le_offered A room s.2)
    have hcounts := h.counts hdue hoffered
    rcases Nat.lt_or_ge (offered A room s.2) residue.length with hmore | hless
    · exact ih (h.goes_on hdue hoffered hmore)
    · apply ih
      apply h.rearms hdue hoffered
      omega

/-- **Every chunk comes to its end**, and the backend to a boundary. -/
theorem Cooperates.aligned (h : Cooperates C standing due backlog) (A : Allocator) {x : σ}
    (hx : standing false x) (chunk : Bytes) :
    ∃ x' bytes, produceAligned C A x chunk = some (.ok (x', bytes)) ∧ Ends chunk bytes ∧
      standing false x' := by
  have hroom := roomFor_pos chunk.length
  obtain ⟨fed, s, took, hfeeds, hs, htook⟩ :=
    h.feeds (A := A) hroom _ _ false ⟨x, chunk, .new⟩ rfl rfl hx
  obtain ⟨residue, hdue, howes⟩ := h.owes hs
  obtain ⟨flushed, last, hflushes, hgave⟩ := h.flushes (A := A) (redundantBlock_lt chunk.length)
    _ s.1 residue s.2 rfl hdue
  refine ⟨last.1, gave (fed ++ flushed), produceAligned_ok_iff.mpr ⟨_, .chunk hfeeds hflushes, rfl⟩,
    ?_, h.settled hroom hflushes hdue⟩
  rw [gave_append]
  rcases howes with htail | ⟨rfl, rfl⟩
  · left
    rcases hgave with hgave | hgave
    · rw [hgave]
      exact htail.trans (List.suffix_append _ _)
    · rw [hgave]
      exact (trailer_redundantBlock residue).trans (List.suffix_append _ _)
  · obtain ⟨-, rfl⟩ : false = false ∧ chunk = [] := htook.resolve_left Bool.false_ne_true
    rcases hgave with hgave | hgave
    · right
      have hnone : fed = [] := by
        cases hfeeds with
        | done _ => rfl
        | round hleft _ _ => exact absurd rfl hleft
      rw [hgave, hnone]
      exact ⟨rfl, rfl⟩
    · left
      rw [hgave]
      exact (trailer_redundantBlock []).trans (List.suffix_append _ _)

theorem Cooperates.produces (h : Cooperates C standing due backlog) (A : Allocator) {x : σ}
    (hx : standing false x) (chunk : Bytes) :
    ∃ x' bytes, produce C A x chunk = some (.ok (x', bytes)) ∧ standing false x' := by
  obtain ⟨x', emitted, haligned, hends, hx'⟩ := h.aligned A hx chunk
  obtain ⟨bytes, hstrip⟩ := hends.completes
  refine ⟨x', bytes, Option.bind_eq_some_iff.mpr ⟨_, haligned, ?_⟩, hx'⟩
  exact congrArg (fun r => some (r.map (x', ·))) hstrip

theorem Cooperates.producesNonFinal (h : Cooperates C standing due backlog) (A : Allocator)
    {x : σ} (hx : standing false x) (chunk : Bytes) :
    ∃ x' bytes, produceNonFinal C A x chunk = some (.ok (x', bytes)) ∧ standing false x' := by
  obtain ⟨x', emitted, haligned, hends, hx'⟩ := h.aligned A hx chunk
  exact ⟨x', emitted, Option.bind_eq_some_iff.mpr ⟨_, haligned, if_pos hends⟩, hx'⟩

end Chunks

/-! ## Whole runs -/

/-- The chunk a call compresses. -/
def Action.chunk : Action → Option Bytes
  | .prepareMessage payload => some payload
  | .prepareNonFinalFragment payload => some payload
  | .prepareFinalFragment payload => some payload
  | _ => none

section Runs

variable {σ : Type}

/-- The compressor, wherever it is. -/
def World.compressor : World σ → Option σ
  | .idle encoder => encoder.compressor
  | .prepared guard => some guard.compressor
  | .streaming stream => some stream.compressor
  | .nonFinal fragment => some fragment.compressor
  | .final fragment => some fragment.compressor

/-- The calls the value at hand has. -/
def World.has : World σ → Action → Bool
  | .idle _, .prepareMessage _ => true
  | .idle _, .beginStreamingMessage => true
  | .streaming _, .prepareNonFinalFragment _ => true
  | .streaming _, .prepareFinalFragment _ => true
  | .prepared _, .commit => true
  | .nonFinal _, .commit => true
  | .final _, .commit => true
  | .prepared _, .resetToPlain => true
  | world, .drop => world.borrowed.isSome
  | world, .leak => world.borrowed.isSome
  | _, _ => false

/-- A guard was let go of without being resolved. -/
def abandoned (events : List (Action × Reply)) : Bool :=
  events.any fun event => event.1 = .drop || event.1 = .leak

theorem abandoned_concat (events : List (Action × Reply)) (event : Action × Reply) :
    abandoned (events ++ [event]) =
      (abandoned events || (event.1 = .drop || event.1 = .leak)) := by
  simp only [abandoned, List.any_append, List.any_cons, List.any_nil, Bool.or_false]

/-- A call is refused behind a guard that was abandoned, and never before. -/
def Served (before : List (Action × Reply)) (event : Action × Reply) : Prop :=
  if abandoned before then event.2 = .refused .poisoned else ∀ error, event.2 ≠ .refused error

/-- Where the compressor is: at a boundary, in the encoder or on loan to a guard; or gone
with the guard that had it. -/
inductive Placed (standing : Bool → σ → Prop) : Bool → World σ → Prop where
  | gone {encoder : Encoder σ} : encoder.compressor = none → Placed standing true (.idle encoder)
  | idle {encoder : Encoder σ} {x : σ} : encoder.compressor = some x → standing false x →
      Placed standing false (.idle encoder)
  | prepared {guard : PreparedMessage σ} : guard.encoder.compressor = none →
      standing false guard.compressor → Placed standing false (.prepared guard)
  | streaming {stream : StreamingMessage σ} : stream.encoder.compressor = none →
      standing false stream.compressor → Placed standing false (.streaming stream)
  | nonFinal {fragment : PreparedNonFinalFragment σ} : fragment.encoder.compressor = none →
      standing false fragment.compressor → Placed standing false (.nonFinal fragment)
  | final {fragment : PreparedFinalFragment σ} : fragment.encoder.compressor = none →
      standing false fragment.compressor → Placed standing false (.final fragment)

variable {C : Compress σ} {standing : Bool → σ → Prop} {due : σ → Bytes → Prop} {backlog : σ → ℕ}
  {A : Allocator}

/-- Whichever guard is abandoned, the compressor is gone with it. -/
theorem Placed.abandon {lost : Bool} {world : World σ} (h : Placed standing lost world)
    {encoder : Encoder σ} (hborrowed : world.borrowed = some encoder) :
    lost = false ∧ Placed standing true (.idle encoder) := by
  cases h with
  | gone _ => cases hborrowed
  | idle _ _ => cases hborrowed
  | prepared hvacant _ =>
    obtain rfl := Option.some.inj hborrowed
    exact ⟨rfl, .gone hvacant⟩
  | streaming hvacant _ =>
    obtain rfl := Option.some.inj hborrowed
    exact ⟨rfl, .gone hvacant⟩
  | nonFinal hvacant _ =>
    obtain rfl := Option.some.inj hborrowed
    exact ⟨rfl, .gone hvacant⟩
  | final hvacant _ =>
    obtain rfl := Option.some.inj hborrowed
    exact ⟨rfl, .gone hvacant⟩

theorem Cooperates.restored (h : Cooperates C standing due backlog) (encoder : Encoder σ)
    {x : σ} (hx : standing false x) :
    Placed standing false (.idle (encoder.restore C x)) := by
  refine .idle rfl ?_
  split
  · exact h.resets hx
  · exact hx

def Reply.isRefused : Reply → Bool
  | .refused _ => true
  | _ => false

theorem ne_refused {reply : Reply} (h : reply.isRefused = false) (error : CodecError) :
    reply ≠ .refused error := by
  intro he
  rw [he] at h
  cases h

/-- **One call.** A call the value at hand has is answered, as it has to be. -/
theorem Cooperates.serves (h : Cooperates C standing due backlog) {lost : Bool}
    {world : World σ} (hplaced : Placed standing lost world) {action : Action}
    (hhas : world.has action = true) :
    ∃ reply next, step C A world action = some (reply, next) ∧
      (if lost then reply = .refused .poisoned else ∀ error, reply ≠ .refused error) ∧
      Placed standing (lost || (action = .drop || action = .leak)) next := by
  have hborrowed (hgiven : action = .drop ∨ action = .leak) :
      ∃ encoder, world.borrowed = some encoder := by
    cases world with
    | idle _ => rcases hgiven with rfl | rfl <;> cases hhas
    | _ => exact ⟨_, rfl⟩
  cases action with
  | prepareMessage payload =>
    cases hplaced with
    | gone hvacant => exact ⟨_, _, (Stepped.vacantMessage hvacant).step, rfl, .gone hvacant⟩
    | idle hheld hx =>
      obtain ⟨x', bytes, hproduce, hx'⟩ := h.produces A hx payload
      exact ⟨_, _, (Stepped.prepareMessage hheld hproduce).step, ne_refused rfl, .prepared rfl hx'⟩
    | _ => cases hhas
  | beginStreamingMessage =>
    cases hplaced with
    | gone hvacant => exact ⟨_, _, (Stepped.vacantStream hvacant).step, rfl, .gone hvacant⟩
    | idle hheld hx =>
      exact ⟨_, _, (Stepped.beginStreamingMessage hheld).step, ne_refused rfl, .streaming rfl hx⟩
    | _ => cases hhas
  | prepareNonFinalFragment payload =>
    cases hplaced with
    | streaming hvacant hx =>
      obtain ⟨x', bytes, hproduce, hx'⟩ := h.producesNonFinal A hx payload
      exact ⟨_, _, (Stepped.prepareNonFinalFragment hproduce).step, ne_refused rfl,
        .nonFinal hvacant hx'⟩
    | _ => cases hhas
  | prepareFinalFragment payload =>
    cases hplaced with
    | streaming hvacant hx =>
      obtain ⟨x', bytes, hproduce, hx'⟩ := h.produces A hx payload
      exact ⟨_, _, (Stepped.prepareFinalFragment hproduce).step, ne_refused rfl,
        .final hvacant hx'⟩
    | _ => cases hhas
  | commit =>
    cases hplaced with
    | prepared _ hx => exact ⟨_, _, Stepped.commitMessage.step, ne_refused rfl, h.restored _ hx⟩
    | nonFinal hvacant hx =>
      exact ⟨_, _, Stepped.commitNonFinal.step, ne_refused rfl, .streaming hvacant hx⟩
    | final _ hx => exact ⟨_, _, Stepped.commitFinal.step, ne_refused rfl, h.restored _ hx⟩
    | _ => cases hhas
  | resetToPlain =>
    cases hplaced with
    | prepared _ hx =>
      exact ⟨_, _, Stepped.resetToPlain.step, ne_refused rfl, .idle rfl (h.resets hx)⟩
    | _ => cases hhas
  | drop =>
    obtain ⟨encoder, hencoder⟩ := hborrowed (Or.inl rfl)
    obtain ⟨rfl, hgone⟩ := hplaced.abandon hencoder
    exact ⟨_, _, (Stepped.drop hencoder).step, ne_refused rfl, hgone⟩
  | leak =>
    obtain ⟨encoder, hencoder⟩ := hborrowed (Or.inr rfl)
    obtain ⟨rfl, hgone⟩ := hplaced.abandon hencoder
    exact ⟨_, _, (Stepped.leak hencoder).step, ne_refused rfl, hgone⟩

/-- A call that was answered is one the value at hand has. -/
theorem has_of_step {world : World σ} {action : Action} {answer : Reply × World σ}
    (h : step C A world action = some answer) : world.has action = true := by
  cases world <;> cases action <;> first | rfl | cases h

/-- What a run keeps: every call so far was as it has to be. -/
theorem Cooperates.run_served (h : Cooperates C standing due backlog) (actions : List Action) :
    ∀ {before events : List (Action × Reply)} {world last : World σ},
      Each Served before → Placed standing (abandoned before) world →
      run C A world actions = some (events, last) →
      Each Served (before ++ events) ∧ Placed standing (abandoned (before ++ events)) last := by
  induction actions with
  | nil =>
    intro before events world last hbefore hplaced hrun
    obtain ⟨rfl, rfl⟩ := Prod.mk.inj (Option.some.inj hrun)
    rw [List.append_nil]
    exact ⟨hbefore, hplaced⟩
  | cons action actions ih =>
    intro before events world last hbefore hplaced hrun
    simp only [run, Option.bind_eq_bind, Option.bind_eq_some_iff] at hrun
    obtain ⟨⟨reply, mid⟩, hstep, ⟨more, final⟩, hmore, he⟩ := hrun
    obtain ⟨rfl, rfl⟩ := Prod.mk.inj (Option.some.inj he)
    obtain ⟨reply', mid', hstep', hserved, hplaced'⟩ :=
      h.serves (A := A) hplaced (has_of_step hstep)
    obtain ⟨rfl, rfl⟩ := Prod.mk.inj (Option.some.inj (hstep'.symm.trans hstep))
    have hevent : Served before (action, reply') := hserved
    rw [← abandoned_concat before (action, reply')] at hplaced'
    have hnext := ih (each_concat.mpr ⟨hbefore, hevent⟩) hplaced' hmore
    rw [List.append_assoc, List.singleton_append] at hnext
    exact hnext

/-- **An encoder over a backend that cooperates answers every call it has.** In every run
of the calls it and its guards have, over payloads of any length, every call returns, and
none is refused as long as no guard was dropped or leaked; behind one that was, every call
is refused for that and for nothing else. -/
theorem sender_served (C : Compress σ) (A : Allocator) {negotiated : Negotiated}
    {config : EncoderConfig} {encoder : Encoder σ}
    (hbuilt : Encoder.forAgreement C negotiated config = some encoder)
    (standing : Bool → σ → Prop) (due : σ → Bytes → Prop) (backlog : σ → ℕ)
    (hC : Cooperates C standing due backlog)
    (hfresh : standing false
      (C.newWithWindowBits config.level false negotiated.localMaxWindowBits))
    {actions : List Action} {events : List (Action × Reply)} {world : World σ}
    (hrun : run C A (.idle encoder) actions = some (events, world)) :
    Each Served events ∧
      ∀ action, world.has action = true ↔ ∃ answer, step C A world action = some answer := by
  obtain rfl := forAgreement_some hbuilt
  obtain ⟨hserved, hplaced⟩ := hC.run_served actions (each_nil Served)
    (Placed.idle rfl hfresh) hrun
  refine ⟨hserved, fun action => ⟨fun hhas => ?_, fun ⟨_, hstep⟩ => has_of_step hstep⟩⟩
  obtain ⟨reply, next, hstep, -⟩ := hC.serves (A := A) hplaced hhas
  exact ⟨_, hstep⟩

end Runs

/-! ## A backend that does -/

/-- Nothing owed, and nothing held but what was taken since the last flush. -/
def Stored.Standing (fed : Bool) (x : Stored) : Prop := x.owed = [] ∧ (fed = false ↔ x.held = [])

def Stored.Due (x : Stored) (residue : Bytes) : Prop := x.owed ++ storedFlush x.held = residue

theorem rearmingCompress_cooperates :
    Cooperates rearmingCompress Stored.Standing Stored.Due fun _ => 0 := by
  have hconsumed (x : Stored) (input : Bytes) (room : ℕ) :
      consumed rearmingCompress x input .none room = input.length := Nat.add_sub_cancel_left _ _
  have hdue {x : Stored} {residue : Bytes} (h : x.Due residue) :
      x.owed ++ storedFlush (x.held ++ []) = residue := by
    rw [List.append_nil]
    exact h
  have howed {x : Stored} {residue : Bytes} (h : x.Due residue) (room : ℕ) :
      (rearmingCompress.compressVec x [] .sync room).state.owed =
        if residue.length = room then redundantBlock else residue.drop room := by
    rw [← hdue h]
    rfl
  refine { answers := ?_, gives := ?_, counts := ?_, goes_on := ?_, rearms := ?_, takes := ?_,
           within := ?_, moves := ?_, stands := ?_, owes := ?_, settles := ?_, resets := ?_ }
  · intro x residue room _ _
    exact ⟨.ok, rfl, nofun⟩
  · intro x residue room h _
    rw [← hdue h]
    rfl
  · intro x residue room h _
    rw [Nat.min_comm, ← List.length_take, ← hdue h]
    exact Nat.add_sub_cancel_left _ _
  · intro x residue room h _ hmore
    exact (List.append_nil _).trans ((howed h room).trans (if_neg hmore.ne'))
  · intro x residue room h _ hfull
    exact (List.append_nil _).trans ((howed h room).trans (if_pos hfull))
  · intro fed x input room _ _ _
    exact ⟨.ok, rfl, nofun⟩
  · intro fed x input room _ _ _
    exact (hconsumed x input room).le
  · intro fed x input room _ hleft _ hnone
    rw [hconsumed] at hnone
    exact absurd (List.length_eq_zero_iff.mp hnone) hleft
  · intro fed x input room ⟨howes, _⟩ hleft _
    rw [hconsumed, decide_eq_true (List.length_pos_iff.mpr hleft), Bool.or_true]
    refine ⟨howes, nofun, fun hnone => ?_⟩
    exact absurd (List.append_eq_nil_iff.mp hnone).2 hleft
  · intro fed x ⟨howes, hheld⟩
    refine ⟨_, rfl, ?_⟩
    rw [howes, List.nil_append, storedFlush]
    cases fed with
    | false =>
      right
      rw [if_pos (hheld.mp rfl)]
      exact ⟨rfl, rfl⟩
    | true =>
      left
      rw [if_neg fun hnone => Bool.false_ne_true (hheld.mpr hnone).symm]
      exact trailer_redundantBlock _
  · intro x residue room h hspare
    refine ⟨?_, iff_of_true rfl rfl⟩
    rw [howed h, if_neg hspare.ne, List.drop_of_length_le hspare.le]
  · intro x _
    exact ⟨rfl, iff_of_true rfl rfl⟩

/-- A message that is begun and dropped, and one refused for it. -/
theorem sender_served_dropped :
    ∃ events world, run rearmingCompress exactAllocator (.idle ⟨some ⟨[], [], 0, 0⟩, false⟩)
        [.beginStreamingMessage, .drop, .prepareMessage [0x61]] = some (events, world) ∧
      events = [(.beginStreamingMessage, .guard), (.drop, .released),
        (.prepareMessage [0x61], .refused .poisoned)] ∧ Each Served events := by
  have hbuilt : Encoder.forAgreement rearmingCompress ⟨.client, false, false, 15, 15⟩ .new =
      some ⟨some ⟨[], [], 0, 0⟩, false⟩ := rfl
  have hrun : run rearmingCompress exactAllocator (.idle ⟨some ⟨[], [], 0, 0⟩, false⟩)
      [.beginStreamingMessage, .drop, .prepareMessage [0x61]] =
        some ([(.beginStreamingMessage, .guard), (.drop, .released),
          (.prepareMessage [0x61], .refused .poisoned)], .idle ⟨none, false⟩) := rfl
  have hserved := sender_served rearmingCompress exactAllocator hbuilt Stored.Standing Stored.Due
    (fun _ => 0) rearmingCompress_cooperates ⟨rfl, iff_of_true rfl rfl⟩ hrun
  exact ⟨_, _, hrun, rfl, hserved.1⟩

end WsPmd.Encoding
