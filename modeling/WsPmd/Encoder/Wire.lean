import WsPmd.Encoder.Ledger

/-!
# What one message puts on the wire

What comes of a chunk is what the backend gave for it, with the trailer taken off the
last one, and whatever the backend does wrong on the way is an error and never a byte.
-/

namespace WsPmd.Encoding

open Grammar (Bytes)
open Library

section Producing

variable {σ : Type} (C : Compress σ) (A : Allocator)

/-- What a chunk may end in: the trailer, or nothing at all if it was empty. -/
def Ends (chunk emitted : Bytes) : Prop := trailer <:+ emitted ∨ (chunk = [] ∧ emitted = [])

/-- What the backend can do wrong with a chunk: a call made while it is fed fails, ends
the stream, takes more than it was offered or does not move; a flush fails or ends the
stream; or all it gave does not end as it must. -/
inductive Fault (x : σ) (chunk : Bytes) : Prop where
  | feeding {s : Feed σ} :
      Loop.Reaches (feedTurn C A (roomFor chunk.length)) ⟨x, chunk, .new⟩ s → s.input ≠ [] →
      ¬ Feeding C A (roomFor chunk.length) s → Fault x chunk
  | flushing {fed : List Exchange} {s last : σ × Output} :
      Feeds C A (roomFor chunk.length) ⟨x, chunk, .new⟩ fed s →
      Loop.Reaches (syncFlushTurn C A (roomFor chunk.length)) s last →
      ¬ Answers C last.1 [] .sync (offered A (roomFor chunk.length) last.2) → Fault x chunk
  | ending {rounds : List Exchange} {x' : σ} :
      Exchanges C A x chunk rounds x' → ¬ Ends chunk (gave rounds) → Fault x chunk

variable {C A} {x x' : σ} {chunk bytes : Bytes}

/-- What a last fragment amounts to once the four octets are behind it: what the
backend gave, or the empty block where there was nothing to give. -/
def completed (chunk emitted : Bytes) : Bytes :=
  if chunk = [] ∧ emitted = [] then [0x00, 0x00, 0x00, 0xff, 0xff] else emitted

theorem stripOrSynthesize_ok_iff {emitted : Bytes} :
    stripOrSynthesize chunk emitted = .ok bytes ↔
      Ends chunk emitted ∧ bytes ++ trailer = completed chunk emitted := by
  unfold stripOrSynthesize Ends completed
  by_cases htail : trailer <:+ emitted
  · obtain ⟨head, rfl⟩ := htail
    have hne : ¬ (chunk = [] ∧ head ++ trailer = []) := by
      intro ⟨_, hempty⟩
      cases (List.append_eq_nil_iff.mp hempty).2
    rw [if_pos (List.suffix_append head trailer), List.length_append, Nat.add_sub_cancel,
      List.take_left, if_neg hne, List.append_left_inj]
    constructor
    · intro h
      exact ⟨Or.inl (List.suffix_append head trailer), (Except.ok.inj h).symm⟩
    · intro ⟨_, h⟩
      rw [h]
  · rw [if_neg htail]
    by_cases hnothing : chunk = [] ∧ emitted = []
    · rw [if_pos hnothing, if_pos hnothing]
      constructor
      · intro h
        obtain rfl := Except.ok.inj h
        exact ⟨Or.inr hnothing, rfl⟩
      · intro ⟨_, h⟩
        have hsplit : bytes ++ trailer = emptyMessage ++ trailer := h
        rw [List.append_left_inj] at hsplit
        rw [hsplit]
    · rw [if_neg hnothing]
      constructor
      · intro h
        cases h
      · intro ⟨hends, _⟩
        exact absurd hends (not_or.mpr ⟨htail, hnothing⟩)

theorem stripOrSynthesize_fault {emitted : Bytes} (h : ¬ Ends chunk emitted) :
    stripOrSynthesize chunk emitted = .error .compressionFailed := by
  obtain ⟨htail, hnothing⟩ := not_or.mp h
  rw [stripOrSynthesize, if_neg htail, if_neg hnothing]

theorem Ends.completes {emitted : Bytes} (h : Ends chunk emitted) :
    ∃ bytes, stripOrSynthesize chunk emitted = .ok bytes := by
  rcases h with htail | hnothing
  · exact ⟨_, if_pos htail⟩
  · have hshort : ¬ trailer <:+ emitted := by
      rw [hnothing.2, List.suffix_nil]
      exact List.cons_ne_nil _ _
    exact ⟨_, (if_neg hshort).trans (if_pos hnothing)⟩

/-- A non-final fragment is what the backend gave. -/
theorem produceNonFinal_gives (h : produceNonFinal C A x chunk = some (.ok (x', bytes))) :
    ∃ rounds, Exchanges C A x chunk rounds x' ∧ Ends chunk (gave rounds) ∧
      bytes = gave rounds := by
  have haligned := produceNonFinal_ok h
  obtain ⟨rounds, hrounds, rfl⟩ := produceAligned_ok_iff.mp haligned
  refine ⟨rounds, hrounds, ?_, rfl⟩
  by_contra hends
  have hfailed : produceNonFinal C A x chunk = some (.error .compressionFailed) :=
    Option.bind_eq_some_iff.mpr ⟨_, haligned, if_neg hends⟩
  rw [hfailed] at h
  cases h

/-- A fault is a failure of steps 1 and 2, or a tail they leave that is not one. -/
theorem fault_iff :
    Fault C A x chunk ↔ (∃ error, produceAligned C A x chunk = some (.error error)) ∨
      ∃ x' emitted, produceAligned C A x chunk = some (.ok (x', emitted)) ∧
        ¬ Ends chunk emitted := by
  constructor
  · intro h
    cases h with
    | feeding hreaches hleft hfault =>
      exact Or.inl (produceAligned_error_iff.mpr (Or.inl ⟨_, hreaches, hleft, hfault⟩))
    | flushing hfed hreaches hfault =>
      exact Or.inl (produceAligned_error_iff.mpr (Or.inr ⟨_, _, _, hfed, hreaches, hfault⟩))
    | ending hrounds hends =>
      exact Or.inr ⟨_, _, produceAligned_ok_iff.mpr ⟨_, hrounds, rfl⟩, hends⟩
  · rintro (herror | ⟨x', emitted, haligned, hends⟩)
    · rcases produceAligned_error_iff.mp herror with
        ⟨s, hreaches, hleft, hfault⟩ | ⟨fed, s, last, hfed, hreaches, hfault⟩
      · exact .feeding hreaches hleft hfault
      · exact .flushing hfed hreaches hfault
    · obtain ⟨rounds, hrounds, rfl⟩ := produceAligned_ok_iff.mp haligned
      exact .ending hrounds hends

/-- A producer that completes what ends as it must and refuses what does not fails for
a fault and for nothing else. -/
theorem produced_error_iff {α : Type}
    {finish : Except CodecError (σ × Bytes) → Option (Except CodecError α)}
    (herror : ∀ error, finish (.error error) = some (.error error))
    (hends : ∀ x' emitted, Ends chunk emitted → ∃ a, finish (.ok (x', emitted)) = some (.ok a))
    (hrefused : ∀ x' emitted, ¬ Ends chunk emitted →
      finish (.ok (x', emitted)) = some (.error .compressionFailed)) :
    (∃ error, (produceAligned C A x chunk).bind finish = some (.error error)) ↔
      Fault C A x chunk := by
  rw [fault_iff]
  constructor
  · intro ⟨error, h⟩
    obtain ⟨aligned, haligned, h⟩ := Option.bind_eq_some_iff.mp h
    cases aligned with
    | error error' => exact Or.inl ⟨error', haligned⟩
    | ok pair =>
      refine Or.inr ⟨pair.1, pair.2, haligned, fun hemitted => ?_⟩
      obtain ⟨a, ha⟩ := hends pair.1 pair.2 hemitted
      cases ha.symm.trans h
  · rintro (⟨error, haligned⟩ | ⟨x', emitted, haligned, hleft⟩)
    · exact ⟨error, Option.bind_eq_some_iff.mpr ⟨_, haligned, herror error⟩⟩
    · exact ⟨_, Option.bind_eq_some_iff.mpr ⟨_, haligned, hrefused x' emitted hleft⟩⟩

theorem produceNonFinal_error_iff :
    (∃ error, produceNonFinal C A x chunk = some (.error error)) ↔ Fault C A x chunk :=
  produced_error_iff (fun _ => rfl) (fun _ _ hends => ⟨_, if_pos hends⟩)
    fun _ _ hleft => if_neg hleft

theorem produce_error_iff :
    (∃ error, produce C A x chunk = some (.error error)) ↔ Fault C A x chunk := by
  refine produced_error_iff (fun _ => rfl) (fun x' emitted hends => ?_) fun x' emitted hleft => ?_
  · obtain ⟨bytes, hstrip⟩ := hends.completes
    exact ⟨(x', bytes), congrArg (fun r => some (r.map (x', ·))) hstrip⟩
  · exact congrArg (fun r => some (r.map (x', ·))) (stripOrSynthesize_fault hleft)

end Producing

/-! ## Whole messages -/

section Messages

variable {σ : Type} (C : Compress σ) (A : Allocator)

/-- The non-final fragments of a message, prepared and committed one by one: each
chunk beside the bytes it made. -/
inductive Committed : StreamingMessage σ → List (Bytes × Bytes) → StreamingMessage σ → Prop where
  | none {stream : StreamingMessage σ} : Committed stream [] stream
  | fragment {stream last : StreamingMessage σ} {chunk : Bytes} {sent : List (Bytes × Bytes)}
      {fragment : PreparedNonFinalFragment σ} :
      stream.prepareNonFinalFragment C A chunk = some (.ok fragment) →
      Committed fragment.commit.2 sent last →
      Committed stream ((chunk, fragment.commit.1) :: sent) last

/-- A message every part of which was prepared: its committed fragments, its last
chunk, and the bytes that one made. A whole message is a last chunk alone. -/
inductive Prepared (encoder : Encoder σ) : List (Bytes × Bytes) → Bytes → Bytes → Prop where
  | message {chunk : Bytes} {guard : PreparedMessage σ} :
      encoder.prepareMessage C A chunk = some (.ok guard) →
      Prepared encoder [] chunk (guard.commit C).1
  | streamed {stream last : StreamingMessage σ} {sent : List (Bytes × Bytes)} {chunk : Bytes}
      {fragment : PreparedFinalFragment σ} :
      encoder.beginStreamingMessage = .ok stream → Committed C A stream sent last →
      last.prepareFinalFragment C A chunk = some (.ok fragment) →
      Prepared encoder sent chunk (fragment.commit C).1

/-- What the backend did for chunk after chunk: it took each of them, and each it gave
bytes that end as they must. -/
inductive Emitted : σ → List (Bytes × Bytes) → σ → Prop where
  | none {x : σ} : Emitted x [] x
  | chunk {x x' last : σ} {chunk : Bytes} {rounds : List Exchange} {sent : List (Bytes × Bytes)} :
      Exchanges C A x chunk rounds x' → took rounds = chunk → Ends chunk (gave rounds) →
      Emitted x' sent last → Emitted x ((chunk, gave rounds) :: sent) last

variable {C A}

/-- A guard that is not prepared: what was produced failed, and its error is handed
back beside the encoder. -/
theorem guard_error_iff {α β ε : Type} {produced : Option (Except CodecError α)}
    {guard : Except CodecError α → Option (Except (CodecError × ε) β)} {vacated : ε}
    (herror : ∀ error, guard (.error error) = some (.error (error, vacated)))
    (hok : ∀ a, ∃ prepared, guard (.ok a) = some (.ok prepared)) :
    (∃ error, produced.bind guard = some (.error (error, vacated))) ↔
      ∃ error, produced = some (.error error) := by
  constructor
  · intro ⟨error, h⟩
    obtain ⟨answer, hanswer, h⟩ := Option.bind_eq_some_iff.mp h
    cases answer with
    | error error' => exact ⟨error', hanswer⟩
    | ok a =>
      obtain ⟨prepared, hprepared⟩ := hok a
      rw [hprepared] at h
      cases h
  · intro ⟨error, h⟩
    exact ⟨error, Option.bind_eq_some_iff.mpr ⟨_, h, herror error⟩⟩

theorem prepareNonFinalFragment_error_iff {stream : StreamingMessage σ} {chunk : Bytes} :
    (∃ error, stream.prepareNonFinalFragment C A chunk = some (.error (error, stream.encoder))) ↔
      Fault C A stream.compressor chunk := by
  rw [← produceNonFinal_error_iff]
  exact guard_error_iff (fun _ => rfl) fun _ => ⟨_, rfl⟩

theorem prepareFinalFragment_error_iff {stream : StreamingMessage σ} {chunk : Bytes} :
    (∃ error, stream.prepareFinalFragment C A chunk = some (.error (error, stream.encoder))) ↔
      Fault C A stream.compressor chunk := by
  rw [← produce_error_iff]
  exact guard_error_iff (fun _ => rfl) fun _ => ⟨_, rfl⟩

theorem prepareMessage_error_iff {encoder : Encoder σ} {x : σ}
    (hx : encoder.compressor = some x) {chunk : Bytes} :
    (∃ error, encoder.prepareMessage C A chunk = some (.error (error, encoder.vacated))) ↔
      Fault C A x chunk := by
  rw [← produce_error_iff]
  unfold Encoder.prepareMessage
  rw [hx]
  exact guard_error_iff (fun _ => rfl) fun _ => ⟨_, rfl⟩

theorem Committed.emitted {stream last : StreamingMessage σ} {sent : List (Bytes × Bytes)}
    (h : Committed C A stream sent last) : Emitted C A stream.compressor sent last.compressor := by
  induction h with
  | none => exact .none
  | @fragment stream last chunk sent fragment hprepare _ ih =>
    unfold StreamingMessage.prepareNonFinalFragment at hprepare
    obtain ⟨answer, hproduce, hprepare⟩ := Option.bind_eq_some_iff.mp hprepare
    cases answer with
    | error error => cases hprepare
    | ok pair =>
      obtain rfl := Except.ok.inj (Option.some.inj hprepare)
      obtain ⟨rounds, hrounds, hends, hbytes⟩ := produceNonFinal_gives hproduce
      have hcommit : (PreparedNonFinalFragment.commit ⟨stream.encoder, pair.1, pair.2⟩).1 =
          gave rounds := hbytes
      rw [hcommit]
      exact .chunk hrounds hrounds.taken_eq hends ih

/-- The last chunk of a message: what the compressor that was held did with it. -/
theorem Prepared.emitted {encoder : Encoder σ} {sent : List (Bytes × Bytes)} {chunk bytes : Bytes}
    (h : Prepared C A encoder sent chunk bytes) :
    ∃ x mid x' rounds, encoder.compressor = some x ∧ Emitted C A x sent mid ∧
      Exchanges C A mid chunk rounds x' ∧ Ends chunk (gave rounds) ∧
      bytes ++ trailer = completed chunk (gave rounds) := by
  cases h with
  | @message _ guard hprepare =>
    obtain ⟨x, output, hx, haligned, hstrip, -⟩ := prepareMessage_ok hprepare
    obtain ⟨rounds, hrounds, rfl⟩ := produceAligned_ok_iff.mp haligned
    exact ⟨x, x, _, rounds, hx, .none, hrounds, stripOrSynthesize_ok_iff.mp hstrip⟩
  | @streamed stream last _ _ fragment hbegin hcommitted hprepare =>
    obtain ⟨output, haligned, hstrip, -⟩ := prepareFinalFragment_ok hprepare
    obtain ⟨rounds, hrounds, rfl⟩ := produceAligned_ok_iff.mp haligned
    unfold Encoder.beginStreamingMessage at hbegin
    split at hbegin
    · cases hbegin
    · next x hx =>
      obtain rfl := Except.ok.inj hbegin
      exact ⟨x, _, _, rounds, hx, hcommitted.emitted, hrounds, stripOrSynthesize_ok_iff.mp hstrip⟩

/-- **What one message puts on the wire**, over any backend. If every part of it was
prepared, the backend took each chunk, byte for byte; each non-final fragment is what
it gave for its chunk, which ends in the trailer unless there was neither chunk nor
bytes; and all fragments with the trailer behind them are all that the backend gave,
with the empty block in place of a last chunk that came to nothing. A prepare that
returns fails exactly for a fault of the backend, and leaves a vacant encoder. -/
theorem message_on_wire (C : Compress σ) (A : Allocator) :
    (∀ (encoder : Encoder σ) (sent : List (Bytes × Bytes)) (chunk bytes : Bytes),
      Prepared C A encoder sent chunk bytes →
      ∃ x mid x' rounds, encoder.compressor = some x ∧ Emitted C A x sent mid ∧
        Exchanges C A mid chunk rounds x' ∧ took rounds = chunk ∧
        (sent.map (·.2)).flatten ++ bytes ++ [0x00, 0x00, 0xff, 0xff] =
          (sent.map (·.2)).flatten ++
            if chunk = [] ∧ gave rounds = [] then [0x00, 0x00, 0x00, 0xff, 0xff]
            else gave rounds) ∧
    (∀ (encoder : Encoder σ) (x : σ) (chunk : Bytes), encoder.compressor = some x →
      ((∃ error, encoder.prepareMessage C A chunk = some (.error (error, encoder.vacated))) ↔
        Fault C A x chunk)) ∧
    ∀ (stream : StreamingMessage σ) (chunk : Bytes),
      ((∃ error, stream.prepareNonFinalFragment C A chunk =
          some (.error (error, stream.encoder))) ↔ Fault C A stream.compressor chunk) ∧
      ((∃ error, stream.prepareFinalFragment C A chunk =
          some (.error (error, stream.encoder))) ↔ Fault C A stream.compressor chunk) := by
  refine ⟨fun encoder sent chunk bytes hprepared => ?_, fun encoder x chunk hx => ?_,
    fun stream chunk => ⟨?_, ?_⟩⟩
  · obtain ⟨x, mid, x', rounds, hx, hsent, hrounds, -, hbytes⟩ := hprepared.emitted
    refine ⟨x, mid, x', rounds, hx, hsent, hrounds, hrounds.taken_eq, ?_⟩
    rw [List.append_assoc]
    exact congrArg _ hbytes
  · exact prepareMessage_error_iff hx
  · exact prepareNonFinalFragment_error_iff
  · exact prepareFinalFragment_error_iff

/-- A message in three fragments, over a backend that stores. -/
theorem message_on_wire_stored :
    ∃ x mid x' rounds, some ⟨[], [], 0, 0⟩ = some x ∧
      Emitted storedCompress exactAllocator x
        [([0x61], [0x00, 0x01, 0x00, 0xfe, 0xff, 0x61, 0x00, 0x00, 0x00, 0xff, 0xff]),
          ([0x62], [0x00, 0x01, 0x00, 0xfe, 0xff, 0x62, 0x00, 0x00, 0x00, 0xff, 0xff])] mid ∧
      Exchanges storedCompress exactAllocator mid [0x63] rounds x' ∧ took rounds = [0x63] ∧
      gave rounds = [0x00, 0x01, 0x00, 0xfe, 0xff, 0x63, 0x00] ++ [0x00, 0x00, 0xff, 0xff] := by
  have hbegin : Encoder.beginStreamingMessage (⟨some ⟨[], [], 0, 0⟩, false⟩ : Encoder Stored) =
      .ok ⟨⟨none, false⟩, ⟨[], [], 0, 0⟩⟩ := rfl
  have hcommitted : Committed storedCompress exactAllocator ⟨⟨none, false⟩, ⟨[], [], 0, 0⟩⟩
      [([0x61], [0x00, 0x01, 0x00, 0xfe, 0xff, 0x61, 0x00, 0x00, 0x00, 0xff, 0xff]),
        ([0x62], [0x00, 0x01, 0x00, 0xfe, 0xff, 0x62, 0x00, 0x00, 0x00, 0xff, 0xff])]
      ⟨⟨none, false⟩, ⟨[], [], 2, 22⟩⟩ :=
    .fragment (stored_nonFinal _ _ _ _) (.fragment (stored_nonFinal _ _ _ _) .none)
  obtain ⟨x, mid, x', rounds, hx, hsent, hrounds, htook, hbytes⟩ :=
    (message_on_wire storedCompress exactAllocator).1 _ _ _ _
      (.streamed hbegin hcommitted (stored_final _ 0x63 2 22))
  refine ⟨x, mid, x', rounds, hx, hsent, hrounds, htook, ?_⟩
  rw [List.append_assoc] at hbytes
  exact (List.append_cancel_left hbytes).symm

end Messages

end WsPmd.Encoding
