import WsPmd.Decoder.Turn
import Mathlib.Data.List.DropRight

/-!
# The ceiling and the poison, over whole runs

`run` makes a sequence of calls on one decoder. For any backend and any limits
below `usize::MAX` the answers are successes, then at most one other failure,
then nothing but `Poisoned`; and the counter the decoder carries is exactly what
the message in progress has been given so far, which each success keeps within
the limit of that very call.
-/

namespace WsPmd.Decoding

open Grammar (Bytes)

/-- One call as the host makes it. -/
structure Call where
  input : Bytes
  finalFragment : Bool
  limit : DecompressedLimit
  deriving DecidableEq

section Runs

variable {σ : Type} (D : Decompress σ)

/-- A sequence of calls on one decoder, with their answers. -/
def run (decoder : Decoder σ) :
    List Call → Option (List (Except CodecError Bytes) × Decoder σ)
  | [] => some ([], decoder)
  | call :: calls => do
    let (result, decoder) ← decoder.decompress D call.input call.finalFragment call.limit
    let (results, decoder) ← run decoder calls
    some (result :: results, decoder)

@[simp] theorem run_nil (decoder : Decoder σ) : run D decoder [] = some ([], decoder) := rfl

variable {D}

theorem run_cons {decoder next last : Decoder σ} {call : Call} {calls : List Call}
    {result : Except CodecError Bytes} {results : List (Except CodecError Bytes)}
    (h : decoder.decompress D call.input call.finalFragment call.limit = some (result, next))
    (hr : run D next calls = some (results, last)) :
    run D decoder (call :: calls) = some (result :: results, last) := by
  simp only [run, h, Option.bind_eq_bind, Option.bind_some, hr]

theorem run_append {decoder next last : Decoder σ} {calls calls' : List Call}
    {results results' : List (Except CodecError Bytes)}
    (h : run D decoder calls = some (results, next))
    (h' : run D next calls' = some (results', last)) :
    run D decoder (calls ++ calls') = some (results ++ results', last) := by
  induction calls generalizing decoder results with
  | nil =>
    obtain ⟨rfl, rfl⟩ := Prod.mk.inj (Option.some.inj h)
    exact h'
  | cons call calls ih =>
    simp only [run, Option.bind_eq_bind, Option.bind_eq_some_iff] at h
    obtain ⟨⟨result, mid⟩, hcall, ⟨more, next'⟩, hmore, he⟩ := h
    obtain ⟨rfl, rfl⟩ := Prod.mk.inj (Option.some.inj he)
    exact run_cons hcall (ih hmore)

/-- The last call of a run, and the run before it. -/
theorem run_concat {decoder last : Decoder σ} {calls : List Call} {call : Call}
    {results : List (Except CodecError Bytes)}
    (h : run D decoder (calls ++ [call]) = some (results, last)) :
    ∃ before mid result, run D decoder calls = some (before, mid) ∧
      mid.decompress D call.input call.finalFragment call.limit = some (result, last) ∧
      results = before ++ [result] := by
  induction calls generalizing decoder results with
  | nil =>
    simp only [List.nil_append, run, Option.bind_eq_bind, Option.bind_eq_some_iff] at h
    obtain ⟨⟨result, next⟩, hcall, ⟨more, last'⟩, hmore, he⟩ := h
    obtain ⟨rfl, rfl⟩ := Prod.mk.inj (Option.some.inj hmore)
    obtain ⟨rfl, rfl⟩ := Prod.mk.inj (Option.some.inj he)
    exact ⟨[], decoder, result, rfl, hcall, rfl⟩
  | cons first calls ih =>
    simp only [List.cons_append, run, Option.bind_eq_bind, Option.bind_eq_some_iff] at h
    obtain ⟨⟨result, next⟩, hcall, ⟨more, last'⟩, hmore, he⟩ := h
    obtain ⟨rfl, rfl⟩ := Prod.mk.inj (Option.some.inj he)
    obtain ⟨before, mid, answer, hbefore, hlast, rfl⟩ := ih hmore
    exact ⟨result :: before, mid, answer, run_cons hcall hbefore, hlast, rfl⟩

/-- From a poisoned decoder every call of every backend is `Poisoned`. -/
theorem run_poisoned (D : Decompress σ) {decoder : Decoder σ} (h : decoder.poisoned = true)
    (calls : List Call) :
    run D decoder calls = some (calls.map fun _ => .error .poisoned, decoder) := by
  induction calls with
  | nil => rfl
  | cons call calls ih => exact run_cons (decompress_poisoned D h _ _ _) ih

end Runs

/-- The successful calls of one decoder, each beside the bytes it returned. -/
abbrev Log := List (Call × Bytes)

/-- The bytes returned for the message in progress: those of the calls behind the
last final one. -/
def messageBytes (log : Log) : ℕ :=
  ((log.rtakeWhile fun entry => !entry.1.finalFragment).map (·.2.length)).sum

theorem messageBytes_concat (log : Log) (call : Call) (out : Bytes) :
    messageBytes (log ++ [(call, out)]) =
      if call.finalFragment then 0 else messageBytes log + out.length := by
  unfold messageBytes
  by_cases hf : call.finalFragment
  · rw [List.rtakeWhile_concat_neg _ _ _ (by simp [hf]), if_pos hf]
    rfl
  · rw [List.rtakeWhile_concat_pos _ _ _ (by simpa using hf), if_neg hf, List.map_append,
      List.sum_append]
    simp

section Ceiling

variable {σ : Type} {D : Decompress σ}

/-- A decoder that has answered every call of a log with success: it is live, and
its counter is what the message in progress was given. -/
structure Carries (decoder : Decoder σ) (log : Log) : Prop where
  live : decoder.poisoned = false
  delivered : decoder.delivered = messageBytes log

/-- One more success: within this call's limit, and counted. -/
theorem Carries.call {decoder next : Decoder σ} {log : Log} (h : Carries decoder log) {call : Call}
    (hl : call.limit.bytes < usizeMax) {out : Bytes}
    (hc : decoder.decompress D call.input call.finalFragment call.limit = some (.ok out, next)) :
    messageBytes log + out.length ≤ call.limit.bytes ∧ Carries next (log ++ [(call, out)]) := by
  obtain ⟨hsize, hlive, hdelivered⟩ := (decompress_spec h.live hc).within out rfl
  obtain ⟨hfit, hsum⟩ := add_le_of_saturatingAdd hsize hl
  rw [h.delivered] at hfit hsum hdelivered
  refine ⟨hfit, hlive, ?_⟩
  rw [hdelivered, messageBytes_concat, hsum]

/-- How a run of calls can go on from a decoder that carries `past`. -/
structure Answered (D : Decompress σ) (decoder : Decoder σ) (past : Log) (calls : List Call)
    (seen : Log) (left : List Call) (results : List (Except CodecError Bytes))
    (last : Decoder σ) : Prop where
  returned : run D decoder calls = some (results, last)
  calls_eq : calls = seen.map (·.1) ++ left
  shape : (left = [] ∧ results = seen.map fun entry => .ok entry.2) ∨
    ∃ call rest error, left = call :: rest ∧ error ≠ .poisoned ∧
      (results = (seen.map fun entry => .ok entry.2) ++
        .error error :: rest.map fun _ => .error .poisoned) ∧
      ∀ (D' : Decompress σ) (calls' : List Call),
        run D' last calls' = some (calls'.map fun _ => .error .poisoned, last)
  within : ∀ before call out after, seen = before ++ (call, out) :: after →
    messageBytes (past ++ before) + out.length ≤ call.limit.bytes
  carried : ∀ before after, seen = before ++ after →
    ∃ next, run D decoder (before.map (·.1)) = some (before.map fun entry => .ok entry.2, next) ∧
      Carries next (past ++ before)

theorem Carries.run {calls : List Call} (hl : ∀ call ∈ calls, call.limit.bytes < usizeMax) :
    ∀ {decoder : Decoder σ} {past : Log}, Carries decoder past →
      ∃ seen left results last, Answered D decoder past calls seen left results last := by
  induction calls with
  | nil =>
    intro decoder past h
    refine ⟨[], [], [], decoder, rfl, rfl, Or.inl ⟨rfl, rfl⟩, ?_, ?_⟩
    · intro before call out after hs
      cases before <;> cases hs
    · intro before after hs
      obtain ⟨rfl, -⟩ := List.append_eq_nil_iff.mp hs.symm
      exact ⟨decoder, rfl, by rwa [List.append_nil]⟩
  | cons call calls ih =>
    intro decoder past h
    obtain ⟨hcall, hcalls⟩ := List.forall_mem_cons.mp hl
    obtain ⟨⟨result, next⟩, hnext⟩ :=
      decompress_returns (D := D) hcall decoder call.input call.finalFragment
    cases result with
    | error error =>
      obtain ⟨hne, hpoisoned⟩ := (decompress_spec h.live hnext).failed error rfl
      refine ⟨[], call :: calls, _, next, run_cons hnext (run_poisoned D hpoisoned calls), rfl,
        Or.inr ⟨call, calls, error, rfl, hne, rfl, fun D' => run_poisoned D' hpoisoned⟩, ?_, ?_⟩
      · intro before call out after hs
        cases before <;> cases hs
      · intro before after hs
        obtain ⟨rfl, -⟩ := List.append_eq_nil_iff.mp hs.symm
        exact ⟨decoder, rfl, by rwa [List.append_nil]⟩
    | ok out =>
      obtain ⟨hfit, hcarries⟩ := h.call hcall hnext
      obtain ⟨seen, left, results, last, hans⟩ := ih hcalls hcarries
      refine ⟨(call, out) :: seen, left, _, last, run_cons hnext hans.returned, ?_, ?_, ?_, ?_⟩
      · rw [hans.calls_eq]
        rfl
      · rcases hans.shape with ⟨hleft, hres⟩ | ⟨c, rest, error, hleft, hne, hres, hlast⟩
        · exact Or.inl ⟨hleft, by rw [hres]; rfl⟩
        · exact Or.inr ⟨c, rest, error, hleft, hne, by rw [hres]; rfl, hlast⟩
      · intro before call' out' after hs
        cases before with
        | nil =>
          obtain ⟨he, -⟩ := List.cons.inj hs
          obtain ⟨rfl, rfl⟩ := Prod.mk.inj he
          rwa [List.append_nil]
        | cons entry before =>
          obtain ⟨rfl, htail⟩ := List.cons.inj hs
          have hw := hans.within before call' out' after htail
          rwa [List.append_assoc] at hw
      · intro before after hs
        cases before with
        | nil => exact ⟨decoder, rfl, by rwa [List.append_nil]⟩
        | cons entry before =>
          obtain ⟨rfl, htail⟩ := List.cons.inj hs
          obtain ⟨next', hrun, hc⟩ := hans.carried before after htail
          refine ⟨next', run_cons hnext hrun, ?_⟩
          rwa [List.append_assoc] at hc

/-- **The decompression ceiling.** Every run of calls on a decoder as it is minted
returns, over any backend. Its answers are successes, then at most one failure
that is not `Poisoned`, then only `Poisoned`, which no backend has a part in. At
every success what the message has been given, this call included, is within
this call's limit, and the decoder's counter starts over exactly behind the
final ones. -/
theorem decompression_ceiling (D : Decompress σ) (peerMaxWindowBits : ℕ)
    (peerNoContextTakeover : Bool) (calls : List Call)
    (hl : ∀ call ∈ calls, call.limit.bytes < usizeMax) :
    ∃ (seen : Log) (left : List Call) (results : List (Except CodecError Bytes))
      (last : Decoder σ),
      run D (Decoder.forPeer D peerMaxWindowBits peerNoContextTakeover) calls =
        some (results, last) ∧
      calls = seen.map (·.1) ++ left ∧
      ((left = [] ∧ results = seen.map fun entry => .ok entry.2) ∨
        ∃ call rest error, left = call :: rest ∧ error ≠ .poisoned ∧
          (results = (seen.map fun entry => .ok entry.2) ++
            .error error :: rest.map fun _ => .error .poisoned) ∧
          ∀ (D' : Decompress σ) (calls' : List Call),
            run D' last calls' = some (calls'.map fun _ => .error .poisoned, last)) ∧
      (∀ before call out after, seen = before ++ (call, out) :: after →
        messageBytes before + out.length ≤ call.limit.bytes) ∧
      ∀ before after, seen = before ++ after →
        ∃ next, run D (Decoder.forPeer D peerMaxWindowBits peerNoContextTakeover)
            (before.map (·.1)) = some (before.map fun entry => .ok entry.2, next) ∧
          next.delivered = messageBytes before := by
  have hmint : Carries (Decoder.forPeer D peerMaxWindowBits peerNoContextTakeover) [] := ⟨rfl, rfl⟩
  obtain ⟨seen, left, results, last, hans⟩ := Carries.run (D := D) hl hmint
  refine ⟨seen, left, results, last, hans.returned, hans.calls_eq, hans.shape, hans.within, ?_⟩
  intro before after hs
  obtain ⟨next, hrun, hc⟩ := hans.carried before after hs
  exact ⟨next, hrun, hc.delivered⟩

end Ceiling

/-- A backend that copies its input, as far as there is room for it. -/
def copyDecompress : Decompress (ℕ × ℕ) where
  newWithWindowBits := fun _ _ => (0, 0)
  reset := fun _ _ => (0, 0)
  totalIn := Prod.fst
  totalOut := Prod.snd
  decompress := fun totals input room => {
    state := (totals.1 + min input.length room, totals.2 + min input.length room)
    scratch := input.take room ++ .replicate (room - input.length) 0
    scratch_length := by
      rw [List.length_append, List.length_take, List.length_replicate]
      omega
    status := some .ok }

/-- Two bytes in two fragments under a ceiling of one. -/
theorem decompression_ceiling_copy :
    ∃ (seen : Log) (left : List Call) (results : List (Except CodecError Bytes))
      (last : Decoder (ℕ × ℕ)),
      run copyDecompress (Decoder.forPeer copyDecompress 15 false)
        [⟨[7], false, ⟨1, by decide⟩⟩, ⟨[8], true, ⟨1, by decide⟩⟩] = some (results, last) ∧
      ∀ before call out after, seen = before ++ (call, out) :: after →
        messageBytes before + out.length ≤ call.limit.bytes := by
  obtain ⟨seen, left, results, last, hrun, -, -, hwithin, -⟩ :=
    decompression_ceiling copyDecompress 15 false
      [⟨[7], false, ⟨1, by decide⟩⟩, ⟨[8], true, ⟨1, by decide⟩⟩] (by decide)
  exact ⟨seen, left, results, last, hrun, hwithin⟩

end WsPmd.Decoding
