import WsPmd.Decoder.Bounds
import WsPmd.Library.ByteMachine

/-!
# Inflaters that are byte-driven machines

The law a backend is held to when the decoder's answers are to be computed: its
state is a machine beside the output it owes, and a call is greedy. It stops
only when its input is drained, its room is full, its stream is over or its
input is invalid; it reports an end in the call that hands over the last of the
stream, and an invalid stream once there is room for what came before the fault.
The machine is the backend's own, and invalid where the backend finds it so. A
backend that notices a fault bytes behind it, or never, is a machine that takes
those bytes; what it has to do with DEFLATE is up to `Inflater`, which asks
nothing of strings that are not. `greedyInflater` is such a backend for any
machine.
-/

namespace WsPmd.Decoding

open Grammar (Bytes)
open Library
open Library.ByteMachine (Position Pending)

variable {S : Type}

/-- One call that answers: it takes `taken` off the input, and hands over as much
of what is then due as there is room for. -/
structure Moves (M : ByteMachine S) (x : Pending S) (input : Bytes) (room : ℕ)
    (call : Decompressed (Pending S) room) (status : Status) (taken rest output : Bytes)
    (s' : S) : Prop where
  input_eq : input = taken ++ rest
  consumes : M.Consumes x.state taken output s'
  scratch : call.scratch.take (min room (x.owed ++ output).length) = (x.owed ++ output).take room
  state : call.state = ⟨s', (x.owed ++ output).drop room, x.totalIn + taken.length,
    x.totalOut + min room (x.owed ++ output).length⟩
  ended : status = .streamEnd ↔ M.phase s' = .ended ∧ (x.owed ++ output).length ≤ room
  stopped : rest ≠ [] → M.phase s' ≠ .live ∨ room ≤ (x.owed ++ output).length
  valid : M.phase s' = .invalid → room ≤ (x.owed ++ output).length

/-- A backend that is the machine `M`, greedily driven, at one window width. -/
structure Greedy (M : ByteMachine S) (D : Decompress (Pending S)) (windowBits : ℕ) : Prop where
  build : D.newWithWindowBits false windowBits = M.pendingFresh
  reset : windowBits = defaultInflaterWindowBits → ∀ x, D.reset x false = M.pendingFresh
  totalIn : ∀ x, D.totalIn x = x.totalIn
  totalOut : ∀ x, D.totalOut x = x.totalOut
  failed : ∀ x input room, (D.decompress x input room).status = none →
    ∃ taken rest output s', input = taken ++ rest ∧ M.Consumes x.state taken output s' ∧
      M.phase s' = .invalid
  moved : ∀ x input room status, (D.decompress x input room).status = some status →
    ∃ taken rest output s',
      Moves M x input room (D.decompress x input room) status taken rest output s'

/-! ## A greedy backend for every machine -/

/-- Take bytes until the room is due, the stream is over or the input is drained. -/
def drive (M : ByteMachine S) (room : ℕ) : S → Bytes → Bytes → S × Bytes × Bytes
  | s, due, [] => (s, due, [])
  | s, due, byte :: bytes =>
    if M.phase s = .live ∧ due.length < room then
      drive M room (M.feed s byte).1 (due ++ (M.feed s byte).2) bytes
    else (s, due, byte :: bytes)

theorem drive_spec (M : ByteMachine S) (room : ℕ) (input : Bytes) :
    ∀ (s : S) (due : Bytes), ∃ taken output, input = taken ++ (drive M room s due input).2.2 ∧
      M.Consumes s taken output (drive M room s due input).1 ∧
      (drive M room s due input).2.1 = due ++ output ∧
      ((drive M room s due input).2.2 ≠ [] →
        M.phase (drive M room s due input).1 ≠ .live ∨
          room ≤ (drive M room s due input).2.1.length) := by
  induction input with
  | nil =>
    exact fun s due => ⟨[], [], rfl, .nil s, (List.append_nil due).symm, fun h => absurd rfl h⟩
  | cons byte bytes ih =>
    intro s due
    by_cases hgo : M.phase s = .live ∧ due.length < room
    · obtain ⟨taken, output, hin, hcons, hdue, hstop⟩ :=
        ih (M.feed s byte).1 (due ++ (M.feed s byte).2)
      rw [drive, if_pos hgo]
      refine ⟨byte :: taken, (M.feed s byte).2 ++ output, ?_, .cons hgo.1 hcons, ?_, hstop⟩
      · rw [List.cons_append, ← hin]
      · rw [hdue, List.append_assoc]
    · rw [drive, if_neg hgo]
      refine ⟨[], [], rfl, .nil s, (List.append_nil due).symm, fun _ => ?_⟩
      by_cases hlive : M.phase s = .live
      · exact Or.inr (Nat.le_of_not_lt fun h => hgo ⟨hlive, h⟩)
      · exact Or.inl hlive

/-- What a call reports about where it stopped. -/
def driveStatus (M : ByteMachine S) (room : ℕ) (s : S) (due : Bytes) : Option Status :=
  if M.phase s = .invalid ∧ due.length < room then none
  else if M.phase s = .ended ∧ due.length ≤ room then some .streamEnd
  else some .ok

/-- The machine as a `flate2` inflater. -/
def greedyInflater (M : ByteMachine S) : Decompress (Pending S) where
  newWithWindowBits := fun _ _ => M.pendingFresh
  reset := fun _ _ => M.pendingFresh
  totalIn := Pending.totalIn
  totalOut := Pending.totalOut
  decompress := fun x input room =>
    let (s, due, rest) := drive M room x.state x.owed input
    { state := ⟨s, due.drop room, x.totalIn + (input.length - rest.length),
        x.totalOut + min room due.length⟩
      scratch := due.take room ++ .replicate (room - due.length) 0
      scratch_length := by
        rw [List.length_append, List.length_take, List.length_replicate]
        omega
      status := driveStatus M room s due }

theorem greedyInflater_greedy (M : ByteMachine S) (windowBits : ℕ) :
    Greedy M (greedyInflater M) windowBits where
  build := rfl
  reset := fun _ _ => rfl
  totalIn := fun _ => rfl
  totalOut := fun _ => rfl
  failed := by
    intro x input room h
    obtain ⟨taken, output, hin, hcons, -, -⟩ := drive_spec M room input x.state x.owed
    refine ⟨taken, _, output, _, hin, hcons, ?_⟩
    by_contra hvalid
    change driveStatus M room _ _ = none at h
    unfold driveStatus at h
    rw [if_neg fun hi => hvalid hi.1] at h
    split at h <;> cases h
  moved := by
    intro x input room status h
    obtain ⟨taken, output, hin, hcons, hdue, hstop⟩ := drive_spec M room input x.state x.owed
    change driveStatus M room _ _ = some status at h
    have htaken : input.length - (drive M room x.state x.owed input).2.2.length = taken.length := by
      have hlen := congrArg List.length hin
      rw [List.length_append] at hlen
      omega
    refine ⟨taken, _, output, _, hin, hcons, ?_, ?_, ?_, hdue ▸ hstop, ?_⟩
    · change ((drive M room x.state x.owed input).2.1.take room ++ _).take _ = _
      rw [hdue]
      exact List.take_left' List.length_take
    · change Pending.mk _ _ (x.totalIn + (input.length - _)) _ = _
      rw [htaken, hdue]
    · unfold driveStatus at h
      rw [hdue] at h
      split at h
      · cases h
      · split at h
        · next hend => exact ⟨fun _ => hend, fun _ => (Option.some.inj h).symm⟩
        · next hend => exact ⟨fun he => (by rw [he] at h; cases h), fun he => absurd he hend⟩
    · intro hinvalid
      unfold driveStatus at h
      rw [hdue] at h
      by_contra hroom
      rw [if_pos ⟨hinvalid, Nat.lt_of_not_le hroom⟩] at h
      cases h

end WsPmd.Decoding
