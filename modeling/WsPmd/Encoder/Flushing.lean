import WsPmd.Encoder.SyncFlush

/-!
# How many flushes a chunk takes

The flush loop cannot tell a flush that is done from one that filled its room exactly,
so it flushes again whenever the room is used up. Behind a flush that was done the
backend answers the next one with an empty stored block, which is five octets and so
leaves room to spare: the loop ends there. What the room is derived from keeps the
flush of a whole chunk under it, and then the loop goes round once.
-/

namespace WsPmd.Encoding

open Grammar (Bytes)
open Library

/-- The empty stored block a flush of nothing appends. -/
def redundantBlock : Bytes := 0x00 :: trailer

section Protocol

variable {σ : Type} (C : Compress σ)

/-- How a backend flushes. `due` says what the next flushes are to give, as much of it
each time as there is room for. A flush that gives all of it and leaves room is done; one
that gives all of it and fills the room has the next one begin a flush of its own. -/
structure FlushProtocol (due : σ → Bytes → Prop) : Prop where
  answers : ∀ {x residue room}, due x residue → 0 < room → Answers C x [] .sync room
  gives : ∀ {x residue room}, due x residue → 0 < room →
    (C.compressVec x [] .sync room).appended = residue.take room
  counts : ∀ {x residue room}, due x residue → 0 < room →
    produced C x [] .sync room = min residue.length room
  goes_on : ∀ {x residue room}, due x residue → 0 < room → room < residue.length →
    due (C.compressVec x [] .sync room).state (residue.drop room)
  rearms : ∀ {x residue room}, due x residue → 0 < room → residue.length = room →
    due (C.compressVec x [] .sync room).state redundantBlock

end Protocol

section Rooms

variable (A : Allocator)

theorem le_offered (room : ℕ) (output : Output) : room ≤ offered A room output := by
  unfold offered Output.reserve
  split
  · assumption
  · have hgrow := A.grow_ge output.capacity output.bytes.length room
    unfold Output.spare
    simp only
    omega

/-- The sum in `room_for` never reaches `usize::MAX` while it matters. -/
theorem roomFor_eq (n : ℕ) : roomFor n = min blockRoom (n + framingMargin) := by
  unfold roomFor saturatingAdd blockRoom framingMargin usizeMax
  omega

theorem redundantBlock_lt (n : ℕ) : redundantBlock.length < roomFor n := by
  have hlength : redundantBlock.length = 5 := rfl
  rw [roomFor_eq, hlength]
  unfold blockRoom framingMargin
  omega

/-- What one flush of a chunk is bounded by: its own length and a header for each stored
block of it and for the empty one, or one stored block of the greatest length. -/
def residueBound (n : ℕ) : ℕ :=
  if n ≤ 131008 then n + 5 * ((n + 65534) / 65535) + 5 else 65540

theorem residueBound_lt (n : ℕ) : residueBound n < roomFor n := by
  rw [roomFor_eq]
  unfold residueBound blockRoom framingMargin
  split <;> omega

end Rooms

section Flushing

variable {σ : Type} {C : Compress σ} {due : σ → Bytes → Prop} {A : Allocator} {room : ℕ}

/-- The flush that gives all that is due and leaves room to spare. -/
theorem FlushProtocol.once (h : FlushProtocol C due) {x : σ} {residue : Bytes}
    (hdue : due x residue) (output : Output) (hfits : residue.length < offered A room output) :
    ∃ last, Flushes C A room (x, output) [⟨[], residue⟩] last := by
  have hroom : 0 < offered A room output := Nat.zero_lt_of_lt hfits
  have hgives := h.gives hdue hroom
  rw [List.take_of_length_le hfits.le] at hgives
  have hcounts := h.counts hdue hroom
  rw [Nat.min_eq_left hfits.le] at hcounts
  rw [← hgives]
  exact ⟨_, .last (h.answers hdue hroom) (hcounts.trans_lt hfits)⟩

/-- **The flush loop ends**, with what was due or with that and one more block. -/
theorem FlushProtocol.flushes (h : FlushProtocol C due) (hroom : redundantBlock.length < room)
    (length : ℕ) : ∀ (x : σ) (residue : Bytes) (output : Output), residue.length = length →
      due x residue → ∃ rounds last, Flushes C A room (x, output) rounds last ∧
        (gave rounds = residue ∨ gave rounds = residue ++ redundantBlock) := by
  induction length using Nat.strong_induction_on with
  | _ length ih =>
    intro x residue output hlength hdue
    have hoffered : room ≤ offered A room output := le_offered A room output
    have hpos : 0 < offered A room output := by omega
    have hgives := h.gives hdue hpos
    have hcounts := h.counts hdue hpos
    have hanswers := h.answers hdue hpos
    rcases Nat.lt_trichotomy residue.length (offered A room output) with hfits | hfull | hmore
    · obtain ⟨last, hlast⟩ := h.once hdue output hfits
      exact ⟨_, last, hlast, Or.inl (List.append_nil _)⟩
    · -- Done, but the loop cannot see it: one more flush, of an empty block.
      have hnext := h.rearms hdue hpos hfull
      rw [hfull, Nat.min_self] at hcounts
      rw [List.take_of_length_le hfull.le] at hgives
      have hrest : redundantBlock.length < offered A room
          (flushNext C A room (x, output)).2 := hroom.trans_le (le_offered A room _)
      obtain ⟨last, hlast⟩ := h.once hnext _ hrest
      refine ⟨_, last, .round hanswers hcounts.ge hlast, Or.inr ?_⟩
      rw [gave_cons, gave_cons]
      exact congrArg₂ _ hgives (List.append_nil _)
    · have hnext := h.goes_on hdue hpos hmore
      rw [Nat.min_eq_right hmore.le] at hcounts
      have hshorter : (residue.drop (offered A room output)).length < length := by
        rw [List.length_drop]
        omega
      obtain ⟨rounds, last, hrounds, hgave⟩ := ih _ hshorter _ _
        (flushNext C A room (x, output)).2 rfl hnext
      have hsplit : residue = (flushCall C A room (x, output)).appended ++
          residue.drop (offered A room output) := by
        have hcall : (flushCall C A room (x, output)).appended =
          residue.take (offered A room output) := hgives
        rw [hcall, List.take_append_drop]
      refine ⟨_, last, .round hanswers hcounts.ge hrounds, ?_⟩
      rw [gave_cons]
      rcases hgave with hgave | hgave
      · left
        rw [hgave]
        exact hsplit.symm
      · right
        rw [hgave, ← List.append_assoc]
        exact congrArg (· ++ redundantBlock) hsplit.symm

theorem trailer_redundantBlock (residue : Bytes) : trailer <:+ residue ++ redundantBlock :=
  (List.suffix_cons 0x00 trailer).trans (List.suffix_append residue redundantBlock)

/-- **The flush loop ends, with at most one redundant block.** Over a backend that flushes
as zlib does, whatever is due behind a chunk of any length, and whatever room the
allocator gives for the room asked: the flush answers with what was due, or with that
and one empty block, and either way with the trailer last. Where what is due is no more
than stored blocks of the chunk are, one backend call does it and nothing is added. -/
theorem sync_flush_ends (h : FlushProtocol C due) (A : Allocator) (n : ℕ) {x : σ}
    {residue : Bytes} (hdue : due x residue) (htail : trailer <:+ residue) (output : Output) :
    ∃ rounds last, syncFlush C A x output (roomFor n) = some (.ok last) ∧
      Flushes C A (roomFor n) (x, output) rounds last ∧
      last.2.bytes = output.bytes ++ gave rounds ∧
      (gave rounds = residue ∨ gave rounds = residue ++ redundantBlock) ∧
      trailer <:+ gave rounds ∧
      (residue.length ≤ residueBound n → rounds.length = 1 ∧ gave rounds = residue) ∧
      roomFor n = min blockRoom (n + framingMargin) := by
  by_cases hbound : residue.length ≤ residueBound n
  · have hfits : residue.length < offered A (roomFor n) output :=
      (hbound.trans_lt (residueBound_lt n)).trans_le (le_offered A _ output)
    obtain ⟨last, hlast⟩ := h.once hdue output hfits
    have hgave : gave [⟨[], residue⟩] = residue := List.append_nil _
    refine ⟨_, last, syncFlush_ok_iff.mpr ⟨_, hlast⟩, hlast, hlast.bytes_eq, Or.inl hgave, ?_,
      fun _ => ⟨rfl, hgave⟩, roomFor_eq n⟩
    rwa [hgave]
  · obtain ⟨rounds, last, hrounds, hgave⟩ := h.flushes (A := A) (redundantBlock_lt n) _ x residue
      output rfl hdue
    refine ⟨rounds, last, syncFlush_ok_iff.mpr ⟨_, hrounds⟩, hrounds, hrounds.bytes_eq, hgave, ?_,
      fun hle => absurd hle hbound, roomFor_eq n⟩
    rcases hgave with hgave | hgave
    · rwa [hgave]
    · rw [hgave]
      exact trailer_redundantBlock residue

end Flushing

/-! ## A backend that flushes so -/

/-- The backend that stores, as zlib would flush it: a flush that fills its room exactly
owes an empty block. -/
def rearmingCompress : Compress Stored where
  newWithWindowBits := storedCompress.newWithWindowBits
  reset := storedCompress.reset
  totalIn := Stored.totalIn
  totalOut := Stored.totalOut
  compressVec := fun x input flush room =>
    match flush with
    | .none => storedCompress.compressVec x input .none room
    | .sync =>
      let due := x.owed ++ storedFlush (x.held ++ input)
      { state := ⟨[], if due.length = room then redundantBlock else due.drop room,
          x.totalIn + input.length, x.totalOut + (due.take room).length⟩
        appended := due.take room
        appended_le := List.length_take_le room due
        status := some .ok }

/-- What the backend owes once it holds nothing. -/
def Owes (x : Stored) (residue : Bytes) : Prop := x.held = [] ∧ x.owed = residue

theorem rearmingCompress_protocol : FlushProtocol rearmingCompress Owes := by
  have hflush {x : Stored} {residue : Bytes} (h : Owes x residue) :
      x.owed ++ storedFlush (x.held ++ []) = residue := by
    rw [h.1, h.2]
    exact List.append_nil residue
  have howed {x : Stored} {residue : Bytes} (h : Owes x residue) (room : ℕ) :
      (rearmingCompress.compressVec x [] .sync room).state.owed =
        if residue.length = room then redundantBlock else residue.drop room := by
    rw [← hflush h]
    rfl
  constructor
  · intro x residue room _ _
    exact ⟨.ok, rfl, nofun⟩
  · intro x residue room h _
    rw [← hflush h]
    rfl
  · intro x residue room h _
    rw [Nat.min_comm, ← List.length_take, ← hflush h]
    exact Nat.add_sub_cancel_left _ _
  · intro x residue room h _ hmore
    exact ⟨rfl, (howed h room).trans (if_neg hmore.ne')⟩
  · intro x residue room h _ hfull
    exact ⟨rfl, (howed h room).trans (if_pos hfull)⟩

/-- Sixty five octets behind one byte of payload fill the room to the last. -/
theorem sync_flush_ends_full :
    ∃ rounds last, syncFlush rearmingCompress exactAllocator
        ⟨[], List.replicate 60 0x00 ++ redundantBlock, 0, 0⟩ .new (roomFor 1) = some (.ok last) ∧
      last.2.bytes = gave rounds ∧ trailer <:+ gave rounds := by
  obtain ⟨rounds, last, hflush, -, hbytes, -, htail, -⟩ :=
    sync_flush_ends rearmingCompress_protocol exactAllocator 1
      (x := ⟨[], List.replicate 60 0x00 ++ redundantBlock, 0, 0⟩) ⟨rfl, rfl⟩
      (trailer_redundantBlock _) .new
  exact ⟨rounds, last, hflush, hbytes, htail⟩

end WsPmd.Encoding
