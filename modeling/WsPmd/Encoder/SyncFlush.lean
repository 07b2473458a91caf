import WsPmd.Encoder.Exchanges
import WsPmd.Library.Deflate.Streams

/-!
# Compressors that sync flush

The law a backend is held to when the encoder's output is to be read back: whatever
calls feed it a chunk and then flush it, what they gave is complete blocks that
expand to the chunk behind the history the compressor retains, and ends in an empty
stored block. `storedCompress` is such a backend, without any compression.
-/

namespace WsPmd.Encoding

open Grammar (Bytes)
open Library
open Library.Deflate (Headed Blocks Block)

section Calls

variable {σ : Type} (C : Compress σ)

/-- Calls without a flush that take this payload, whatever each of them was offered. -/
inductive Fed : σ → Bytes → Bytes → σ → Prop where
  | done {x : σ} : Fed x [] [] x
  | call {x x' : σ} {input rest out : Bytes} {room : ℕ} :
      Answers C x input .none room → consumed C x input .none room ≤ input.length →
      Fed (C.compressVec x input .none room).state rest out x' →
      Fed x (input.take (consumed C x input .none room) ++ rest)
        ((C.compressVec x input .none room).appended ++ out) x'

/-- Sync flushes without input, up to the first that leaves room to spare. -/
inductive Flushed : σ → Bytes → σ → Prop where
  | last {x : σ} {room : ℕ} :
      Answers C x [] .sync room → produced C x [] .sync room < room →
      Flushed x (C.compressVec x [] .sync room).appended (C.compressVec x [] .sync room).state
  | more {x x' : σ} {out : Bytes} {room : ℕ} :
      Answers C x [] .sync room → room ≤ produced C x [] .sync room →
      Flushed (C.compressVec x [] .sync room).state out x' →
      Flushed x ((C.compressVec x [] .sync room).appended ++ out) x'

/-- What a flushed chunk may be: blocks that expand to it and an empty stored block,
or nothing, which is what an empty flush of a drained compressor may give. -/
def Aligned (window : ℕ) (recent bytes payload : Bytes) : Prop :=
  (payload = [] ∧ bytes = []) ∨
    ∃ headed, bytes = headed ++ trailer ∧ Headed window recent headed payload

/-- A backend whose sync flushes are the blocks of RFC 7692. `holds` says which
history a drained compressor retains. -/
structure SyncFlushes (holds : σ → Bytes → Prop) (level windowBits : ℕ) : Prop where
  built : holds (C.newWithWindowBits level false windowBits) []
  reset : ∀ x recent, holds x recent → holds (C.reset x) []
  retained : ∀ x recent payload fed x1 flushed x2, holds x recent → Fed C x payload fed x1 →
    Flushed C x1 flushed x2 → ∃ recent', recent' <+: payload.reverse ++ recent ∧ holds x2 recent'
  flushed : ∀ x recent payload fed x1 flushed x2, holds x recent → Fed C x payload fed x1 →
    Flushed C x1 flushed x2 → Aligned (2 ^ windowBits) recent (fed ++ flushed) payload

end Calls

/-! ## The encoder makes such calls -/

section Exchanges

variable {σ : Type} {C : Compress σ} {A : Allocator} {room : ℕ}

theorem Feeds.fed {s : Feed σ} {rounds : List Exchange} {last : σ × Output}
    (h : Feeds C A room s rounds last) : Fed C s.compressor s.input (gave rounds) last.1 := by
  induction h with
  | @done s hempty =>
    rw [hempty]
    exact .done
  | @round s rounds last _ hfeeding _ ih =>
    have hcall := Fed.call hfeeding.answers hfeeding.within ih
    have hinput : s.input.take (consumed C s.compressor s.input .none (offered A room s.output)) ++
        (feedNext C A room s).input = s.input := List.take_append_drop _ _
    rw [hinput] at hcall
    exact hcall

theorem Flushes.flushed {s last : σ × Output} {rounds : List Exchange}
    (h : Flushes C A room s rounds last) : Flushed C s.1 (gave rounds) last.1 := by
  induction h with
  | @last s hanswers hspare =>
    rw [gave_cons]
    change Flushed C s.1 ((flushCall C A room s).appended ++ []) _
    rw [List.append_nil]
    exact .last hanswers hspare
  | round hanswers hfull _ ih => exact .more hanswers hfull ih

/-- A produced chunk is one that was fed and then flushed. -/
theorem produceAligned_ok {x x' : σ} {payload out : Bytes}
    (h : produceAligned C A x payload = some (.ok (x', out))) :
    ∃ fed x1 flushed, Fed C x payload fed x1 ∧ Flushed C x1 flushed x' ∧ out = fed ++ flushed := by
  obtain ⟨rounds, hrounds, rfl⟩ := produceAligned_ok_iff.mp h
  obtain @⟨fed, flushed, s, last, hfed, hflushed⟩ := hrounds
  exact ⟨_, _, _, hfed.fed, hflushed.flushed, gave_append _ _⟩

end Exchanges

/-! ## A backend that stores -/

/-- What a storing compressor holds: input it was fed, and output it was left with. -/
structure Stored where
  held : Bytes
  owed : Bytes
  totalIn : ℕ
  totalOut : ℕ
  deriving DecidableEq

/-- A stored block for each byte. -/
def storedBlocks (data : Bytes) : Bytes :=
  data.flatMap fun byte => [0x00, 0x01, 0x00, 0xfe, 0xff, byte]

/-- What a sync flush adds to the output. There is nothing to add to a drained one. -/
def storedFlush (data : Bytes) : Bytes :=
  if data = [] then [] else storedBlocks data ++ 0x00 :: trailer

/-- Level 0, as the worst of compressors would do it. -/
def storedCompress : Compress Stored where
  newWithWindowBits := fun _ _ _ => ⟨[], [], 0, 0⟩
  reset := fun _ => ⟨[], [], 0, 0⟩
  totalIn := Stored.totalIn
  totalOut := Stored.totalOut
  compressVec := fun x input flush room =>
    match flush with
    | .none => {
        state := ⟨x.held ++ input, x.owed, x.totalIn + input.length, x.totalOut⟩
        appended := []
        appended_le := Nat.zero_le room
        status := some .ok }
    | .sync =>
      let due := x.owed ++ storedFlush (x.held ++ input)
      { state := ⟨[], due.drop room, x.totalIn + input.length, x.totalOut + (due.take room).length⟩
        appended := due.take room
        appended_le := List.length_take_le room due
        status := some .ok }

/-- An allocator that reserves what it is asked for. -/
def exactAllocator : Allocator where
  grow := fun _ length additional => length + additional
  grow_ge := fun _ _ _ => Nat.le_refl _

theorem storedBlocks_blocks (window : ℕ) (data : Bytes) :
    ∀ (offset : ℕ) (recent : Bytes), offset % 8 = 0 →
      Blocks window offset recent (Deflate.bits (storedBlocks data)) data := by
  induction data with
  | nil => exact fun _ _ _ => .nil
  | cons byte data ih =>
    intro offset recent hoffset
    have hpad : (List.replicate 5 false).length = Deflate.padTo (offset + 3) := by
      rw [Deflate.padTo, show (offset + 3) % 8 = 3 by omega]
      rfl
    have hblock : Block window false offset recent
        (Deflate.bits [0x00, 0x01, 0x00, 0xfe, 0xff, byte]) [byte] := by
      have hbits : Deflate.bits [0x00, 0x01, 0x00, 0xfe, 0xff, byte] = [false, false, false] ++
          (List.replicate 5 false ++ (Deflate.bits [0x01, 0x00] ++
            (Deflate.bits [0x01, 0x00]).map not ++ Deflate.bits [byte])) := rfl
      rw [hbits]
      exact .stored hpad rfl rfl
    have hrest : storedBlocks (byte :: data) =
        [0x00, 0x01, 0x00, 0xfe, 0xff, byte] ++ storedBlocks data := rfl
    rw [hrest, Deflate.bits_append]
    refine Blocks.cons hblock (ih _ _ ?_)
    rw [Deflate.length_bits]
    omega

theorem storedBlocks_headed (window : ℕ) (recent data : Bytes) :
    Headed window recent (storedBlocks data ++ [0x00]) data := by
  have hbits : Deflate.bits (storedBlocks data ++ [0x00]) =
      Deflate.bits (storedBlocks data) ++ ([false, false, false] ++ List.replicate 5 false) := by
    rw [Deflate.bits_append]
    rfl
  refine .mk (storedBlocks_blocks window data 0 recent rfl) ?_ hbits
  rw [Deflate.length_bits, Deflate.padTo,
    show (8 * (storedBlocks data).length + 3) % 8 = 3 by omega]
  rfl

theorem stored_fed {x x' : Stored} {payload out : Bytes} (h : Fed storedCompress x payload out x') :
    x'.held = x.held ++ payload ∧ x'.owed = x.owed ∧ out = [] := by
  induction h with
  | done => exact ⟨(List.append_nil _).symm, rfl, rfl⟩
  | @call x x' input rest out room _ _ _ ih =>
    have htake : consumed storedCompress x input .none room = input.length :=
      Nat.add_sub_cancel_left _ _
    obtain ⟨hheld, howed, hout⟩ := ih
    rw [htake, List.take_length]
    exact ⟨by rw [hheld]; exact List.append_assoc _ _ _, howed, hout⟩

theorem stored_flushed {x x' : Stored} {out : Bytes} (h : Flushed storedCompress x out x') :
    out = x.owed ++ storedFlush x.held ∧ x'.held = [] ∧ x'.owed = [] := by
  have hproduced : ∀ (x : Stored) (room : ℕ), produced storedCompress x [] .sync room =
      ((x.owed ++ storedFlush x.held).take room).length := by
    intro x room
    have hheld : x.held ++ [] = x.held := List.append_nil _
    rw [← hheld]
    exact Nat.add_sub_cancel_left _ _
  induction h with
  | @last x room _ hspare =>
    rw [hproduced, List.length_take] at hspare
    have hall : (x.owed ++ storedFlush (x.held ++ [])).length ≤ room := by
      rw [List.append_nil]
      omega
    refine ⟨?_, rfl, List.drop_of_length_le hall⟩
    have htake := List.take_of_length_le hall
    rw [List.append_nil] at htake
    rw [← htake, ← List.append_nil x.held]
    rfl
  | @more x x' out room _ _ _ ih =>
    obtain ⟨hout, hheld, howed⟩ := ih
    refine ⟨?_, hheld, howed⟩
    have hnothing : storedFlush ([] : Bytes) = [] := rfl
    have hrest : out = (x.owed ++ storedFlush (x.held ++ [])).drop room ++ [] := hout
    rw [hrest, List.append_nil]
    change (x.owed ++ storedFlush (x.held ++ [])).take room ++ _ = _
    rw [List.take_append_drop, List.append_nil]

theorem storedCompress_flushes (level windowBits : ℕ) :
    SyncFlushes storedCompress (fun x _ => x.held = [] ∧ x.owed = []) level windowBits where
  built := ⟨rfl, rfl⟩
  reset := fun _ _ _ => ⟨rfl, rfl⟩
  retained := fun x recent payload fed x1 flushed x2 _ _ hflushed =>
    ⟨[], List.nil_prefix, (stored_flushed hflushed).2⟩
  flushed := by
    intro x recent payload fed x1 flushed x2 ⟨hheld, howed⟩ hfed hflushed
    obtain ⟨hheld1, howed1, rfl⟩ := stored_fed hfed
    obtain ⟨rfl, -, -⟩ := stored_flushed hflushed
    rw [howed1, howed, hheld1, hheld, List.nil_append, List.nil_append, List.nil_append]
    by_cases hempty : payload = []
    · exact Or.inl ⟨hempty, by rw [hempty]; rfl⟩
    · refine Or.inr ⟨storedBlocks payload ++ [0x00], ?_, storedBlocks_headed _ _ _⟩
      rw [storedFlush, if_neg hempty, List.append_assoc]
      rfl

end WsPmd.Encoding
