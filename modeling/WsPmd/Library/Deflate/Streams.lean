import WsPmd.Library.Deflate.Reads

/-!
# Whole bytes, whole streams

What `read` makes of bytes that are streams of the format, and of bytes that stop
where the length of a stored block is due. A reference means the same however
much history lies behind the one it was written against.
-/

namespace WsPmd.Library.Deflate

open ByteMachine (Position Reading)

variable {window allowed : ℕ}

/-! ## Bytes -/

/-- Bytes that leave the machine live are read in one piece. -/
theorem read_live {bytes : Bytes} :
    ∀ {p : Position State} {s : State} {out : Bytes}, Runs window p.state (bits bytes) out s →
      s.phase = .live → (machine window).read p bytes = ⟨out, false, some ⟨s,
        p.begun || !bytes.isEmpty, p.totalIn + bytes.length, p.totalOut + out.length⟩⟩ := by
  induction bytes with
  | nil =>
    intro p s out h _
    obtain ⟨rfl, rfl⟩ := Prod.mk.inj h
    simp
  | cons byte bytes ih =>
    intro p s out h hs
    rw [bits_cons] at h
    obtain ⟨mid, out1, out2, h1, h2, rfl⟩ := h.split
    have hmid : (machine window).phase mid = .live := h2.live_of_live hs
    have hbyte : (machine window).readByte p byte =
        ⟨out1, false, some ⟨mid, true, p.totalIn + 1, p.totalOut + out1.length⟩⟩ := by
      have hfeed : (machine window).feed p.state byte = (mid, out1) := h1
      simp only [ByteMachine.readByte, hfeed, hmid]
    rw [ByteMachine.read, hbyte, Reading.andThen]
    simp only
    rw [ih (p := ⟨mid, true, p.totalIn + 1, p.totalOut + out1.length⟩) h2 hs]
    simp only [Bool.true_or, Bool.or_false, List.isEmpty_cons, Bool.not_false,
      Bool.or_true, List.length_cons, List.length_append, Nat.add_assoc, Nat.add_comm 1]

/-- Bytes whose last one ends the stream start the machine over. -/
theorem read_ends {bytes : Bytes} {pad : List Bool} (hpad : pad.length < 8) :
    ∀ {p : Position State} {word : List Bool} {s : State} {out : Bytes},
      Runs window p.state word out s → s.field = .done → s.path = [] → word ≠ [] →
      bits bytes = word ++ pad →
      (machine window).read p bytes = ⟨out, true, some (machine window).fresh⟩ := by
  induction bytes with
  | nil =>
    intro p word s out _ _ _ hword hbits
    rw [bits_nil] at hbits
    exact absurd (List.append_eq_nil_iff.mp hbits.symm).1 hword
  | cons byte bytes ih =>
    intro p word s out h hdone hpath hword hbits
    rw [bits_cons] at hbits
    have hlen := congrArg List.length hbits
    simp only [List.length_append, length_bitsOf, length_bits] at hlen
    by_cases hlast : bytes = []
    · subst hlast
      rw [bits_nil, List.append_nil] at hbits
      have hphase : s.phase ≠ .live := by
        unfold State.phase
        rw [hdone]
        exact nofun
      have hfeed : Runs window p.state (bitsOf byte) out
          { s with path := s.path ++ pad, taken := s.taken + pad.length } := by
        have hpadded : Runs window s pad _ _ := rfl
        obtain ⟨hs, hout⟩ := hpadded.of_not_live hphase
        rw [hbits, ← List.append_nil out]
        exact h.append (Prod.ext hs hout)
      have hended : (machine window).phase
          { s with path := s.path ++ pad, taken := s.taken + pad.length } = .ended := by
        change State.phase _ = _
        unfold State.phase
        simp only [hdone]
      have hbyte : (machine window).readByte p byte =
          ⟨out, true, some (machine window).fresh⟩ := by
        have hfeed' : (machine window).feed p.state byte = (_, out) := hfeed
        simp only [ByteMachine.readByte, hfeed', hended]
      rw [ByteMachine.read, hbyte, Reading.andThen]
      simp only [ByteMachine.read_nil, List.append_nil, Bool.or_false]
    · have hpos := List.length_pos_iff.mpr hlast
      obtain ⟨rest, rfl⟩ : ∃ rest, word = bitsOf byte ++ rest := by
        have hprefix : bitsOf byte <+: word :=
          List.prefix_of_prefix_length_le ⟨_, rfl⟩ (hbits ▸ List.prefix_append word pad)
            (by rw [length_bitsOf]; omega)
        exact hprefix.imp fun _ => Eq.symm
      rw [List.append_assoc] at hbits
      have hrest := List.append_cancel_left hbits
      rw [List.length_append, length_bitsOf] at hlen
      have hne : rest ≠ [] := by
        rintro rfl
        rw [List.length_nil] at hlen
        omega
      obtain ⟨mid, out1, out2, h1, h2, rfl⟩ := h.split
      have hmid : (machine window).phase mid = .live := h2.live_of_fresh_end hne hdone hpath
      have hbyte : (machine window).readByte p byte =
          ⟨out1, false, some ⟨mid, true, p.totalIn + 1, p.totalOut + out1.length⟩⟩ := by
        have hfeed : (machine window).feed p.state byte = (mid, out1) := h1
        simp only [ByteMachine.readByte, hfeed, hmid]
      rw [ByteMachine.read, hbyte, Reading.andThen]
      simp only
      rw [ih (p := ⟨mid, true, p.totalIn + 1, p.totalOut + out1.length⟩) h2 hdone hpath hne hrest]
      simp only [Bool.false_or]

/-! ## Streams -/

/-- Between two blocks, on a byte boundary, with this history. -/
def Boundary (s : State) (recent : Bytes) : Prop :=
  ∃ taken, taken % 8 = 0 ∧ s = ⟨.header, [], taken, false, recent⟩

theorem boundary_start : Boundary .start [] := ⟨0, rfl, rfl⟩

/-- Behind the header of a stored block that is not the last, on a byte boundary. -/
def LengthDue (s : State) (recent : Bytes) : Prop :=
  ∃ taken, taken % 8 = 0 ∧ s = ⟨.storedLength, [], taken, false, recent⟩

/-- A whole stream is read to its end. -/
theorem Stream.read {recent bytes out : Bytes} (h : Stream allowed recent bytes out)
    (hw : allowed ≤ window) {p : Position State} (hp : Boundary p.state recent) :
    (machine window).read p bytes = ⟨out, true, some (machine window).fresh⟩ := by
  obtain ⟨hblocks, hlast, hpad, hbits⟩ := h
  rename_i blocks last pad out out'
  obtain ⟨taken, htaken, hstate⟩ := hp
  have hruns := (blocks_runs hblocks hw taken (by omega)).append
    (block_runs hlast hw (by omega) false)
  rw [← hstate] at hruns
  apply read_ends hpad hruns rfl rfl _ (by rw [hbits, List.append_assoc])
  intro hnil
  obtain ⟨-, hnil⟩ := List.append_eq_nil_iff.mp hnil
  rw [hnil] at hlast
  cases hlast

/-- Blocks and the header of a stored block are read up to its length. -/
theorem Headed.read {recent bytes out : Bytes} (h : Headed allowed recent bytes out)
    (hw : allowed ≤ window) {p : Position State} (hp : Boundary p.state recent) :
    ∃ q : Position State, (machine window).read p bytes = ⟨out, false, some q⟩ ∧ q.begun = true ∧
      LengthDue q.state (out.reverse ++ recent) := by
  obtain ⟨hblocks, hpad, hbits⟩ := h
  rename_i blocks pad
  obtain ⟨taken, htaken, hstate⟩ := hp
  have hcongr : padTo (blocks.length + 3) = padTo (taken + blocks.length + 3) :=
    padTo_congr (by omega)
  have hheader : Runs window ⟨.header, [], taken + blocks.length, false, out.reverse ++ recent⟩
      ([false, false, false] ++ pad) [] _ := stored_header_runs (hpad.trans hcongr) false
  have hruns := (blocks_runs hblocks hw taken (by omega)).append hheader
  rw [← hstate, List.append_nil, ← hbits] at hruns
  have hlen := congrArg List.length hbits
  rw [List.length_append, length_bits] at hlen
  refine ⟨_, read_live hruns rfl, ?_, ⟨_, ?_, rfl⟩⟩
  · have hne : bytes ≠ [] := by
      rintro rfl
      simp at hlen
    simp [hne]
  · omega

/-- An empty length and its complement complete the stored block. -/
theorem empty_length_read (window : ℕ) {p : Position State} {taken : ℕ} {recent : Bytes}
    (hp : p.state = ⟨.storedLength, [], taken, false, recent⟩) :
    ∃ q : Position State, (machine window).read p [0x00, 0x00, 0xff, 0xff] = ⟨[], false, some q⟩ ∧
      q.begun = true ∧ q.state = ⟨.header, [], taken + 32, false, recent⟩ := by
  have hruns : Runs window ⟨.storedLength, [], taken, false, recent⟩
      (bits [0x00, 0x00] ++ (bits [0x00, 0x00]).map not) []
      ⟨.header, [], taken + 32, false, recent⟩ := stored_length_runs rfl rfl
  rw [← hp] at hruns
  have htrailer : bits [0x00, 0x00, 0xff, 0xff] =
      bits [0x00, 0x00] ++ (bits [0x00, 0x00]).map not := rfl
  rw [← htrailer] at hruns
  exact ⟨_, read_live hruns rfl, Bool.or_true _, rfl⟩

theorem LengthDue.complete (window : ℕ) {recent : Bytes} {p : Position State}
    (hp : LengthDue p.state recent) :
    ∃ q : Position State, (machine window).read p [0x00, 0x00, 0xff, 0xff] = ⟨[], false, some q⟩ ∧
      q.begun = true ∧ Boundary q.state recent := by
  obtain ⟨taken, htaken, hstate⟩ := hp
  obtain ⟨q, hread, hbegun, hq⟩ := empty_length_read window hstate
  exact ⟨q, hread, hbegun, taken + 32, by omega, hq⟩

/-! ## More history -/

theorem copied_older {distance : ℕ} (hpos : 1 ≤ distance) (older : Bytes) :
    ∀ (length : ℕ) (recent : Bytes), distance ≤ recent.length →
      copied distance length (recent ++ older) = copied distance length recent := by
  intro length
  induction length with
  | zero => exact fun _ _ => rfl
  | succ length ih =>
    intro recent hle
    have hbyte : (recent ++ older).getD (distance - 1) 0 = recent.getD (distance - 1) 0 := by
      rw [List.getD_eq_getElem?_getD, List.getD_eq_getElem?_getD,
        List.getElem?_append_left (by omega)]
    rw [copied, copied, hbyte, ← List.cons_append, ih (_ :: recent) (Nat.le_succ_of_le hle)]

theorem Compressed.older {lit dist : Code} {recent out : Bytes} {word : List Bool}
    (h : Compressed allowed lit dist recent word out) (older : Bytes) :
    Compressed allowed lit dist (recent ++ older) word out := by
  induction h with
  | endOfBlock hword => exact .endOfBlock hword
  | literal hword _ ih => exact .literal hword ih
  | @reference recent out length distance base extra base' extra' word more word' more' rest
      hword hentry hmore hword' hentry' hmore' hback hwindow hrest ih =>
    have hpos : 1 ≤ base' + number more' :=
      Nat.le_trans (distanceTable_pos hentry') (Nat.le_add_right _ _)
    have hcopied := copied_older hpos older (base + number more) recent hback
    rw [← hcopied]
    refine .reference hword hentry hmore hword' hentry' hmore' ?_ hwindow ?_
    · rw [List.length_append]
      omega
    · rw [hcopied, ← List.append_assoc]
      exact ih

theorem Block.older {final : Bool} {offset : ℕ} {recent out : Bytes} {word : List Bool}
    (h : Block allowed final offset recent word out) (older : Bytes) :
    Block allowed final offset (recent ++ older) word out := by
  cases h with
  | stored hpad hlength hn => exact .stored hpad hlength hn
  | fixed hrest => exact .fixed (hrest.older older)
  | dynamic hcounts hvalid hsent hsizes hsmall hspace hlengths hcodes hrest =>
    exact .dynamic hcounts hvalid hsent hsizes hsmall hspace hlengths hcodes (hrest.older older)

theorem Blocks.older {offset : ℕ} {recent out : Bytes} {word : List Bool}
    (h : Blocks allowed offset recent word out) (older : Bytes) :
    Blocks allowed offset (recent ++ older) word out := by
  induction h with
  | nil => exact .nil
  | cons hfirst _ ih =>
    refine .cons (hfirst.older older) ?_
    rw [← List.append_assoc]
    exact ih

theorem Stream.older {recent bytes out : Bytes} (h : Stream allowed recent bytes out)
    (older : Bytes) : Stream allowed (recent ++ older) bytes out := by
  obtain ⟨hblocks, hlast, hpad, hbits⟩ := h
  have hlast' := hlast.older older
  rw [List.append_assoc] at hlast'
  exact ⟨hblocks.older older, hlast', hpad, hbits⟩

theorem Headed.older {recent bytes out : Bytes} (h : Headed allowed recent bytes out)
    (older : Bytes) : Headed allowed (recent ++ older) bytes out := by
  obtain ⟨hblocks, hpad, hbits⟩ := h
  exact ⟨hblocks.older older, hpad, hbits⟩

/-! ## One message after another -/

/-- Only where in a byte a block starts matters. -/
theorem Block.shift {final : Bool} {offset offset' : ℕ} {recent out : Bytes} {word : List Bool}
    (h : Block allowed final offset recent word out) (hoffset : offset % 8 = offset' % 8) :
    Block allowed final offset' recent word out := by
  cases h with
  | stored hpad hlength hn => exact .stored (hpad.trans (padTo_congr (by omega))) hlength hn
  | fixed hrest => exact .fixed hrest
  | dynamic hcounts hvalid hsent hsizes hsmall hspace hlengths hcodes hrest =>
    exact .dynamic hcounts hvalid hsent hsizes hsmall hspace hlengths hcodes hrest

theorem Blocks.shift {offset : ℕ} {recent out : Bytes} {word : List Bool}
    (h : Blocks allowed offset recent word out) :
    ∀ {offset' : ℕ}, offset % 8 = offset' % 8 → Blocks allowed offset' recent word out := by
  induction h with
  | nil => exact fun _ => .nil
  | cons hfirst _ ih => exact fun hoffset => .cons (hfirst.shift hoffset) (ih (by omega))

theorem Blocks.append {offset : ℕ} {recent out out' : Bytes} {word word' : List Bool}
    (h : Blocks allowed offset recent word out)
    (h' : Blocks allowed (offset + word.length) (out.reverse ++ recent) word' out') :
    Blocks allowed offset recent (word ++ word') (out ++ out') := by
  induction h with
  | nil => exact h'
  | cons hfirst _ ih =>
    rw [List.append_assoc, List.append_assoc]
    refine .cons hfirst (ih ?_)
    rw [List.length_append, ← Nat.add_assoc, List.reverse_append, List.append_assoc] at h'
    exact h'

/-- The trailer between two parts makes the header of the first an empty block. -/
theorem Headed.append {recent bytes bytes' out out' : Bytes} (h : Headed allowed recent bytes out)
    (h' : Headed allowed (out.reverse ++ recent) bytes' out') :
    Headed allowed recent (bytes ++ ([0x00, 0x00, 0xff, 0xff] ++ bytes')) (out ++ out') := by
  obtain ⟨hblocks, hpad, hbits⟩ := h
  obtain ⟨hblocks', hpad', hbits'⟩ := h'
  rename_i blocks pad blocks' pad'
  have hempty : Block allowed false (0 + blocks.length) (out.reverse ++ recent)
      ([false, false, false] ++ (pad ++ (bits [0x00, 0x00] ++ (bits [0x00, 0x00]).map not ++
        bits []))) [] := .stored (by rw [Nat.zero_add]; exact hpad) rfl rfl
  have hlen := congrArg List.length hbits
  simp only [List.length_append, length_bits] at hlen
  have hall := hblocks.append (.cons hempty (hblocks'.shift (by
    simp only [List.length_append, List.length_map, length_bits, List.length_cons, List.length_nil]
      at hlen ⊢
    omega)))
  have hpad'' : pad'.length = padTo ((blocks ++ ([false, false, false] ++ (pad ++
      (bits [0x00, 0x00] ++ (bits [0x00, 0x00]).map not ++ bits [])) ++ blocks')).length + 3) := by
    rw [hpad']
    apply padTo_congr
    simp only [List.length_append, List.length_map, length_bits, List.length_cons, List.length_nil]
      at hlen ⊢
    omega
  refine .mk hall hpad'' ?_
  have htrailer : bits [0x00, 0x00, 0xff, 0xff] =
      bits [0x00, 0x00] ++ (bits [0x00, 0x00]).map not := rfl
  rw [bits_append, bits_append, hbits, hbits', htrailer, bits_nil, List.append_nil]
  simp only [List.append_assoc]

end WsPmd.Library.Deflate
