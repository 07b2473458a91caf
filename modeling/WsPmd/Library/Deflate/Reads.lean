import WsPmd.Library.Deflate.Machine

/-!
# The inflater reads the format

Every block of the format takes the machine from one block boundary to the next,
with the block's expansion as its output, whatever the machine's own window is as
long as it is no narrower. Over bytes this makes `read` answer a whole stream, and
stop behind the header of a stored block whose length is still to come.
-/

namespace WsPmd.Library.Deflate

open ByteMachine (Position)

/-! ## Feeding bits -/

/-- Feeding these bits gives this output and leaves the machine there. -/
def Runs (window : ℕ) (s : State) (bits : List Bool) (out : Bytes) (s' : State) : Prop :=
  s.feedBits window bits = (s', out)

namespace State

variable {window : ℕ}

theorem feedBits_cons (s : State) (x : Bool) (xs : List Bool) :
    s.feedBits window (x :: xs) = (((s.feedBit window x).1.feedBits window xs).1,
      (s.feedBit window x).2 ++ ((s.feedBit window x).1.feedBits window xs).2) := rfl

theorem feedBits_append (s : State) (xs ys : List Bool) :
    s.feedBits window (xs ++ ys) =
      (((s.feedBits window xs).1.feedBits window ys).1,
        (s.feedBits window xs).2 ++ ((s.feedBits window xs).1.feedBits window ys).2) := by
  induction xs generalizing s with
  | nil => rfl
  | cons x xs ih =>
    rw [List.cons_append, feedBits_cons, feedBits_cons, ih, List.append_assoc]

theorem feedBits_concat (s : State) (xs : List Bool) (x : Bool) :
    (s.feedBits window (xs ++ [x])).1 = ((s.feedBits window xs).1.feedBit window x).1 := by
  rw [feedBits_append]
  rfl

end State

section Runs

variable {window : ℕ} {s s' s'' : State} {xs ys : List Bool} {out out' : Bytes}

theorem Runs.nil (s : State) : Runs window s [] [] s := rfl

theorem Runs.feedBits (s : State) (xs : List Bool) :
    Runs window s xs (s.feedBits window xs).2 (s.feedBits window xs).1 := rfl

theorem Runs.append (h : Runs window s xs out s') (h' : Runs window s' ys out' s'') :
    Runs window s (xs ++ ys) (out ++ out') s'' := by
  unfold Runs at *
  rw [State.feedBits_append, h, h']

theorem Runs.silent (h : Runs window s xs [] s') (h' : Runs window s' ys out s'') :
    Runs window s (xs ++ ys) out s'' := h.append h'

theorem Runs.split (h : Runs window s (xs ++ ys) out s') :
    ∃ mid out1 out2, Runs window s xs out1 mid ∧ Runs window mid ys out2 s' ∧
      out = out1 ++ out2 := by
  unfold Runs at *
  rw [State.feedBits_append] at h
  obtain ⟨hs, hout⟩ := Prod.mk.inj h
  exact ⟨_, _, _, rfl, by rw [← hs], hout.symm⟩

/-- A machine that has reached its end, or a fault, takes bits and does nothing. -/
theorem Runs.of_not_live (hs : s.phase ≠ .live) (h : Runs window s xs out s') :
    s' = { s with path := s.path ++ xs, taken := s.taken + xs.length } ∧ out = [] := by
  induction xs generalizing s out with
  | nil =>
    obtain ⟨rfl, rfl⟩ := Prod.mk.inj h
    exact ⟨by simp, rfl⟩
  | cons x xs ih =>
    have hfeed : s.feedBit window x = (s.push x, []) := by
      obtain ⟨field, path, taken, final, recent⟩ := s
      unfold State.phase at hs
      cases field <;> simp only [ne_eq, not_true_eq_false] at hs <;> rfl
    unfold Runs at h
    rw [State.feedBits_cons, hfeed] at h
    obtain ⟨rfl, rfl⟩ := Prod.mk.inj h
    obtain ⟨hs', hout⟩ := ih (s := s.push x) hs rfl
    refine ⟨?_, by rw [hout]; rfl⟩
    rw [hs']
    simp only [State.push, List.append_assoc, List.singleton_append, List.length_cons]
    congr 1
    omega

theorem field_of_not_live (hs : s.phase ≠ .live) (xs : List Bool) :
    (s.feedBits window xs).1.field = s.field := by
  rw [((Runs.feedBits s xs).of_not_live hs).1]

/-- A machine that arrives somewhere live was live all the way. -/
theorem Runs.live_of_live (h : Runs window s xs out s') (hs' : s'.phase = .live) :
    s.phase = .live := by
  by_contra hs
  obtain ⟨rfl, -⟩ := h.of_not_live hs
  exact hs hs'

/-- A machine that has just arrived at its end was live until the last bit. -/
theorem Runs.live_of_fresh_end (h : Runs window s xs out s') (hxs : xs ≠ [])
    (hs' : s'.field = .done) (hpath : s'.path = []) : s.phase = .live := by
  by_contra hs
  obtain ⟨rfl, -⟩ := h.of_not_live hs
  exact hxs (List.append_eq_nil_iff.mp hpath).2

end Runs

/-! ## Completing a field -/

section Fields

variable {window : ℕ} {field : Field} {path : List Bool} {taken : ℕ} {final : Bool} {recent : Bytes}

/-- A number is acted on with its last bit. -/
theorem feed_number {width : ℕ} (hneed : field.need = .number width) {more : List Bool}
    (hlen : path.length + more.length = width) (hmore : more ≠ []) :
    (⟨field, path, taken, final, recent⟩ : State).feedBits window more =
      (⟨field, path ++ more, taken + more.length, final, recent⟩ : State).act window
        (number (path ++ more)) := by
  induction more generalizing path taken with
  | nil => exact absurd rfl hmore
  | cons bit more ih =>
    rw [List.length_cons] at hlen
    rw [State.feedBits_cons, State.feedBit, State.push]
    simp only [hneed, Need.answer, List.length_append, List.length_singleton]
    by_cases hlast : more = []
    · rw [hlast, List.length_nil] at hlen
      rw [if_pos (by omega)]
      simp only [hlast, State.feedBits, List.append_nil, List.length_singleton]
    · have hpos := List.length_pos_iff.mpr hlast
      rw [if_neg (by omega)]
      simp only
      rw [ih (by rw [List.length_append, List.length_singleton]; omega) hlast]
      simp only [List.nil_append, List.append_assoc, List.singleton_append, List.length_cons,
        Nat.add_assoc, Nat.add_comm 1]

theorem mem_of_lookup {code : Code} {word : List Bool} {symbol : ℕ}
    (h : code.lookup word = some symbol) : (word, symbol) ∈ code := by
  induction code with
  | nil => cases h
  | cons entry code ih =>
    obtain ⟨key, value⟩ := entry
    rw [List.lookup_cons] at h
    split at h
    · next heq =>
      rw [beq_iff_eq] at heq
      rw [heq, Option.some.inj h]
      exact List.mem_cons_self
    · exact List.mem_cons_of_mem _ (ih h)

/-- A codeword is acted on with its last bit. -/
theorem feed_codeword {code : Code} (hneed : field.need = .codeword code) {word more : List Bool}
    {symbol : ℕ} (hword : Codeword code word symbol) (hpath : path ++ more = word)
    (hmore : more ≠ []) :
    (⟨field, path, taken, final, recent⟩ : State).feedBits window more =
      (⟨field, word, taken + more.length, final, recent⟩ : State).act window symbol := by
  induction more generalizing path taken with
  | nil => exact absurd rfl hmore
  | cons bit more ih =>
    have hpath' : path ++ [bit] ++ more = word := by
      rw [← hpath, List.append_assoc, List.singleton_append]
    rw [State.feedBits_cons, State.feedBit, State.push]
    simp only [hneed, Need.answer]
    by_cases hlast : more = []
    · rw [hlast, List.append_nil] at hpath'
      rw [hpath', hword.hit]
      simp only [hlast, State.feedBits, List.append_nil, List.length_singleton]
    · have hpos := List.length_pos_iff.mpr hlast
      have htake : word.take (path ++ [bit]).length = path ++ [bit] := by
        rw [← hpath', List.take_left]
      have hfirst := hword.first (path ++ [bit]).length (by
        rw [← hpath']
        simp only [List.length_append]
        omega)
      rw [htake] at hfirst
      have hgoes : code.any (fun entry => (path ++ [bit]).isPrefixOf entry.1) = true := by
        apply List.any_eq_true.mpr
        refine ⟨(word, symbol), mem_of_lookup hword.hit, ?_⟩
        rw [List.isPrefixOf_iff_prefix]
        exact ⟨more, hpath'⟩
      rw [hfirst]
      simp only [hgoes, if_true]
      rw [ih hpath' hlast]
      simp only [List.nil_append, List.length_cons, Nat.add_assoc, Nat.add_comm 1]

theorem Runs.number {width : ℕ} (hneed : field.need = .number width) {word : List Bool}
    (hlen : word.length = width) (hword : word ≠ []) {s' : State} {out : Bytes}
    (hact : (⟨field, word, taken + word.length, final, recent⟩ : State).act window
      (Deflate.number word) = (s', out)) :
    Runs window ⟨field, [], taken, final, recent⟩ word out s' := by
  rw [Runs, feed_number hneed (by rw [List.length_nil, Nat.zero_add, hlen]) hword, List.nil_append,
    hact]

theorem Runs.codeword {code : Code} (hneed : field.need = .codeword code) {word : List Bool}
    {symbol : ℕ} (hword : Codeword code word symbol) {s' : State} {out : Bytes}
    (hact : (⟨field, word, taken + word.length, final, recent⟩ : State).act window symbol =
      (s', out)) :
    Runs window ⟨field, [], taken, final, recent⟩ word out s' := by
  rw [Runs, feed_codeword hneed hword (List.nil_append word) hword.ne_nil, hact]

end Fields

/-! ## Compressed data -/

section Blocks

variable {window allowed taken : ℕ} {final : Bool} {recent out : Bytes}

theorem distanceTable_pos {symbol base extra : ℕ}
    (h : distanceTable[symbol]? = some (base, extra)) : 1 ≤ base := by
  have hall : distanceTable.all (fun entry => 1 ≤ entry.1) = true := rfl
  simpa using List.all_eq_true.mp hall _ (List.mem_of_getElem? h)

/-- A length symbol and its extra bits. -/
theorem length_runs {lit dist : Code} {word more : List Bool} {length base extra : ℕ}
    (hword : Codeword lit word (257 + length)) (hentry : lengthTable[length]? = some (base, extra))
    (hmore : more.length = extra) :
    Runs window ⟨.symbol lit dist, [], taken, final, recent⟩ (word ++ more) []
      ⟨.distance lit dist (base + number more), [], taken + (word ++ more).length, final,
        recent⟩ := by
  have hact : ∀ path taken, (⟨.symbol lit dist, path, taken, final, recent⟩ : State).act window
      (257 + length) = ((⟨.symbol lit dist, path, taken, final, recent⟩ : State).goTo
        (if extra = 0 then .distance lit dist base else .lengthExtra lit dist extra base), []) := by
    intro path taken
    simp only [State.act, State.takeSymbol]
    rw [if_neg (by omega), if_neg (by omega), Nat.add_sub_cancel_left, hentry]
    cases extra <;> rfl
  cases extra with
  | zero =>
    obtain rfl := List.length_eq_zero_iff.mp hmore
    rw [List.append_nil]
    exact .codeword rfl hword (hact _ _)
  | succ extra =>
    apply Runs.silent (.codeword rfl hword (hact _ _))
    apply Runs.number rfl hmore (List.ne_nil_of_length_eq_add_one hmore)
    rw [List.length_append, ← Nat.add_assoc]
    rfl

/-- A distance symbol, its extra bits and the copy. -/
theorem distance_runs {lit dist : Code} {word more : List Bool} {length distance base extra : ℕ}
    (hword : Codeword dist word distance)
    (hentry : distanceTable[distance]? = some (base, extra)) (hmore : more.length = extra)
    (hback : base + number more ≤ recent.length) (hwindow : base + number more ≤ window) :
    Runs window ⟨.distance lit dist length, [], taken, final, recent⟩ (word ++ more)
      (copied (base + number more) length recent)
      ⟨.symbol lit dist, [], taken + (word ++ more).length, final,
        (copied (base + number more) length recent).reverse ++ recent⟩ := by
  have hreference : ∀ field path taken,
      (⟨field, path, taken, final, recent⟩ : State).reference window lit dist length
        (base + number more) = (⟨.symbol lit dist, [], taken, final,
          (copied (base + number more) length recent).reverse ++ recent⟩,
        copied (base + number more) length recent) := by
    intro field path taken
    rw [State.reference, if_pos ⟨hback, hwindow⟩]
    rfl
  cases extra with
  | zero =>
    obtain rfl := List.length_eq_zero_iff.mp hmore
    rw [List.append_nil]
    apply Runs.codeword rfl hword
    simp only [State.act, State.takeDistance, hentry]
    exact hreference _ _ _
  | succ extra =>
    apply Runs.silent
    · apply Runs.codeword rfl hword
      simp only [State.act, State.takeDistance, hentry]
      rfl
    · apply Runs.number rfl hmore (List.ne_nil_of_length_eq_add_one hmore)
      rw [List.length_append, ← Nat.add_assoc]
      exact hreference _ _ _

/-- Literals and references, up to the end of the block. -/
theorem compressed_runs {lit dist : Code} {bits : List Bool}
    (h : Compressed allowed lit dist recent bits out) (hw : allowed ≤ window) :
    ∀ taken, Runs window ⟨.symbol lit dist, [], taken, final, recent⟩ bits out
      ⟨if final then .done else .header, [], taken + bits.length, final,
        out.reverse ++ recent⟩ := by
  induction h with
  | endOfBlock hword =>
    intro taken
    exact .codeword rfl hword rfl
  | @literal recent out byte word rest hword hrest ih =>
    intro taken
    rw [List.length_append, ← Nat.add_assoc, List.reverse_cons, List.append_assoc,
      List.singleton_append]
    have hfirst : Runs window ⟨.symbol lit dist, [], taken, final, recent⟩ word [byte]
        ⟨.symbol lit dist, [], taken + word.length, final, byte :: recent⟩ := by
      apply Runs.codeword rfl hword
      simp only [State.act, State.takeSymbol]
      rw [if_pos byte.toNat_lt, UInt8.ofNat_toNat]
      rfl
    exact hfirst.append (ih _)
  | @reference recent out length distance base extra base' extra' word more word' more' rest
      hword hentry hmore hword' hentry' hmore' hback hwindow hrest ih =>
    intro taken
    have hlength : Runs window ⟨.symbol lit dist, [], taken, final, recent⟩ (word ++ more) [] _ :=
      length_runs hword hentry hmore
    have hcopy := hlength.silent
      (distance_runs hword' hentry' hmore' hback (Nat.le_trans hwindow hw))
    have hall := hcopy.append (ih _)
    simp only [List.length_append, List.append_assoc, List.reverse_append, Nat.add_assoc] at hall ⊢
    exact hall

/-! ## Dynamic headers -/

/-- The code length code lengths, behind those already sent. -/
theorem sizes_runs {counts : Counts} (sizes : List ℕ) (hsizes : ∀ size ∈ sizes, size < 8) :
    ∀ (sent : List ℕ) (taken : ℕ), sent.length + sizes.length = counts.codeLengths →
      Runs window ((⟨.header, [], taken, final, recent⟩ : State).takeSizes counts sent)
        (sizes.flatMap (lowBits 3)) []
        ((⟨.header, [], taken + (sizes.flatMap (lowBits 3)).length, final,
          recent⟩ : State).takeSizes counts (sent ++ sizes)) := by
  induction sizes with
  | nil =>
    intro sent taken _
    rw [List.append_nil]
    exact .nil _
  | cons size sizes ih =>
    intro sent taken hlen
    rw [List.length_cons] at hlen
    have hsize : number (lowBits 3 size) = size := by
      rw [number_lowBits]
      exact Nat.mod_eq_of_lt (hsizes size List.mem_cons_self)
    have hfield : (⟨.header, [], taken, final, recent⟩ : State).takeSizes counts sent =
        ⟨.size counts sent, [], taken, final, recent⟩ := by
      rw [State.takeSizes, if_pos (by omega)]
      rfl
    have hrest := ih (fun s hs => hsizes s (List.mem_cons_of_mem _ hs)) (sent ++ [size]) (taken + 3)
      (by rw [List.length_append, List.length_singleton]; omega)
    rw [List.append_assoc, List.singleton_append] at hrest
    rw [List.flatMap_cons, List.length_append, length_lowBits, ← Nat.add_assoc, hfield]
    refine Runs.silent (.number rfl (length_lowBits 3 size) (by simp [lowBits]) ?_) hrest
    rw [hsize]
    rfl

theorem runOf_some {known : List ℕ} {symbol extra base width : ℕ}
    (h : runOf known symbol = some (extra, base, width)) : 16 ≤ symbol ∧ extra ≠ 0 := by
  unfold runOf at h
  split at h
  · obtain ⟨w, -, he⟩ := Option.map_eq_some_iff.mp h
    obtain ⟨rfl, -⟩ := Prod.mk.inj he
    exact ⟨Nat.le_refl 16, nofun⟩
  · obtain ⟨rfl, -⟩ := Prod.mk.inj (Option.some.inj h)
    exact ⟨by decide, nofun⟩
  · obtain ⟨rfl, -⟩ := Prod.mk.inj (Option.some.inj h)
    exact ⟨by decide, nofun⟩
  · cases h

/-- The code lengths, behind those already known. -/
theorem widths_runs {counts : Counts} {code lit dist : Code} {known lengths : List ℕ}
    {bits : List Bool} (h : Lengths (counts.lit + counts.dist) code known bits lengths)
    (hcodes : codesOf counts lengths = some (lit, dist)) :
    ∀ taken, Runs window
      ((⟨.header, [], taken, final, recent⟩ : State).takeWidths counts code known)
      bits [] ⟨.symbol lit dist, [], taken + bits.length, final, recent⟩ := by
  induction h with
  | @complete known hknown =>
    intro taken
    have hfield : (⟨.header, [], taken, final, recent⟩ : State).takeWidths counts code known =
        ⟨.symbol lit dist, [], taken, final, recent⟩ := by
      rw [State.takeWidths, if_neg (by omega), if_pos hknown, hcodes]
      rfl
    rw [hfield]
    exact .nil _
  | @width known lengths width word rest hknown hword hwidth hrest ih =>
    intro taken
    have hfield : (⟨.header, [], taken, final, recent⟩ : State).takeWidths counts code known =
        ⟨.codeWidth counts code known, [], taken, final, recent⟩ := by
      rw [State.takeWidths, if_pos hknown]
      rfl
    rw [hfield, List.length_append, ← Nat.add_assoc]
    refine Runs.silent (.codeword rfl hword ?_) (ih hcodes _)
    simp only [State.act, State.takeWidth, if_pos hwidth]
    rfl
  | @run known lengths symbol extra base width word more rest hknown hword hrun hmore hfit hrest
      ih =>
    intro taken
    obtain ⟨hsymbol, hextra⟩ := runOf_some hrun
    have hfield : (⟨.header, [], taken, final, recent⟩ : State).takeWidths counts code known =
        ⟨.codeWidth counts code known, [], taken, final, recent⟩ := by
      rw [State.takeWidths, if_pos hknown]
      rfl
    have hne : more ≠ [] := by
      rintro rfl
      exact hextra hmore.symm
    rw [hfield, List.length_append, List.length_append, ← Nat.add_assoc, ← Nat.add_assoc]
    have hsymbol : Runs window ⟨.codeWidth counts code known, [], taken, final, recent⟩ word []
        ⟨.run counts code known extra base width, [], taken + word.length, final, recent⟩ := by
      apply Runs.codeword rfl hword
      simp only [State.act, State.takeWidth, hrun]
      rw [if_neg (by omega)]
      rfl
    exact hsymbol.silent (Runs.silent (.number rfl hmore hne rfl) (ih hcodes _))

/-! ## Whole blocks -/

/-- The bytes of a stored block. -/
theorem data_runs (data : Bytes) (hdata : data ≠ []) :
    ∀ (taken : ℕ) (recent : Bytes),
      Runs window ⟨.stored data.length, [], taken, final, recent⟩ (bits data) data
        ⟨if final then .done else .header, [], taken + (bits data).length, final,
          data.reverse ++ recent⟩ := by
  induction data with
  | nil => exact absurd rfl hdata
  | cons byte data ih =>
    intro taken recent
    rw [bits_cons, List.length_append, ← Nat.add_assoc, List.reverse_cons, List.append_assoc,
      List.singleton_append]
    have hbyte : UInt8.ofNat (number (bitsOf byte)) = byte := by
      rw [number_bitsOf, UInt8.ofNat_toNat]
    have hne : bitsOf byte ≠ [] := by simp [bitsOf, lowBits]
    by_cases hlast : data = []
    · subst hlast
      rw [bits_nil, List.append_nil]
      apply Runs.number rfl (length_bitsOf byte) hne
      simp only [State.act, hbyte, List.length_singleton, if_true]
      rfl
    · have hlen : data.length ≠ 0 := fun h => hlast (List.length_eq_zero_iff.mp h)
      have hfirst : Runs window ⟨.stored (byte :: data).length, [], taken, final, recent⟩
          (bitsOf byte) [byte]
          ⟨.stored data.length, [], taken + (bitsOf byte).length, final, byte :: recent⟩ := by
        apply Runs.number rfl (length_bitsOf byte) hne
        simp only [State.act, hbyte, List.length_cons, Nat.add_eq_right, hlen, if_false,
          Nat.add_sub_cancel]
        rfl
      exact hfirst.append (ih hlast _ _)

/-- The header of a stored block and the padding behind it. -/
theorem stored_header_runs {pad : List Bool} (hpad : pad.length = padTo (taken + 3)) (old : Bool) :
    Runs window ⟨.header, [], taken, old, recent⟩ ([final, false, false] ++ pad) []
      ⟨.storedLength, [], taken + ([final, false, false] ++ pad).length, final, recent⟩ := by
  have hopen : Runs window ⟨.header, [], taken, old, recent⟩ [final, false, false] []
      ⟨if padTo (taken + 3) = 0 then .storedLength else .padding (padTo (taken + 3)), [], taken + 3,
        final, recent⟩ := by
    apply Runs.number rfl rfl (List.cons_ne_nil _ _)
    cases final <;> rfl
  by_cases hzero : padTo (taken + 3) = 0
  · rw [hzero] at hpad
    obtain rfl := List.length_eq_zero_iff.mp hpad
    rw [if_pos hzero] at hopen
    exact hopen
  · rw [if_neg hzero] at hopen
    rw [List.length_append, ← Nat.add_assoc]
    apply hopen.silent
    apply Runs.number rfl hpad _ rfl
    rintro rfl
    exact hzero hpad.symm

/-- The length of a stored block, and its complement. -/
theorem stored_length_runs {length : List Bool} (hlength : length.length = 16) {n : ℕ}
    (hn : number length = n) :
    Runs window ⟨.storedLength, [], taken, final, recent⟩ (length ++ length.map not) []
      (if n = 0 then ⟨if final then .done else .header, [], taken + 32, final, recent⟩
        else ⟨.stored n, [], taken + 32, final, recent⟩) := by
  have hlen : (length ++ length.map not).length = 32 := by
    rw [List.length_append, List.length_map, hlength]
  have hlt := number_lt length
  have hnot := number_not length
  rw [hlength, hn] at hlt hnot
  have hvalue : number (length ++ length.map not) =
      n + 2 ^ 16 * number (length.map not) := by
    rw [number_append, hlength, hn]
  have hmod : number (length ++ length.map not) % 2 ^ 16 = n := by
    rw [hvalue, Nat.add_mul_mod_self_left, Nat.mod_eq_of_lt hlt]
  have hdiv : number (length ++ length.map not) / 2 ^ 16 = number (length.map not) := by
    rw [hvalue, Nat.add_mul_div_left _ _ (by decide), Nat.div_eq_of_lt hlt, Nat.zero_add]
  apply Runs.number rfl hlen (List.ne_nil_of_length_eq_add_one hlen)
  simp only [State.act, State.openStored, hmod, hdiv, hlen]
  rw [if_pos hnot]
  split <;> rfl

/-- One block, from its header to its end. -/
theorem block_runs {offset : ℕ} {bits : List Bool} (h : Block allowed final offset recent bits out)
    (hw : allowed ≤ window) (hoffset : offset % 8 = taken % 8) (old : Bool) :
    Runs window ⟨.header, [], taken, old, recent⟩ bits out
      ⟨if final then .done else .header, [], taken + bits.length, final,
        out.reverse ++ recent⟩ := by
  cases h with
  | @stored pad length _ hpad hlength hn =>
    have hcongr : padTo (offset + 3) = padTo (taken + 3) := padTo_congr (by omega)
    have hhead : Runs window ⟨.header, [], taken, old, recent⟩
        ([final, false, false] ++ pad) [] _ :=
      stored_header_runs (hpad.trans hcongr) old
    have hlen : Runs window
        ⟨.storedLength, [], taken + ([final, false, false] ++ pad).length, final, recent⟩
        (length ++ length.map not) [] _ := stored_length_runs hlength hn
    rw [← List.append_assoc, ← List.append_assoc]
    by_cases hdata : out = []
    · subst hdata
      rw [List.length_nil, if_pos rfl] at hlen
      have hall := hhead.silent hlen
      simp only [bits_nil, List.append_nil, List.length_append, List.length_map, hlength,
        List.reverse_nil, List.nil_append, Nat.add_assoc] at hall ⊢
      exact hall
    · rw [if_neg fun h0 => hdata (List.length_eq_zero_iff.mp h0)] at hlen
      have hall := (hhead.silent hlen).silent (data_runs out hdata _ _)
      have hword : (length ++ length.map not).length = 32 := by
        rw [List.length_append, List.length_map, hlength]
      rw [List.length_append, List.length_append, hword, ← Nat.add_assoc, ← Nat.add_assoc]
      exact hall
  | fixed hrest =>
    rw [List.length_append, ← Nat.add_assoc]
    refine Runs.silent (.number rfl rfl (List.cons_ne_nil _ _) ?_) (compressed_runs hrest hw _)
    cases final <;> rfl
  | @dynamic _ counts sizes widths rest sent lengths lit dist hcounts hvalid hsent hsizes
      hsmall hspace hlengths hcodes hrest =>
    have hopen : Runs window ⟨.header, [], taken, old, recent⟩ [final, false, true] []
        ⟨.counts, [], taken + 3, final, recent⟩ := by
      apply Runs.number rfl rfl (List.cons_ne_nil _ _)
      cases final <;> rfl
    have hcount : Runs window ⟨.counts, [], taken + 3, final, recent⟩ counts []
        ((⟨.header, [], taken + 3 + counts.length, final, recent⟩ : State).takeSizes
          (Counts.ofNumber (number counts)) []) := by
      apply Runs.number rfl hcounts (List.ne_nil_of_length_eq_add_one hcounts)
      simp only [State.act, State.takeCounts, hvalid, if_true]
      have hsome : ([] : List ℕ).length < (Counts.ofNumber (number counts)).codeLengths :=
        Nat.succ_pos _
      rw [State.takeSizes, if_pos hsome]
      rfl
    have hsize : Runs window ((⟨.header, [], taken + 3 + counts.length, final, recent⟩ :
        State).takeSizes (Counts.ofNumber (number counts)) []) (sent.flatMap (lowBits 3)) [] _ :=
      sizes_runs sent hsmall [] _ (by rw [List.length_nil, Nat.zero_add, hsent])
    have hfull : ∀ taken, (⟨.header, [], taken, final, recent⟩ : State).takeSizes
        (Counts.ofNumber (number counts)) ([] ++ sent) =
        (⟨.header, [], taken, final, recent⟩ : State).takeWidths (Counts.ofNumber (number counts))
          (Code.ofLengths (codeLengthLengths sent)) [] := by
      intro taken
      rw [List.nil_append, State.takeSizes, if_neg (by omega), if_pos hspace, State.takeWidths,
        if_pos (by simp only [Counts.ofNumber, List.length_nil]; omega)]
    rw [hfull, ← hsizes] at hsize
    have hall := (((hopen.silent hcount).silent hsize).silent
      (widths_runs hlengths hcodes _)).silent (compressed_runs hrest hw _)
    have hthree : [final, false, true].length = 3 := rfl
    simp only [List.length_append, hthree, List.append_assoc, Nat.add_assoc] at hall ⊢
    exact hall

/-- Blocks, none of them the last. -/
theorem blocks_runs {offset : ℕ} {bits : List Bool} (h : Blocks allowed offset recent bits out)
    (hw : allowed ≤ window) :
    ∀ taken, offset % 8 = taken % 8 → Runs window ⟨.header, [], taken, false, recent⟩ bits out
      ⟨.header, [], taken + bits.length, false, out.reverse ++ recent⟩ := by
  induction h with
  | nil => exact fun _ _ => .nil _
  | cons hfirst _ ih =>
    intro taken hoffset
    have hall := (block_runs hfirst hw hoffset false).append (ih _ (by omega))
    simp only [List.length_append, List.reverse_append, List.append_assoc, Nat.add_assoc] at hall ⊢
    exact hall

end Blocks

end WsPmd.Library.Deflate
