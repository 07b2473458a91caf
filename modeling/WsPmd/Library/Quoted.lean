import Mathlib.Tactic.SplitIfs

/-!
# Splitting at a delimiter outside quotes

A value is cut at every delimiter that stands outside a quoted string, where a
quote toggles the string and an escape inside one hides the symbol after it.
`walk` reads a piece without cutting it: it answers the quoting state the piece
ends in, and nothing at all once it meets a bare delimiter. A piece is `Whole`
when it can be walked from outside quotes back to outside quotes, and the parts
of a split are exactly the lists of whole pieces.
-/

namespace WsPmd.Library.Quoted

variable {α : Type} [DecidableEq α]

/-- The symbols a quoted string is written with. -/
structure Marks (α : Type) where
  quote : α
  escape : α

/-- A splitter between two symbols: the parts already cut, the part being read,
and whether the reading position is inside quotes or right behind an escape. -/
structure Scan (α : Type) where
  parts : List (List α)
  part : List α
  quoted : Bool
  escaped : Bool
  deriving DecidableEq

def Scan.start : Scan α := ⟨[], [], false, false⟩

def Scan.step (m : Marks α) (delimiter : α) (s : Scan α) (a : α) : Scan α :=
  if s.quoted then
    if s.escaped then { s with part := s.part ++ [a], escaped := false }
    else if a = m.escape then { s with part := s.part ++ [a], escaped := true }
    else if a = m.quote then { s with part := s.part ++ [a], quoted := false }
    else { s with part := s.part ++ [a] }
  else if a = m.quote then { s with part := s.part ++ [a], quoted := true }
  else if a = delimiter then { s with parts := s.parts ++ [s.part], part := [] }
  else { s with part := s.part ++ [a] }

def Scan.over (m : Marks α) (delimiter : α) (s : Scan α) (value : List α) : Scan α :=
  value.foldl (Scan.step m delimiter) s

/-- Cut `value` at every bare `delimiter`; `none` when it ends inside quotes. -/
def split (m : Marks α) (delimiter : α) (value : List α) : Option (List (List α)) :=
  let s := Scan.start.over m delimiter value
  if s.quoted || s.escaped then none else some (s.parts ++ [s.part])

/-- The quoting state behind one more symbol, or nothing at a bare delimiter. -/
def glance (m : Marks α) (delimiter : α) : Bool × Bool → α → Option (Bool × Bool)
  | (true, true), _ => some (true, false)
  | (true, false), a =>
    if a = m.escape then some (true, true)
    else if a = m.quote then some (false, false)
    else some (true, false)
  | (false, e), a =>
    if a = m.quote then some (true, e)
    else if a = delimiter then none
    else some (false, e)

def walk (m : Marks α) (delimiter : α) (from_ : Bool × Bool) (piece : List α) :
    Option (Bool × Bool) :=
  piece.foldlM (glance m delimiter) from_

/-- A piece that is balanced and has no delimiter outside its quotes. -/
def Whole (m : Marks α) (delimiter : α) (piece : List α) : Prop :=
  walk m delimiter (false, false) piece = some (false, false)

instance (m : Marks α) (delimiter : α) (piece : List α) : Decidable (Whole m delimiter piece) :=
  inferInstanceAs (Decidable (_ = _))

section Walking

variable {m : Marks α} {delimiter : α}

@[simp] theorem walk_nil (q : Bool × Bool) : walk m delimiter q [] = some q := rfl

theorem walk_cons (q : Bool × Bool) (a : α) (piece : List α) :
    walk m delimiter q (a :: piece) =
      (glance m delimiter q a).bind (fun q' => walk m delimiter q' piece) := rfl

theorem walk_append (q : Bool × Bool) (xs ys : List α) :
    walk m delimiter q (xs ++ ys) =
      (walk m delimiter q xs).bind (fun q' => walk m delimiter q' ys) := by
  unfold walk
  rw [List.foldlM_append]
  rfl

theorem walk_concat (q : Bool × Bool) (xs : List α) (a : α) :
    walk m delimiter q (xs ++ [a]) =
      (walk m delimiter q xs).bind (fun q' => glance m delimiter q' a) := by
  rw [walk_append]
  congr 1
  funext q'
  rw [walk_cons]
  cases glance m delimiter q' a <;> rfl

/-- Outside quotes, symbols that are neither a quote nor the delimiter change nothing. -/
theorem walk_plain {piece : List α} (hq : m.quote ∉ piece) (hd : delimiter ∉ piece) :
    walk m delimiter (false, false) piece = some (false, false) := by
  induction piece with
  | nil => rfl
  | cons a piece ih =>
    simp only [List.mem_cons, not_or] at hq hd
    rw [walk_cons]
    simp only [glance, if_neg (Ne.symm hq.1), if_neg (Ne.symm hd.1), Option.bind_some]
    exact ih hq.2 hd.2

theorem whole_plain {piece : List α} (hq : m.quote ∉ piece) (hd : delimiter ∉ piece) :
    Whole m delimiter piece := walk_plain hq hd

theorem Whole.append {xs ys : List α} (hx : Whole m delimiter xs) (hy : Whole m delimiter ys) :
    Whole m delimiter (xs ++ ys) := by
  unfold Whole at *
  rw [walk_append, hx]
  exact hy

end Walking

section Scanning

variable {m : Marks α} {delimiter : α}

/-- A scanner never stands behind an escape outside quotes. -/
def Scan.Sane (s : Scan α) : Prop := s.escaped = true → s.quoted = true

/-- One step of the scanner is one glance: either the symbol joins the part, or
it is a bare delimiter and the part is complete. -/
theorem Scan.step_eq (s : Scan α) (a : α) :
    s.step m delimiter a =
      match glance m delimiter (s.quoted, s.escaped) a with
      | some (q, e) => { s with part := s.part ++ [a], quoted := q, escaped := e }
      | none => { s with parts := s.parts ++ [s.part], part := [] } := by
  obtain ⟨parts, part, quoted, escaped⟩ := s
  cases quoted <;> cases escaped <;> simp only [Scan.step, glance] <;> split_ifs <;> simp_all

theorem glance_sane {q e : Bool} (hs : e = true → q = true) {a : α} {q' e' : Bool}
    (h : glance m delimiter (q, e) a = some (q', e')) : e' = true → q' = true := by
  cases q <;> cases e <;> simp only [glance] at h <;> (try split_ifs at h) <;> simp_all

theorem glance_none {q e : Bool} {a : α} (h : glance m delimiter (q, e) a = none) :
    q = false ∧ a = delimiter := by
  cases q <;> cases e <;> simp only [glance] at h <;> (try split_ifs at h) <;> simp_all

/-- What the scanner has read so far, and how each part of it stands. -/
structure Scan.Inv (m : Marks α) (delimiter : α) (read : List α) (s : Scan α) : Prop where
  sane : s.Sane
  joined : [delimiter].intercalate (s.parts ++ [s.part]) = read
  cut : ∀ p ∈ s.parts, Whole m delimiter p
  reading : walk m delimiter (false, false) s.part = some (s.quoted, s.escaped)

omit [DecidableEq α] in
theorem intercalate_concat (d : α) (ps : List (List α)) (p : List α) (hp : ps ≠ []) :
    [d].intercalate (ps ++ [p]) = [d].intercalate ps ++ d :: p := by
  induction ps with
  | nil => exact absurd rfl hp
  | cons q ps ih =>
    cases ps with
    | nil => simp
    | cons r ps =>
      have h := ih (by simp)
      simp only [List.cons_append] at h ⊢
      rw [List.intercalate_cons_cons, List.intercalate_cons_cons, h]
      simp

omit [DecidableEq α] in
theorem intercalate_last (d : α) (ps : List (List α)) (p : List α) (a : α) :
    [d].intercalate (ps ++ [p ++ [a]]) = [d].intercalate (ps ++ [p]) ++ [a] := by
  cases ps with
  | nil => simp
  | cons q ps =>
    rw [intercalate_concat d (q :: ps) _ (by simp), intercalate_concat d (q :: ps) _ (by simp)]
    simp

theorem Scan.Inv.step {read : List α} {s : Scan α} (h : s.Inv m delimiter read) (a : α) :
    (s.step m delimiter a).Inv m delimiter (read ++ [a]) := by
  rw [Scan.step_eq]
  cases hg : glance m delimiter (s.quoted, s.escaped) a with
  | some next =>
    obtain ⟨q, e⟩ := next
    refine ⟨glance_sane h.sane hg, ?_, h.cut, ?_⟩
    · show [delimiter].intercalate (s.parts ++ [s.part ++ [a]]) = read ++ [a]
      rw [intercalate_last, h.joined]
    · show walk m delimiter (false, false) (s.part ++ [a]) = some (q, e)
      rw [walk_concat, h.reading]
      exact hg
  | none =>
    obtain ⟨hq, ha⟩ := glance_none hg
    have he : s.escaped = false := by
      cases hs : s.escaped with
      | false => rfl
      | true => rw [h.sane hs] at hq; cases hq
    refine ⟨h.sane, ?_, ?_, ?_⟩
    · show [delimiter].intercalate (s.parts ++ [s.part] ++ [[]]) = read ++ [a]
      rw [intercalate_concat _ _ _ (by simp), h.joined, ha]
    · intro p hp
      rcases List.mem_append.mp hp with hp | hp
      · exact h.cut p hp
      · rw [List.mem_singleton.mp hp]
        have hr := h.reading
        rw [hq, he] at hr
        exact hr
    · show walk m delimiter (false, false) [] = some (s.quoted, s.escaped)
      rw [hq, he, walk_nil]

theorem Scan.Inv.over {read : List α} {s : Scan α} (h : s.Inv m delimiter read)
    (value : List α) : (s.over m delimiter value).Inv m delimiter (read ++ value) := by
  induction value generalizing read s with
  | nil => simpa [Scan.over] using h
  | cons a value ih =>
    have hn := ih (h.step a)
    simpa [Scan.over] using hn

theorem Scan.start_inv : (Scan.start : Scan α).Inv m delimiter [] where
  sane := by intro h; cases h
  joined := by simp [Scan.start]
  cut := by simp [Scan.start]
  reading := rfl

/-- A scanner that crosses a whole piece only grows its part. -/
theorem Scan.over_walk {piece : List α} :
    ∀ {s : Scan α} {q e : Bool},
      walk m delimiter (s.quoted, s.escaped) piece = some (q, e) →
      s.over m delimiter piece = { s with part := s.part ++ piece, quoted := q, escaped := e } := by
  induction piece with
  | nil =>
    intro s q e h
    rw [walk_nil, Option.some.injEq, Prod.mk.injEq] at h
    obtain ⟨rfl, rfl⟩ := h
    simp [Scan.over]
  | cons a piece ih =>
    intro s q e h
    rw [walk_cons] at h
    cases hg : glance m delimiter (s.quoted, s.escaped) a with
    | none => rw [hg] at h; cases h
    | some next =>
      obtain ⟨q', e'⟩ := next
      rw [hg, Option.bind_some] at h
      have hstep : s.step m delimiter a =
          { s with part := s.part ++ [a], quoted := q', escaped := e' } := by
        rw [Scan.step_eq, hg]
      have hn := ih (s := s.step m delimiter a) (by rw [hstep]; exact h)
      show (s.step m delimiter a).over m delimiter piece = _
      rw [hn, hstep]
      simp

/-- Parts cut before are carried along untouched. -/
theorem Scan.over_parts (ps : List (List α)) (value : List α) :
    ∀ s : Scan α, Scan.over m delimiter { s with parts := ps ++ s.parts } value =
      { s.over m delimiter value with parts := ps ++ (s.over m delimiter value).parts } := by
  induction value with
  | nil => intro s; rfl
  | cons a value ih =>
    intro s
    have hstep : Scan.step m delimiter { s with parts := ps ++ s.parts } a =
        { s.step m delimiter a with parts := ps ++ (s.step m delimiter a).parts } := by
      rw [Scan.step_eq, Scan.step_eq]
      cases glance m delimiter (s.quoted, s.escaped) a <;> simp
    show Scan.over m delimiter (Scan.step m delimiter _ a) value = _
    rw [hstep, ih]
    rfl

end Scanning

section Splitting

variable {m : Marks α} {delimiter : α}

/-- Joining the parts of a split gives back the value. -/
theorem join_split {value : List α} {parts : List (List α)}
    (h : split m delimiter value = some parts) : [delimiter].intercalate parts = value := by
  have hi : (Scan.start.over m delimiter value).Inv m delimiter ([] ++ value) :=
    Scan.start_inv.over value
  simp only [split] at h
  split_ifs at h with hq
  obtain rfl := Option.some.inj h
  simpa using hi.joined

/-- Every part of a split is balanced and has no bare delimiter. -/
theorem whole_of_mem_split {value : List α} {parts : List (List α)}
    (h : split m delimiter value = some parts) {p : List α} (hp : p ∈ parts) :
    Whole m delimiter p := by
  have hi : (Scan.start.over m delimiter value).Inv m delimiter ([] ++ value) :=
    Scan.start_inv.over value
  simp only [split] at h
  split_ifs at h with hq
  obtain rfl := Option.some.inj h
  simp only [Bool.or_eq_true, not_or, Bool.not_eq_true] at hq
  rcases List.mem_append.mp hp with hp | hp
  · exact hi.cut p hp
  · rw [List.mem_singleton.mp hp]
    have hr := hi.reading
    rw [hq.1, hq.2] at hr
    exact hr

theorem split_ne_nil {value : List α} {parts : List (List α)}
    (h : split m delimiter value = some parts) : parts ≠ [] := by
  simp only [split] at h
  split_ifs at h
  obtain rfl := Option.some.inj h
  simp

theorem split_whole {piece : List α} (h : Whole m delimiter piece) :
    split m delimiter piece = some [piece] := by
  have hs := Scan.over_walk (s := (Scan.start : Scan α)) h
  simp only [split, hs]
  simp [Scan.start]

/-- A whole piece in front of a delimiter is the first part. -/
theorem split_cons {piece : List α} (h : Whole m delimiter piece) (hq : delimiter ≠ m.quote)
    (rest : List α) :
    split m delimiter (piece ++ delimiter :: rest) =
      (split m delimiter rest).map (piece :: ·) := by
  have hs := Scan.over_walk (s := (Scan.start : Scan α)) h
  have hd : Scan.start.over m delimiter (piece ++ [delimiter]) =
      ({ Scan.start with parts := [piece] ++ [] } : Scan α) := by
    unfold Scan.over at hs ⊢
    rw [List.foldl_append, hs]
    simp [Scan.step, Scan.start, hq]
  have hr : Scan.start.over m delimiter (piece ++ delimiter :: rest) =
      { Scan.start.over m delimiter rest with
        parts := [piece] ++ (Scan.start.over m delimiter rest).parts } := by
    rw [← Scan.over_parts, show piece ++ delimiter :: rest = (piece ++ [delimiter]) ++ rest by simp]
    show List.foldl _ _ _ = _
    rw [List.foldl_append]
    exact congrArg (fun s => Scan.over m delimiter s rest) hd
  simp only [split, hr]
  split_ifs <;> simp

/-- **Splitting inverts joining** on whole pieces. -/
theorem split_join {pieces : List (List α)} (hq : delimiter ≠ m.quote) (hne : pieces ≠ [])
    (h : ∀ p ∈ pieces, Whole m delimiter p) :
    split m delimiter ([delimiter].intercalate pieces) = some pieces := by
  induction pieces with
  | nil => exact absurd rfl hne
  | cons p pieces ih =>
    cases pieces with
    | nil => simpa using split_whole (h p (by simp))
    | cons q pieces =>
      have hr := ih (by simp) (fun r hr => h r (List.mem_cons_of_mem p hr))
      rw [List.intercalate_cons_cons]
      simp only [List.append_assoc, List.singleton_append]
      rw [split_cons (h p (by simp)) hq, hr, Option.map_some]

/-- The same scan with more symbols in front of its first part. -/
def Scan.lead (w : List α) (s : Scan α) : Scan α :=
  match s.parts with
  | [] => { s with part := w ++ s.part }
  | p :: ps => { s with parts := (w ++ p) :: ps }

theorem Scan.lead_step (w : List α) (s : Scan α) (a : α) :
    (s.lead w).step m delimiter a = (s.step m delimiter a).lead w := by
  obtain ⟨parts, part, quoted, escaped⟩ := s
  rw [Scan.step_eq, Scan.step_eq]
  cases parts with
  | nil =>
    show (match glance m delimiter (quoted, escaped) a with | some (_, _) => _ | none => _) = _
    cases glance m delimiter (quoted, escaped) a <;> simp [Scan.lead]
  | cons p ps =>
    show (match glance m delimiter (quoted, escaped) a with | some (_, _) => _ | none => _) = _
    cases glance m delimiter (quoted, escaped) a <;> simp [Scan.lead]

theorem Scan.lead_over (w value : List α) :
    ∀ s : Scan α, (s.lead w).over m delimiter value = (s.over m delimiter value).lead w := by
  induction value with
  | nil => exact fun _ => rfl
  | cons a value ih =>
    intro s
    show ((s.lead w).step m delimiter a).over m delimiter value = _
    rw [Scan.lead_step, ih]
    rfl

/-- Symbols that are neither a quote nor the delimiter stay with the first part. -/
theorem split_lead {w : List α} (hq : m.quote ∉ w) (hd : delimiter ∉ w) (value : List α) :
    split m delimiter (w ++ value) =
      (split m delimiter value).map (List.modifyHead (w ++ ·)) := by
  have hw := Scan.over_walk (s := (Scan.start : Scan α)) (walk_plain hq hd)
  have hover : Scan.start.over m delimiter (w ++ value) =
      (Scan.start.over m delimiter value).lead w := by
    rw [← Scan.lead_over]
    unfold Scan.over at hw ⊢
    rw [List.foldl_append, hw]
    simp [Scan.start, Scan.lead]
  simp only [split, hover]
  obtain ⟨parts, part, quoted, escaped⟩ := Scan.start.over m delimiter value
  cases parts <;> cases quoted <;> cases escaped <;> rfl

end Splitting

section Balancing

variable {m : Marks α} {delimiter : α}

/-- The quoting state behind one more symbol, where no symbol delimits. -/
def turn (m : Marks α) : Bool × Bool → α → Bool × Bool
  | (true, true), _ => (true, false)
  | (true, false), a =>
    if a = m.escape then (true, true) else if a = m.quote then (false, false) else (true, false)
  | (false, e), a => if a = m.quote then (true, e) else (false, e)

/-- A value whose every quote is closed. -/
def Balanced (m : Marks α) (value : List α) : Prop :=
  value.foldl (turn m) (false, false) = (false, false)

instance (m : Marks α) (value : List α) : Decidable (Balanced m value) :=
  inferInstanceAs (Decidable (_ = _))

theorem glance_eq_turn {q q' : Bool × Bool} {a : α} (h : glance m delimiter q a = some q') :
    turn m q a = q' := by
  obtain ⟨quoted, escaped⟩ := q
  cases quoted <;> cases escaped <;> simp only [glance, turn] at h ⊢ <;>
    (try split_ifs at h ⊢) <;> simp_all

theorem walk_eq_foldl {piece : List α} :
    ∀ {q q' : Bool × Bool}, walk m delimiter q piece = some q' → piece.foldl (turn m) q = q' := by
  induction piece with
  | nil =>
    intro q q' h
    exact Option.some.inj h
  | cons a piece ih =>
    intro q q' h
    rw [walk_cons] at h
    obtain ⟨next, hg, hw⟩ := Option.bind_eq_some_iff.mp h
    rw [List.foldl_cons, glance_eq_turn hg]
    exact ih hw

theorem Whole.balanced {piece : List α} (h : Whole m delimiter piece) : Balanced m piece :=
  walk_eq_foldl h

theorem Scan.over_turn (hq : delimiter ≠ m.quote) (value : List α) :
    ∀ s : Scan α, value.foldl (turn m) (s.quoted, s.escaped) =
      ((s.over m delimiter value).quoted, (s.over m delimiter value).escaped) := by
  induction value with
  | nil => exact fun _ => rfl
  | cons a value ih =>
    intro s
    have hstep : turn m (s.quoted, s.escaped) a =
        ((s.step m delimiter a).quoted, (s.step m delimiter a).escaped) := by
      rw [Scan.step_eq]
      cases hg : glance m delimiter (s.quoted, s.escaped) a with
      | some next => exact glance_eq_turn hg
      | none =>
        obtain ⟨hf, rfl⟩ := glance_none hg
        simp [hf, turn, hq]
    rw [List.foldl_cons, hstep, ih]
    rfl

/-- A value splits exactly when its quotes are closed, wherever it is cut. -/
theorem split_isSome_iff (hq : delimiter ≠ m.quote) {value : List α} :
    (∃ parts, split m delimiter value = some parts) ↔ Balanced m value := by
  have hover := Scan.over_turn (m := m) hq value Scan.start
  have hstart : ((Scan.start : Scan α).quoted, (Scan.start : Scan α).escaped) = (false, false) :=
    rfl
  rw [hstart] at hover
  unfold Balanced
  rw [hover]
  simp only [split, Prod.mk.injEq]
  cases (Scan.start.over m delimiter value).quoted <;>
    cases (Scan.start.over m delimiter value).escaped <;> simp

/-- The first part is the value, or ends where a delimiter follows. -/
theorem split_head {value : List α} {parts : List (List α)}
    (h : split m delimiter value = some parts) :
    ∃ first rest, parts = first :: rest ∧ Whole m delimiter first ∧
      (value = first ∨ ∃ tail, value = first ++ delimiter :: tail) := by
  cases parts with
  | nil => exact absurd rfl (split_ne_nil h)
  | cons first rest =>
    refine ⟨first, rest, rfl, whole_of_mem_split h List.mem_cons_self, ?_⟩
    have hj := join_split h
    cases rest with
    | nil => exact Or.inl (by simpa using hj.symm)
    | cons next rest =>
      rw [List.intercalate_cons_cons] at hj
      exact Or.inr ⟨_, by rw [← hj]; simp only [List.append_assoc, List.singleton_append]; rfl⟩

/-- In front of the first quote a whole piece holds no delimiter. -/
theorem Whole.plain_before {before after : List α} (h : Whole m delimiter (before ++ after))
    (hq : m.quote ∉ before) : delimiter = m.quote ∨ delimiter ∉ before := by
  by_cases hd : delimiter = m.quote
  · exact Or.inl hd
  · refine Or.inr ?_
    unfold Whole at h
    rw [walk_append] at h
    obtain ⟨q', hw, -⟩ := Option.bind_eq_some_iff.mp h
    clear h
    induction before with
    | nil => simp
    | cons a before ih =>
      simp only [List.mem_cons, not_or] at hq
      rw [walk_cons] at hw
      obtain ⟨next, hg, hw⟩ := Option.bind_eq_some_iff.mp hw
      simp only [glance, if_neg (Ne.symm hq.1)] at hg
      split_ifs at hg with ha
      obtain rfl := Option.some.inj hg
      simp only [List.mem_cons, not_or]
      exact ⟨Ne.symm ha, ih hq.2 hw⟩

/-- A walk that fails meets a delimiter where nothing is quoted. -/
theorem walk_none {value : List α} :
    ∀ {q : Bool × Bool}, walk m delimiter q value = none →
      ∃ before after e, value = before ++ delimiter :: after ∧
        walk m delimiter q before = some (false, e) := by
  induction value with
  | nil =>
    intro q h
    cases h
  | cons a value ih =>
    intro q h
    rw [walk_cons] at h
    cases hg : glance m delimiter q a with
    | none =>
      obtain ⟨hq, rfl⟩ := glance_none hg
      exact ⟨[], value, q.2, rfl, congrArg some (Prod.ext hq rfl)⟩
    | some next =>
      rw [hg, Option.bind_some] at h
      obtain ⟨before, after, e, rfl, hw⟩ := ih h
      refine ⟨a :: before, after, e, rfl, ?_⟩
      rw [walk_cons, hg, Option.bind_some, hw]

theorem walk_sane {value : List α} :
    ∀ {q e q' e' : Bool}, (e = true → q = true) →
      walk m delimiter (q, e) value = some (q', e') → e' = true → q' = true := by
  induction value with
  | nil =>
    intro q e q' e' hs h
    obtain ⟨rfl, rfl⟩ := Prod.mk.inj (Option.some.inj h)
    exact hs
  | cons a value ih =>
    intro q e q' e' hs h
    rw [walk_cons] at h
    obtain ⟨next, hg, hw⟩ := Option.bind_eq_some_iff.mp h
    exact ih (glance_sane hs hg) hw

/-- A piece is whole when its quotes are closed and no delimiter in it is outside them. -/
theorem whole_iff (hq : delimiter ≠ m.quote) {piece : List α} :
    Whole m delimiter piece ↔ Balanced m piece ∧
      ∀ before after, piece = before ++ delimiter :: after → ¬ Balanced m before := by
  constructor
  · intro h
    refine ⟨h.balanced, ?_⟩
    rintro before after rfl hbalanced
    unfold Whole at h
    rw [walk_append] at h
    obtain ⟨q, hw, h⟩ := Option.bind_eq_some_iff.mp h
    obtain rfl : (false, false) = q := hbalanced.symm.trans (walk_eq_foldl hw)
    rw [walk_cons, glance, if_neg hq, if_pos rfl] at h
    cases h
  · intro ⟨hbalanced, hbare⟩
    cases hw : walk m delimiter (false, false) piece with
    | some q => exact hw.trans (congrArg some ((walk_eq_foldl hw).symm.trans hbalanced))
    | none =>
      obtain ⟨before, after, e, hpiece, hbefore⟩ := walk_none hw
      obtain rfl : e = false :=
        Bool.eq_false_iff.mpr fun he => Bool.false_ne_true (walk_sane id hbefore he)
      exact absurd (walk_eq_foldl hbefore) (hbare before after hpiece)

end Balancing

end WsPmd.Library.Quoted
