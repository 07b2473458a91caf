import Mathlib.Data.List.Basic
import Mathlib.Tactic.Common

/-!
# Walks that may fail

A walk over a list in `Except` is left at its first error. The laws below say
which part of the list a walk reads, what a walk that cannot fail returns, and
where the error of a failed walk comes from.
-/

namespace WsPmd.Library.Traversal

variable {ε α β σ : Type}

/-- An error neither half can make is not made by both in turn. -/
theorem bind_ne_error {x : Except ε α} {f : α → Except ε β} {e : ε} (hx : x ≠ .error e)
    (hf : ∀ a, f a ≠ .error e) : x >>= f ≠ .error e := by
  cases x with
  | error e' => exact fun h => hx (congrArg Except.error (Except.error.inj h))
  | ok a => exact hf a

theorem map_ne_error {x : Except ε α} {f : α → β} {e : ε} (hx : x ≠ .error e) :
    x.map f ≠ .error e := by
  cases x with
  | error e' => exact fun h => hx (congrArg Except.error (Except.error.inj h))
  | ok a => nofun

theorem foldlM_congr {f g : σ → α → Except ε σ} {l : List α}
    (h : ∀ s, ∀ a ∈ l, f s a = g s a) (init : σ) : l.foldlM f init = l.foldlM g init := by
  induction l generalizing init with
  | nil => rfl
  | cons a l ih =>
    rw [List.foldlM_cons, List.foldlM_cons, h init a List.mem_cons_self]
    exact bind_congr fun s => ih (fun s b hb => h s b (List.mem_cons_of_mem a hb)) s

theorem findSomeM_congr {f g : α → Except ε (Option β)} {l : List α}
    (h : ∀ a ∈ l, f a = g a) : l.findSomeM? f = l.findSomeM? g := by
  induction l with
  | nil => rfl
  | cons a l ih =>
    rw [List.findSomeM?_cons, List.findSomeM?_cons, h a List.mem_cons_self,
      ih fun b hb => h b (List.mem_cons_of_mem a hb)]

/-- A walk that passes over what is not selected is a walk over the selected. -/
theorem foldlM_selected {p : α → Bool} {visit f : σ → α → Except ε σ} {l : List α}
    (h : ∀ s, ∀ a ∈ l, visit s a = if p a then f s a else .ok s) (init : σ) :
    l.foldlM visit init = (l.filter p).foldlM f init := by
  rw [List.foldlM_filter]
  exact foldlM_congr h init

theorem findSomeM_selected {p : α → Bool} {visit f : α → Except ε (Option β)} {l : List α}
    (h : ∀ a ∈ l, visit a = if p a then f a else .ok none) :
    l.findSomeM? visit = (l.filter p).findSomeM? f := by
  induction l with
  | nil => rfl
  | cons a l ih =>
    have hl := ih fun b hb => h b (List.mem_cons_of_mem a hb)
    rw [List.findSomeM?_cons, h a List.mem_cons_self]
    by_cases hp : p a = true
    · rw [if_pos hp, List.filter_cons_of_pos hp, List.findSomeM?_cons, hl]
    · rw [if_neg hp, List.filter_cons_of_neg hp]
      exact hl

/-- A search whose every visit answers is the plain search. -/
theorem findSomeM_total {visit : α → Except ε (Option β)} {f : α → Option β} {l : List α}
    (h : ∀ a ∈ l, visit a = .ok (f a)) : l.findSomeM? visit = .ok (l.findSome? f) := by
  rw [findSomeM_congr (g := fun a => .ok (f a)) h]
  exact List.findSomeM?_pure

/-- A search finds nothing when every visit answers that there is nothing. -/
theorem findSomeM_eq_none {f : α → Except ε (Option β)} {l : List α} :
    l.findSomeM? f = .ok none ↔ ∀ a ∈ l, f a = .ok none := by
  induction l with
  | nil => exact ⟨fun _ => nofun, fun _ => rfl⟩
  | cons a l ih =>
    rw [List.findSomeM?_cons, List.forall_mem_cons, ← ih]
    cases ha : f a with
    | error e =>
      constructor
      · intro h
        cases h
      · rintro ⟨h, -⟩
        cases h
    | ok found =>
      cases found with
      | none => exact ⟨fun h => ⟨rfl, h⟩, fun h => h.2⟩
      | some b =>
        constructor
        · intro h
          cases h
        · rintro ⟨h, -⟩
          cases h

/-- A walk that succeeds has succeeded at every element. -/
theorem foldlM_visits {f : σ → α → Except ε σ} {l : List α} {r : σ} :
    ∀ {init : σ}, l.foldlM f init = .ok r → ∀ a ∈ l, ∃ s s', f s a = .ok s' := by
  induction l with
  | nil => exact fun _ => nofun
  | cons a l ih =>
    intro init h
    rw [List.foldlM_cons] at h
    cases ha : f init a with
    | error e => rw [ha] at h; cases h
    | ok s' =>
      rw [ha] at h
      exact List.forall_mem_cons.mpr ⟨⟨init, s', ha⟩, ih h⟩

/-- **The first refusal.** A walk fails with the error of the first visit that
fails, made in the state the walk had reached; what stands behind is not read. -/
theorem foldlM_eq_error {f : σ → α → Except ε σ} {l : List α} {init : σ} {e : ε} :
    l.foldlM f init = .error e ↔ ∃ before a after s,
      l = before ++ a :: after ∧ before.foldlM f init = .ok s ∧ f s a = .error e := by
  induction l generalizing init with
  | nil =>
    constructor
    · intro h
      cases h
    · rintro ⟨before, a, after, s, h, -⟩
      simp at h
  | cons b l ih =>
    rw [List.foldlM_cons]
    cases hb : f init b with
    | error e' =>
      constructor
      · intro h
        obtain rfl := Except.error.inj h
        exact ⟨[], b, l, init, rfl, rfl, hb⟩
      · rintro ⟨before, a, after, s, hl, hs, ha⟩
        cases before with
        | nil =>
          obtain ⟨rfl, -⟩ := List.cons.inj hl
          obtain rfl := Except.ok.inj hs
          rw [hb] at ha
          exact ha
        | cons c before =>
          obtain ⟨rfl, -⟩ := List.cons.inj hl
          rw [List.foldlM_cons, hb] at hs
          cases hs
    | ok s' =>
      show l.foldlM f s' = .error e ↔ _
      rw [ih]
      constructor
      · rintro ⟨before, a, after, s, rfl, hs, ha⟩
        refine ⟨b :: before, a, after, s, rfl, ?_, ha⟩
        rw [List.foldlM_cons, hb]
        exact hs
      · rintro ⟨before, a, after, s, hl, hs, ha⟩
        cases before with
        | nil =>
          obtain ⟨rfl, -⟩ := List.cons.inj hl
          obtain rfl := Except.ok.inj hs
          rw [hb] at ha
          cases ha
        | cons c before =>
          obtain ⟨rfl, rfl⟩ := List.cons.inj hl
          rw [List.foldlM_cons, hb] at hs
          exact ⟨before, a, after, s, rfl, hs, ha⟩

end WsPmd.Library.Traversal
