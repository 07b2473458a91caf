import Mathlib.Data.List.Basic

/-!
# Transducers with a flush

A transducer takes one symbol at a time and answers some output; told to flush, it answers
what it still held back. What it answers to a list does not depend on how the list is cut,
so a machine that passes it on in pieces, and its output likewise, is told apart from it by
nothing but what it keeps back in between.
-/

namespace WsPmd.Library

structure Transducer (α β τ : Type) where
  absorb : τ → α → τ × List β
  flush : τ → τ × List β
  reset : τ → τ

namespace Transducer

variable {α β τ : Type} (T : Transducer α β τ)

/-- Symbol after symbol. -/
def feed (t : τ) : List α → τ × List β
  | [] => (t, [])
  | a :: input =>
    let rest := feed (T.absorb t a).1 input
    (rest.1, (T.absorb t a).2 ++ rest.2)

/-- An input, and what is flushed behind it. -/
def chunk (t : τ) (input : List α) : τ × List β :=
  let fed := T.feed t input
  ((T.flush fed.1).1, fed.2 ++ (T.flush fed.1).2)

/-- Where it stands between one chunk and the next. -/
inductive Rests (fresh : τ) : τ → Prop where
  | fresh : Rests fresh fresh
  | flush (t : τ) : Rests fresh (T.flush t).1
  | reset (t : τ) : Rests fresh (T.reset t)

theorem feed_append (t : τ) (input more : List α) :
    T.feed t (input ++ more) =
      ((T.feed (T.feed t input).1 more).1,
        (T.feed t input).2 ++ (T.feed (T.feed t input).1 more).2) := by
  induction input generalizing t with
  | nil => rfl
  | cons a input ih =>
    simp only [List.cons_append, feed, ih, List.append_assoc]

/-- What is kept back of an input cut in two, where each part gave what it did. -/
theorem feed_cut {t : τ} {input : List α} (n : ℕ) {given more kept mid left : List β}
    (hgiven : given ++ mid = kept ++ (T.feed t (input.take n)).2)
    (hmore : more ++ left = mid ++ (T.feed (T.feed t (input.take n)).1 (input.drop n)).2) :
    (given ++ more) ++ left = kept ++ (T.feed t input).2 := by
  have hsplit := T.feed_append t (input.take n) (input.drop n)
  rw [List.take_append_drop] at hsplit
  rw [hsplit, List.append_assoc, hmore, ← List.append_assoc, hgiven, List.append_assoc]

theorem feed_cut_state (t : τ) (input : List α) (n : ℕ) :
    (T.feed (T.feed t (input.take n)).1 (input.drop n)).1 = (T.feed t input).1 := by
  have hsplit := T.feed_append t (input.take n) (input.drop n)
  rw [List.take_append_drop] at hsplit
  rw [hsplit]

end Transducer

end WsPmd.Library
