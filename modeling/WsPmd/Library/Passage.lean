import Mathlib.Data.List.Basic

/-!
# What passes over a boundary

One side offers what it has, the other takes some of it and gives something back. Over a
run of such passages, what was taken and what was given are each one list, in order.
-/

namespace WsPmd.Library

/-- What was taken off what was offered, and what was given. -/
structure Passage (α : Type) where
  taken : List α
  given : List α
  deriving DecidableEq

section Passages

variable {α : Type}

def took (passages : List (Passage α)) : List α := passages.flatMap Passage.taken

def gave (passages : List (Passage α)) : List α := passages.flatMap Passage.given

theorem took_cons (p : Passage α) (passages : List (Passage α)) :
    took (p :: passages) = p.taken ++ took passages := List.flatMap_cons

theorem gave_cons (p : Passage α) (passages : List (Passage α)) :
    gave (p :: passages) = p.given ++ gave passages := List.flatMap_cons

theorem took_append (passages passages' : List (Passage α)) :
    took (passages ++ passages') = took passages ++ took passages' := List.flatMap_append

theorem gave_append (passages passages' : List (Passage α)) :
    gave (passages ++ passages') = gave passages ++ gave passages' := List.flatMap_append

end Passages

end WsPmd.Library
