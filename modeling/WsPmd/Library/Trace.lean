import Mathlib.Data.List.Basic

/-!
# Steps that report what they do

A step goes from one state to the next and reports a list of events. A trace is a
sequence of steps beside everything they reported, in order. What every step keeps,
given what was reported so far, holds at every state a trace comes to; and a law for
each event, given those before it, is kept one event at a time.
-/

namespace WsPmd.Library

variable {σ ε : Type} {step : σ → List ε → σ → Prop}

/-- Any number of steps, one behind the other. -/
inductive Trace (step : σ → List ε → σ → Prop) : σ → List ε → σ → Prop where
  | refl (s : σ) : Trace step s [] s
  | tail {s t u : σ} {log events : List ε} :
      Trace step s log t → step t events u → Trace step s (log ++ events) u

namespace Trace

theorem single {s t : σ} {events : List ε} (h : step s events t) : Trace step s events t :=
  .tail (.refl s) h

theorem trans {s t u : σ} {log log' : List ε} (h : Trace step s log t)
    (h' : Trace step t log' u) : Trace step s (log ++ log') u := by
  induction h' with
  | refl => rwa [List.append_nil]
  | tail _ hstep ih =>
    rw [← List.append_assoc]
    exact .tail ih hstep

theorem head {s t u : σ} {events log : List ε} (h : step s events t) (h' : Trace step t log u) :
    Trace step s (events ++ log) u :=
  (single h).trans h'

/-- **The invariant rule for traces.** -/
theorem invariant {s : σ} (inv : List ε → σ → Prop) (start : inv [] s)
    (next : ∀ log t events u, inv log t → step t events u → inv (log ++ events) u)
    {log : List ε} {t : σ} (h : Trace step s log t) : inv log t := by
  induction h with
  | refl => exact start
  | tail _ hstep ih => exact next _ _ _ _ ih hstep

/-- **The projection rule for traces.** Where every step is, to one who sees a part of the
state and some of the events, a step of another kind or nothing at all, so is a trace. -/
theorem project {σ' ε' : Type} {step' : σ' → List ε' → σ' → Prop} (view : σ → σ')
    (sees : ε → Option ε')
    (next : ∀ s events t, step s events t → step' (view s) (events.filterMap sees) (view t) ∨
      (view t = view s ∧ events.filterMap sees = []))
    {s t : σ} {log : List ε} (h : Trace step s log t) :
    Trace step' (view s) (log.filterMap sees) (view t) := by
  induction h with
  | refl => exact .refl (view s)
  | tail _ hstep ih =>
    rw [List.filterMap_append]
    rcases next _ _ _ hstep with hseen | ⟨hsame, hnone⟩
    · exact .tail ih hseen
    · rw [hnone, List.append_nil, hsame]
      exact ih

/-- Where every step can be taken inside a larger state, so can a trace. -/
theorem within {σ' ε' : Type} {step' : σ' → List ε' → σ' → Prop} (place : σ → σ')
    (label : ε → ε')
    (next : ∀ s events t, step s events t → step' (place s) (events.map label) (place t))
    {s t : σ} {log : List ε} (h : Trace step s log t) :
    Trace step' (place s) (log.map label) (place t) := by
  induction h with
  | refl => exact .refl (place s)
  | tail _ hstep ih =>
    rw [List.map_append]
    exact .tail ih (next _ _ _ hstep)

end Trace

/-- Every event of a log is as it has to be behind those before it. -/
def Each (law : List ε → ε → Prop) (log : List ε) : Prop :=
  ∀ before event after, log = before ++ event :: after → law before event

theorem each_nil (law : List ε → ε → Prop) : Each law [] := by
  intro before event after h
  cases before <;> cases h

theorem each_concat {law : List ε → ε → Prop} {log : List ε} {event : ε} :
    Each law (log ++ [event]) ↔ Each law log ∧ law log event := by
  constructor
  · intro h
    refine ⟨fun before e after hlog => ?_, h log event [] rfl⟩
    exact h before e (after ++ [event]) (by rw [hlog, List.append_assoc, List.cons_append])
  · intro ⟨hlog, hevent⟩ before e after h
    rcases List.eq_nil_or_concat after with rfl | ⟨after, last, rfl⟩
    · obtain ⟨rfl, he⟩ := List.append_inj' h rfl
      obtain rfl := List.singleton_inj.mp he
      exact hevent
    · rw [List.concat_eq_append, ← List.cons_append, ← List.append_assoc] at h
      exact hlog before e after (List.append_inj' h rfl).1

end WsPmd.Library
