import Mathlib.Data.Nat.Notation
import Mathlib.Logic.Relation

/-!
# Loops that may not end

A loop body either leaves with a result or goes round again on a new state.
`run` is the loop itself and `none` is the loop that never leaves; `runFor`
allows a number of turns and is what a concrete run is evaluated with. The
rules below are those a loop is verified by: an invariant for what it returns,
the states it goes through, a measure for that it returns, and the number of
turns it takes.
-/

namespace WsPmd.Library.Loop

variable {σ ρ : Type}

/-- Repeat `body` until it leaves. A loop that never leaves is `none`. -/
def run (body : σ → ρ ⊕ σ) (s : σ) : Option ρ := _turns s
where
  _turns (s : σ) : Option ρ :=
    match body s with
    | .inl r => some r
    | .inr s' => _turns s'
  partial_fixpoint

/-- The same loop, given up after a number of turns. -/
def runFor (body : σ → ρ ⊕ σ) : ℕ → σ → Option ρ
  | 0, _ => none
  | n + 1, s =>
    match body s with
    | .inl r => some r
    | .inr s' => runFor body n s'

theorem run_stop {body : σ → ρ ⊕ σ} {s : σ} {r : ρ} (h : body s = .inl r) :
    run body s = some r := by
  rw [run, run._turns, h]

theorem run_again {body : σ → ρ ⊕ σ} {s s' : σ} (h : body s = .inr s') :
    run body s = run body s' := by
  rw [run, run, run._turns, h]

/-- A run that ends within its turns is the loop's own answer. -/
theorem run_of_runFor {body : σ → ρ ⊕ σ} {r : ρ} :
    ∀ {n : ℕ} {s : σ}, runFor body n s = some r → run body s = some r := by
  intro n
  induction n with
  | zero => intro s h; simp [runFor] at h
  | succ n ih =>
    intro s h
    cases hb : body s with
    | inl r' =>
      simp only [runFor, hb, Option.some.injEq] at h
      rw [run_stop hb, h]
    | inr s' =>
      simp only [runFor, hb] at h
      rw [run_again hb, ih h]

/-- **The invariant rule.** What every turn keeps, and every way out
establishes, holds of whatever the loop returns. -/
theorem run_invariant {body : σ → ρ ⊕ σ} (inv : σ → Prop) (post : ρ → Prop)
    (stop : ∀ s r, inv s → body s = .inl r → post r)
    (again : ∀ s s', inv s → body s = .inr s' → inv s')
    {s : σ} {r : ρ} (hs : inv s) (h : run body s = some r) : post r := by
  revert s r
  have key := run._turns.partial_correctness body (fun s r => inv s → post r)
  refine fun {s r} hs h => key ?_ s r h hs
  intro rec ih s r hr hs
  cases hb : body s with
  | inl r' =>
    simp only [hb, Option.some.injEq] at hr
    exact hr ▸ stop s r' hs hb
  | inr s' =>
    simp only [hb] at hr
    exact ih s' r hr (again s s' hs hb)

/-- The states a loop goes through. -/
def Reaches (body : σ → ρ ⊕ σ) : σ → σ → Prop := Relation.ReflTransGen fun s s' => body s = .inr s'

/-- **The trace rule.** A loop returns what it leaves with, in the last of the states
it goes through. -/
theorem run_eq_some_iff {body : σ → ρ ⊕ σ} {s : σ} {r : ρ} :
    run body s = some r ↔ ∃ last, Reaches body s last ∧ body last = .inl r := by
  constructor
  · intro h
    exact run_invariant (Reaches body s) (fun r => ∃ last, Reaches body s last ∧ body last = .inl r)
      (fun last r hlast hr => ⟨last, hlast, hr⟩) (fun _ _ => .tail) .refl h
  · intro ⟨last, hreaches, hlast⟩
    induction hreaches using Relation.ReflTransGen.head_induction_on with
    | refl => exact run_stop hlast
    | head hagain _ ih => rw [run_again hagain, ih]

/-- **The measure rule, counting turns.** A loop whose every further turn keeps
the invariant and lowers the measure leaves in at most one turn more than the
measure it starts at. -/
theorem runFor_total {body : σ → ρ ⊕ σ} (inv : σ → Prop) (post : ρ → Prop) (measure : σ → ℕ)
    (stop : ∀ s r, inv s → body s = .inl r → post r)
    (again : ∀ s s', inv s → body s = .inr s' → inv s' ∧ measure s' < measure s) :
    ∀ {n : ℕ} {s : σ}, inv s → measure s < n → ∃ r, runFor body n s = some r ∧ post r := by
  intro n
  induction n with
  | zero => intro s _ hn; omega
  | succ n ih =>
    intro s hs hn
    cases hb : body s with
    | inl r => exact ⟨r, by simp [runFor, hb], stop s r hs hb⟩
    | inr s' =>
      obtain ⟨hs', hm⟩ := again s s' hs hb
      obtain ⟨r, hr, hp⟩ := ih hs' (by omega)
      exact ⟨r, by simp [runFor, hb, hr], hp⟩

/-- **The measure rule.** -/
theorem run_total {body : σ → ρ ⊕ σ} (inv : σ → Prop) (post : ρ → Prop) (measure : σ → ℕ)
    (stop : ∀ s r, inv s → body s = .inl r → post r)
    (again : ∀ s s', inv s → body s = .inr s' → inv s' ∧ measure s' < measure s)
    {s : σ} (hs : inv s) : ∃ r, run body s = some r ∧ post r := by
  obtain ⟨r, hr, hp⟩ := runFor_total inv post measure stop again hs (Nat.lt_succ_self _)
  exact ⟨r, run_of_runFor hr, hp⟩

theorem Reaches.keeps {body : σ → ρ ⊕ σ} {inv : σ → Prop} {gain : σ → ℕ}
    (again : ∀ s s', inv s → body s = .inr s' → inv s' ∧ gain s < gain s')
    {s last : σ} (h : Reaches body s last) (hs : inv s) : inv last ∧ gain s ≤ gain last := by
  induction h with
  | refl => exact ⟨hs, Nat.le_refl _⟩
  | tail _ hturn ih =>
    obtain ⟨hinv, hle⟩ := ih
    obtain ⟨hinv', hlt⟩ := again _ _ hinv hturn
    exact ⟨hinv', Nat.le_of_lt (Nat.lt_of_le_of_lt hle hlt)⟩

/-- **The exactness rule.** A loop whose every further turn keeps the invariant and raises
the gain leaves exactly if the gain stays under some bound. -/
theorem run_returns_iff {body : σ → ρ ⊕ σ} (inv : σ → Prop) (gain : σ → ℕ)
    (again : ∀ s s', inv s → body s = .inr s' → inv s' ∧ gain s < gain s')
    {s : σ} (hs : inv s) :
    (∃ r, run body s = some r) ↔ ∃ bound, ∀ last, Reaches body s last → gain last ≤ bound := by
  constructor
  · intro ⟨r, hrun⟩
    obtain ⟨final, hfinal, hleaves⟩ := run_eq_some_iff.mp hrun
    refine ⟨gain final, fun last hlast => ?_⟩
    have hunique : Relator.RightUnique fun s s' => body s = .inr s' :=
      fun _ _ _ hone hother => Sum.inr.inj (hone.symm.trans hother)
    rcases Relation.ReflTransGen.total_of_right_unique hunique hlast hfinal with hon | hpast
    · exact (Reaches.keeps again hon (hlast.keeps again hs).1).2
    · -- Nothing is past the state the loop left in.
      cases hpast.cases_head with
      | inl hsame => exact Nat.le_of_eq (congrArg gain hsame).symm
      | inr hmore =>
        obtain ⟨next, hturn, -⟩ := hmore
        cases hleaves.symm.trans hturn
  · intro ⟨bound, hbound⟩
    have hagain : ∀ last next, Reaches body s last ∧ inv last → body last = .inr next →
        (Reaches body s next ∧ inv next) ∧ bound - gain next < bound - gain last := by
      intro last next ⟨hreaches, hinv⟩ hturn
      obtain ⟨hinv', hgain⟩ := again last next hinv hturn
      have hreaches' : Reaches body s next := hreaches.tail hturn
      have hle := hbound next hreaches'
      exact ⟨⟨hreaches', hinv'⟩, by omega⟩
    obtain ⟨r, hr, -⟩ := run_total _ (fun _ => True) _ (fun _ _ _ _ => trivial) hagain ⟨.refl, hs⟩
    exact ⟨r, hr⟩

end WsPmd.Library.Loop
