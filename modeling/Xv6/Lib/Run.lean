import Mathlib.Algebra.GroupWithZero.Nat

/-!
# Runs of a labelled transition system

A run is a sequence of labelled steps from a state. What every step preserves holds wherever a run
ends.
-/

namespace Xv6

variable {σ α : Type}

/-- The labels of a run, first one first, and the state it ends in. -/
inductive Run (step : σ → α → σ → Prop) : σ → List α → σ → Prop
  | nil (s : σ) : Run step s [] s
  | cons {s s1 s' : σ} {a : α} {as : List α} (hstep : step s a s1) (hrest : Run step s1 as s') :
      Run step s (a :: as) s'

theorem Run.invariant {step : σ → α → σ → Prop} (Inv : σ → Prop)
    (hpres : ∀ s a s', Inv s → step s a s' → Inv s') {s s' : σ} {as : List α} (hinit : Inv s)
    (hrun : Run step s as s') : Inv s' := by
  induction hrun with
  | nil => exact hinit
  | cons hstep _ ih => exact ih (hpres _ _ _ hinit hstep)

/-- An invariant that may use up a resource, `cost a` of it in a step labelled `a`. -/
theorem Run.invariant_cost {step : σ → α → σ → Prop} (Inv : Nat → σ → Prop) (cost : α → Nat)
    (bound : Nat)
    (hpres : ∀ k s a s', k + cost a ≤ bound → Inv k s → step s a s' → Inv (k + cost a) s')
    {s s' : σ} {as : List α} (hrun : Run step s as s') :
    ∀ k, k + (as.map cost).sum ≤ bound → Inv k s → Inv (k + (as.map cost).sum) s' := by
  induction hrun with
  | nil =>
    intro k _ hinv
    exact hinv
  | cons hstep _ ih =>
    intro k hbound hinv
    rw [List.map_cons, List.sum_cons, ← Nat.add_assoc] at hbound ⊢
    exact ih _ hbound (hpres k _ _ _ (by omega) hinv hstep)

/-- Execute a list of labels with a step function. -/
def execAll (exec : σ → α → Option σ) : σ → List α → Option σ
  | s, [] => some s
  | s, a :: as => (exec s a).bind fun s1 => execAll exec s1 as

/-- What an execution reaches, a run reaches. -/
theorem Run.of_execAll {exec : σ → α → Option σ} {step : σ → α → σ → Prop}
    (hstep : ∀ s a s', exec s a = some s' → step s a s') {s s' : σ} {as : List α}
    (h : execAll exec s as = some s') : Run step s as s' := by
  induction as generalizing s with
  | nil =>
    cases h
    exact .nil _
  | cons a as ih =>
    obtain ⟨s1, hexec, hrest⟩ := Option.bind_eq_some_iff.mp h
    exact .cons (hstep s a s1 hexec) (ih hrest)

/-- A run found by execution, with what is observed of its last state. -/
theorem exists_run_of_execAll {exec : σ → α → Option σ} {step : σ → α → σ → Prop}
    (hstep : ∀ s a s', exec s a = some s' → step s a s') {β : Type} (observe : σ → β) {s : σ}
    {as : List α} {b : β} (h : (execAll exec s as).map observe = some b) :
    ∃ s', Run step s as s' ∧ observe s' = b := by
  obtain ⟨s', hs', hb⟩ := Option.map_eq_some_iff.mp h
  exact ⟨s', .of_execAll hstep hs', hb⟩

end Xv6
