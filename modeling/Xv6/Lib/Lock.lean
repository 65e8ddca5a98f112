import Mathlib.Logic.Function.Basic

/-!
# Spinlocks and program counters

A lock records its holder, and the program counter of a process says whether it is inside the
critical section. The two agree as long as every step acquires a free lock, releases a held one or
stays on its side.
-/

namespace Xv6

variable {ι κ : Type}

/-- The holder of the lock is the process whose program counter is in the critical section. -/
def Guards (lock : Option ι) (pc : ι → κ) (holds : κ → Bool) : Prop :=
  ∀ p, lock = some p ↔ holds (pc p) = true

namespace Guards

variable {lock : Option ι} {pc : ι → κ} {holds : κ → Bool} {p q : ι} {k : κ}

/-- Two processes in the critical section are one. -/
theorem exclusive (h : Guards lock pc holds) (hp : holds (pc p) = true) (hq : holds (pc q) = true) :
    p = q :=
  Option.some.inj (((h p).mpr hp).symm.trans ((h q).mpr hq))

variable [DecidableEq ι]

theorem stay (h : Guards lock pc holds) (hk : holds k = holds (pc p)) :
    Guards lock (Function.update pc p k) holds := by
  intro q
  by_cases hq : q = p
  · subst hq
    rw [Function.update_self, hk]
    exact h q
  · rw [Function.update_of_ne hq]
    exact h q

theorem acquire (h : Guards none pc holds) (hk : holds k = true) :
    Guards (some p) (Function.update pc p k) holds := by
  intro q
  by_cases hq : q = p
  · subst hq
    rw [Function.update_self, hk]
    exact ⟨fun _ => rfl, fun _ => rfl⟩
  · rw [Function.update_of_ne hq, ← h q]
    exact ⟨fun heq => absurd (Option.some.inj heq).symm hq, fun heq => (nomatch heq)⟩

theorem release (h : Guards lock pc holds) (hp : holds (pc p) = true) (hk : holds k = false) :
    Guards none (Function.update pc p k) holds := by
  intro q
  by_cases hq : q = p
  · subst hq
    rw [Function.update_self, hk]
    exact ⟨fun heq => (nomatch heq), fun heq => (nomatch heq)⟩
  · rw [Function.update_of_ne hq]
    exact ⟨fun heq => (nomatch heq), fun hq' => absurd (h.exclusive hq' hp) hq⟩

end Guards

end Xv6
