import Mathlib.Data.Fintype.Card
import Mathlib.Tactic.Common

/-!
# How many keys hold a value

A finite table of optional values and the number of its keys that hold a given one: what a reference
count has to agree with.
-/

namespace Xv6

variable {κ α : Type} [Fintype κ] [DecidableEq α]

def holders (m : κ → Option α) (a : α) : Nat := (Finset.univ.filter fun k => m k = some a).card

theorem holders_pos {m : κ → Option α} {a : α} : 0 < holders m a ↔ ∃ k, m k = some a := by
  rw [holders, Finset.card_pos]
  constructor
  · rintro ⟨k, hk⟩
    exact ⟨k, (Finset.mem_filter.mp hk).2⟩
  · rintro ⟨k, hk⟩
    exact ⟨k, Finset.mem_filter.mpr ⟨Finset.mem_univ k, hk⟩⟩

variable [DecidableEq κ]

/-- A key that held nothing comes to hold `a`. -/
theorem holders_set {m : κ → Option α} {k : κ} (hk : m k = none) (a b : α) :
    holders (Function.update m k (some a)) b = holders m b + if b = a then 1 else 0 := by
  unfold holders
  by_cases hab : b = a
  · subst hab
    rw [if_pos rfl]
    have hset : (Finset.univ.filter fun j => Function.update m k (some b) j = some b) =
        insert k (Finset.univ.filter fun j => m j = some b) := by
      ext j
      by_cases hj : j = k
      · subst hj
        simp
      · simp [hj]
    rw [hset, Finset.card_insert_of_notMem (by simp [hk])]
  · rw [if_neg hab, Nat.add_zero]
    congr 1
    ext j
    by_cases hj : j = k
    · subst hj
      simp [hk, Ne.symm hab]
    · simp [Function.update_of_ne hj]

/-- A key that held `a` is cleared. -/
theorem holders_clear {m : κ → Option α} {k : κ} {a : α} (hk : m k = some a) (b : α) :
    holders m b = holders (Function.update m k none) b + if b = a then 1 else 0 := by
  have hset := holders_set (m := Function.update m k none) (k := k) (Function.update_self ..) a b
  rwa [Function.update_idem, ← hk, Function.update_eq_self] at hset

end Xv6
