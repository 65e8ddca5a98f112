import Mathlib.Data.List.Nodup
import Mathlib.Logic.Function.Basic

/-!
# Intrusive singly linked lists

The cells are values of a type `α`, each with a link to the next one. A chain is the list of cells
a head leads to.
-/

namespace Xv6

variable {α : Type} {next : α → Option α} {head : Option α} {l : List α} {a b : α}

def Chain (next : α → Option α) : Option α → List α → Prop
  | head, [] => head = none
  | head, a :: l => head = some a ∧ Chain next (next a) l

theorem Chain.head_eq (h : Chain next head l) : head = l.head? := by
  cases l with
  | nil => exact h
  | cons a l => exact h.1

/-- A chain depends on the links of its own cells. -/
theorem Chain.congr {next' : α → Option α} (h : Chain next head l)
    (hlink : ∀ a ∈ l, next' a = next a) : Chain next' head l := by
  induction l generalizing head with
  | nil => exact h
  | cons a l ih =>
    refine ⟨h.1, ?_⟩
    rw [hlink a List.mem_cons_self]
    exact ih h.2 fun b hb => hlink b (List.mem_cons_of_mem a hb)

/-- The last cell of a chain that starts at a given one, if the walk ends within the fuel. -/
def chainEnd (next : α → Option α) : Nat → α → Option α
  | 0, _ => none
  | fuel + 1, a =>
    match next a with
    | none => some a
    | some b => chainEnd next fuel b

theorem Chain.chainEnd_eq {fuel : Nat} (h : Chain next (next a) l) (hfuel : l.length < fuel) :
    chainEnd next fuel a = some ((a :: l).getLast (List.cons_ne_nil a l)) := by
  induction l generalizing a fuel with
  | nil =>
    obtain ⟨fuel, rfl⟩ := Nat.exists_eq_add_one_of_ne_zero (Nat.ne_zero_of_lt hfuel)
    have hnone : next a = none := h
    simp [chainEnd, hnone]
  | cons b l ih =>
    obtain ⟨fuel, rfl⟩ := Nat.exists_eq_add_one_of_ne_zero (Nat.ne_zero_of_lt hfuel)
    rw [chainEnd, h.1]
    exact ih h.2 (Nat.lt_of_succ_lt_succ hfuel)

variable [DecidableEq α]

/-- A link outside the chain is none of its business. -/
theorem Chain.update_of_notMem (h : Chain next head l) (ha : a ∉ l) (link : Option α) :
    Chain (Function.update next a link) head l := by
  apply h.congr
  intro b hb
  have hne : b ≠ a := fun heq => ha (heq ▸ hb)
  exact Function.update_of_ne hne ..

/-- Linking a cell behind the last one. -/
theorem Chain.snoc (h : Chain next head (a :: l)) (hnodup : (a :: l).Nodup) (hb : b ∉ a :: l)
    (hnone : next b = none) :
    Chain (Function.update next ((a :: l).getLast (List.cons_ne_nil a l)) (some b)) head
      (a :: l ++ [b]) := by
  induction l generalizing head a with
  | nil =>
    refine ⟨h.1, Function.update_self .., ?_⟩
    rw [List.getLast_singleton, Function.update_of_ne (fun heq => hb (by simp [heq]))]
    exact hnone
  | cons c l ih =>
    refine ⟨h.1, ?_⟩
    have hlast : (a :: c :: l).getLast (List.cons_ne_nil a _) =
        (c :: l).getLast (List.cons_ne_nil c l) := List.getLast_cons_cons ..
    have hne : a ≠ (c :: l).getLast (List.cons_ne_nil c l) := by
      intro heq
      exact (List.nodup_cons.mp hnodup).1 (heq ▸ List.getLast_mem _)
    rw [hlast, Function.update_of_ne hne]
    exact ih h.2 (List.nodup_cons.mp hnodup).2 fun hmem => hb (List.mem_cons_of_mem a hmem)

end Xv6
