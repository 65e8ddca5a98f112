import Mathlib.Data.List.Basic
import Mathlib.Data.List.Nodup
import Mathlib.Logic.Function.Basic

/-!
# Circular lists of cells

Cells are linked by a function. `Leads next l z` says that the links lead through `l` and from its
last cell to `z`; with the head of `l` as `z` the list is circular.
-/

namespace Xv6

variable {α : Type} {next : α → α} {l l' : List α} {a b z : α}

def Leads (next : α → α) : List α → α → Prop
  | [], _ => True
  | a :: l, z => next a = l.headD z ∧ Leads next l z

theorem leads_append : Leads next (l ++ l') z ↔ Leads next l (l'.headD z) ∧ Leads next l' z := by
  induction l with
  | nil => simp [Leads]
  | cons a l ih =>
    rw [List.cons_append, Leads, Leads, ih, and_assoc]
    cases l <;> rfl

theorem Leads.congr {next' : α → α} (h : Leads next l z) (heq : ∀ a ∈ l, next' a = next a) :
    Leads next' l z := by
  induction l with
  | nil => trivial
  | cons a l ih =>
    exact ⟨(heq a List.mem_cons_self).trans h.1,
      ih h.2 fun b hb => heq b (List.mem_cons_of_mem a hb)⟩

theorem Leads.update_of_notMem [DecidableEq α] (h : Leads next l z) (ha : a ∉ l) :
    Leads (Function.update next a b) l z :=
  h.congr fun c hc => Function.update_of_ne (fun heq : c = a => ha (heq ▸ hc)) _ _

/-- A circular list may start at any of its cells. -/
theorem Leads.rotate {us vs : List α} (h : Leads next (us ++ a :: vs) ((us ++ a :: vs).headD z)) :
    Leads next (a :: (vs ++ us)) a := by
  obtain ⟨hus, hvs⟩ := leads_append.mp h
  have hhead : (us ++ a :: vs).headD z = us.headD a := by cases us <;> rfl
  rw [hhead] at hvs
  rw [← List.cons_append]
  exact leads_append.mpr ⟨hvs, hus⟩

/-- A link inside the list joins two neighbours. -/
theorem Leads.split (h : Leads next l z) (ha : a ∈ l) (hne : next a ≠ z) :
    ∃ us vs, l = us ++ a :: next a :: vs := by
  obtain ⟨us, vs, rfl⟩ := List.append_of_mem ha
  obtain ⟨-, hnext, -⟩ := leads_append.mp h
  cases vs with
  | nil => exact absurd hnext hne
  | cons b vs =>
    refine ⟨us, vs, ?_⟩
    rw [hnext]
    rfl

end Xv6
