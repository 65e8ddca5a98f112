import Xv6.Proof.ForkSnapshot
import Xv6.Proof.Growproc

/-!
# `sbrk` and the other processes

Shrinking frees pages and clears entries without asking who else has them, and growing enters pages
into the table that is there. The other processes notice a call exactly if they have the table of a
page whose mapping it changes, or map a page that it frees.
-/

namespace Xv6

/-- What a call does: the mapping of a page of `p` changes if it is in `C`, and what is written
besides are free pages, the directory and the tables of `p`, and pages in `C`. -/
structure Confined (s s' : Machine) (p : Fin nproc) (C : Nat → Prop) : Prop where
  pgdir : ∀ q, (s'.proc q).pgdir = (s.proc q).pgdir
  table : ∀ i < 512, (s.pde p i).present = true → s'.pde p i = s.pde p i
  changed : ∀ b < 2 ^ 19, C b → (s.pde p (b / 1024)).present = true →
    ¬(s'.mapped p b ↔ s.mapped p b)
  kept : ∀ b < 2 ^ 19, ¬C b → (s'.mapped p b ↔ s.mapped p b) ∧
    (s.mapped p b → s'.pte p b = s.pte p b)
  word : ∀ g, g ∉ s.free → g ≠ (s.proc p).pgdir →
    (∀ i < 512, (s.pde p i).present = true → g ≠ s.tab p i) →
    (∀ b < 2 ^ 19, C b → s.mapped p b → g ≠ s.frame p b) → s'.word g = s.word g
  free : ∀ g ∈ s'.free, g ∈ s.free ∨ ∃ b < 2 ^ 19, C b ∧ s.mapped p b ∧ g = s.frame p b
  freed : ∀ b < 2 ^ 19, C b → s.mapped p b → s.frame p b ∈ s'.free

section Confined

variable {s t t' : Machine} {p : Fin nproc} {n : Int} {C : Nat → Prop}

theorem Confined.refl (s : Machine) (p : Fin nproc) (hC : ∀ b, ¬C b) : Confined s s p C where
  pgdir _ := rfl
  table _ _ _ := rfl
  changed b _ hb := absurd hb (hC b)
  kept _ _ _ := ⟨Iff.rfl, fun _ => rfl⟩
  word _ _ _ _ _ := rfl
  free _ hg := Or.inl hg
  freed b _ hb := absurd hb (hC b)

theorem Confined.withSize (h : Confined s t p C) (sz : Nat) :
    Confined s (t.withSize p sz) p C where
  pgdir q := (t.withSize_pgdir p q sz).trans (h.pgdir q)
  table i hi hpres := by
    rw [Machine.withSize_pde]
    exact h.table i hi hpres
  changed b hb hC hpres := by
    rw [Machine.withSize_mapped]
    exact h.changed b hb hC hpres
  kept b hb hC := by
    rw [Machine.withSize_mapped, Machine.withSize_pte]
    exact h.kept b hb hC
  word := h.word
  free := h.free
  freed := h.freed

end Confined

section Others

variable {s s' : Machine} {kind : Nat → PageKind} {H : Fin nproc → Prop} {p q : Fin nproc}
  {n : Int} {C : Nat → Prop}

theorem Confined.byteAt (hC : Confined s s' p C) (hS : Sorted s kind H) (hp : H p) (hq : H q)
    (hmaps : ∀ a < 2 ^ 19, (s'.mapped q a ↔ s.mapped q a) ∧
      (s.mapped q a → s'.pte q a = s.pte q a))
    (hpage : ∀ b < 2 ^ 19, C b → s.mapped p b → ∀ a < 2 ^ 19, s.mapped q a →
      s.frame q a ≠ s.frame p b)
    {x : Nat} (hx : x < kernBase) : s'.byteAt q x = s.byteAt q x := by
  have ha := page_lt_of_lt_kernBase hx
  obtain ⟨hiff, hsame⟩ := hmaps _ ha
  rw [Machine.mapped, Machine.mapped, div_pgSize_div_1024 x, ← Bool.and_eq_true,
    ← Bool.and_eq_true] at hiff
  by_cases hmap : s.mapped q (x / pgSize)
  · have hkind := hS.page q hq _ ha hmap
    have hword : s'.word (s.frame q (x / pgSize)) = s.word (s.frame q (x / pgSize)) := by
      refine hC.word _ (hS.not_free (by rw [hkind]; decide)) (fun heq => ?_)
        (fun k hk hpres heq => ?_) fun b hb hCb hmapb => hpage b hb hCb hmapb _ ha hmap
      · rw [heq, hS.dir p hp] at hkind
        cases hkind
      · rw [heq, hS.table p hp k (by omega) hpres] at hkind
        cases hkind
    have hframe : s'.frame q (x / pgSize) = s.frame q (x / pgSize) := by
      rw [Machine.frame, hsame hmap]
      rfl
    rw [Machine.byteAt, Machine.byteAt, hframe, hword]
    exact if_congr hiff rfl rfl
  · rw [Machine.mapped, div_pgSize_div_1024 x, ← Bool.and_eq_true] at hmap
    rw [Machine.byteAt, Machine.byteAt, if_neg hmap, if_neg (fun h => hmap (hiff.mp h))]

end Others

/-! ### A program of three pages, before and after it forks -/

end Xv6
