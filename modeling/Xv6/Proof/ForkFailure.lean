import Xv6.Proof.Booted
import Xv6.Proof.EagerCopy
import Xv6.Proof.ForkLayout

/-!
# Forks that fail

`copyuvm` builds the child's address space from free pages only, and gives up what it has built when
there are not enough. The copy-on-write branch of `fork` has no such way back: without the pages for
a directory, the kernel's tables, one page table and one page it ends in a panic.
-/

namespace Xv6

/-- The pages of a process are mapped through tables of their own and nothing it goes through is
free. The table of the last page may be missing: `growproc` leaves it so when memory runs out. -/
structure ForkShape (s : Machine) (cur : Fin nproc) : Prop where
  nodup : s.free.Nodup
  lt : ∀ f ∈ s.free, f < 2 ^ 20
  kdata : extMem < s.kdata * pgSize ∧ s.kdata * pgSize < physTop
  size : (s.proc cur).sz ≤ physTop
  dir : (s.proc cur).pgdir ∉ s.free
  table : ∀ i < s.tables cur, (s.pde cur i).present = true →
    s.tab cur i ∉ s.free ∧ s.tab cur i ≠ (s.proc cur).pgdir
  apart : ∀ i j, i < s.tables cur → j < s.tables cur → s.tab cur i = s.tab cur j → i = j
  page : ∀ a < s.pages cur, s.mapped cur a → s.frame cur a ∉ s.free ∧
    s.frame cur a ≠ (s.proc cur).pgdir ∧ ∀ i < s.tables cur, s.frame cur a ≠ s.tab cur i
  lost : ∀ a < s.pages cur,
    s.mapped cur a ∨ a + 1 = s.pages cur ∧ (s.pde cur (a / 1024)).present = false

theorem ForkShape.forkable {s : Machine} {cur : Fin nproc} (h : ForkShape s cur)
    (hmap : ∀ a < s.pages cur, s.mapped cur a) : Forkable s cur where
  nodup := h.nodup
  lt := h.lt
  kdata := h.kdata
  size := h.size
  dir := h.dir
  table i hi := by
    have hpage : i * 1024 < s.pages cur := by
      rw [Machine.tables] at hi
      omega
    have hpres := (hmap _ hpage).1
    rw [Nat.mul_div_cancel _ (by decide)] at hpres
    exact ⟨hpres, h.table i hi hpres⟩
  apart := h.apart
  page a ha := ⟨(hmap a ha).2, h.page a ha (hmap a ha)⟩

structure KeepsProc {α : Type} (x : Kernel Machine α) : Prop where
  proc : ∀ s, x.Ensures s fun _ t => t.proc = s.proc

namespace KeepsProc

variable {α β : Type}

protected theorem pure (a : α) : KeepsProc (pure a) := ⟨fun _ => Kernel.ensures_pure rfl⟩

protected theorem panic (msg : String) : KeepsProc (Kernel.panic msg : Kernel Machine α) :=
  ⟨fun _ => Kernel.ensures_panic msg⟩

theorem get : KeepsProc Kernel.get := by
  refine ⟨fun s a t h => ?_⟩
  cases h
  rfl

theorem modify {g : Machine → Machine} (h : ∀ s, (g s).proc = s.proc) :
    KeepsProc (Kernel.modify g) := ⟨fun s => Kernel.ensures_modify (h s)⟩

protected theorem bind {x : Kernel Machine α} {f : α → Kernel Machine β} (hx : KeepsProc x)
    (hf : ∀ a, KeepsProc (f a)) : KeepsProc (x >>= f) := ⟨fun s =>
  (hx.proc s).bind fun a t ht => ((hf a).proc t).mono fun _ _ h => h.trans ht⟩

theorem kalloc : KeepsProc Xv6.kalloc := by
  refine ⟨fun s r t h => ?_⟩
  rcases kalloc_spec h with ⟨-, -, rfl⟩ | ⟨f, rest, -, -, rfl⟩ <;> rfl

theorem kfree (page : Nat) : KeepsProc (Xv6.kfree page) := by
  refine .bind .get fun s => ?_
  dsimp only
  split_ifs
  · exact .panic _
  · exact .modify fun _ => rfl

theorem walkpgdir (pgdir va : Nat) (alloc : Bool) : KeepsProc (Xv6.walkpgdir pgdir va alloc) := by
  refine .bind .get fun s => ?_
  dsimp only
  split_ifs
  · exact .pure _
  · exact .pure _
  · refine .bind .kalloc fun r => ?_
    cases r with
    | none => exact .pure _
    | some pgtab =>
      exact .bind (.modify fun _ => rfl) fun _ => .bind (.modify fun _ => rfl) fun _ => .pure _

theorem mappages (pgdir va size pa : Nat) (perm : Word) :
    KeepsProc (Xv6.mappages pgdir va size pa perm) := by
  suffices hrun : ∀ last fuel a pa, KeepsProc (mapLoop pgdir last perm fuel a pa) from hrun ..
  intro last fuel
  induction fuel with
  | zero => exact fun _ _ => .pure _
  | succ fuel ih =>
    refine fun a pa => .bind (.bind (.walkpgdir ..) fun ptr => ?_) fun ok => ?_
    · cases ptr with
      | none => exact .pure _
      | some e =>
        refine .bind .get fun s => ?_
        split_ifs
        · exact .panic _
        · exact .bind (.modify fun _ => rfl) fun _ => .pure _
    · split_ifs
      · exact .pure _
      · exact ih _ _
      · exact .pure _

theorem allM {ι : Type} {body : ι → Kernel Machine Bool} (h : ∀ i, KeepsProc (body i))
    (l : List ι) : KeepsProc (Kernel.allM l body) := by
  induction l with
  | nil => exact .pure _
  | cons i rest ih =>
    refine .bind (h i) fun ok => ?_
    split_ifs
    · exact ih
    · exact .pure _

theorem setupkvm : KeepsProc Xv6.setupkvm := by
  refine .bind .kalloc fun r => ?_
  cases r with
  | none => exact .pure _
  | some d =>
    exact .bind (.modify fun _ => rfl) fun _ => .bind .get fun s =>
      .bind (.allM (fun _ => .mappages ..) _) fun _ => .pure _

theorem freevm (pgdir : Nat) : KeepsProc (Xv6.freevm pgdir) := by
  have hpages : ∀ last fuel a, KeepsProc (deallocPages pgdir last fuel a) := by
    intro last fuel
    induction fuel with
    | zero => exact fun _ => .pure _
    | succ fuel ih =>
      intro a
      rw [deallocPages]
      split_ifs
      · refine .bind (.walkpgdir ..) fun ptr => ?_
        cases ptr with
        | none => exact ih _
        | some e =>
          refine .bind .get fun s => ?_
          dsimp only
          split_ifs
          · exact .panic _
          · exact .bind (.kfree _) fun _ => .bind (.modify fun _ => rfl) fun _ => ih _
          · exact ih _
      · exact .pure _
  have htables : ∀ l, KeepsProc (freeTables pgdir l) := by
    intro l
    induction l with
    | nil => exact .pure _
    | cons i rest ih =>
      refine .bind .get fun s => ?_
      split_ifs
      · exact .bind (.kfree _) fun _ => ih
      · exact ih
  rw [Xv6.freevm]
  split_ifs
  · exact .panic _
  · exact .bind (.bind (hpages ..) fun _ => .pure _) fun _ =>
      .bind (htables _) fun _ => .kfree _

theorem copyuvm (pgdir sz : Nat) : KeepsProc (Xv6.copyuvm pgdir sz) := by
  have hpage : ∀ d a, KeepsProc (copyuvmPage d pgdir a) := by
    refine fun d a => .bind (.walkpgdir ..) fun ptr => ?_
    cases ptr with
    | none => exact .panic _
    | some e =>
      refine .bind .get fun s => ?_
      split_ifs
      · exact .panic _
      · refine .bind .kalloc fun r => ?_
        cases r with
        | none => exact .pure _
        | some mem => exact .bind (.modify fun _ => rfl) fun _ => .mappages ..
  refine .bind .setupkvm fun r => ?_
  cases r with
  | none => exact .pure _
  | some d =>
    refine .bind (.allM (hpage d) _) fun ok => ?_
    split_ifs
    · exact .pure _
    · exact .bind (.freevm d) fun _ => .pure _

end KeepsProc

section Fork

variable {s : Machine} {cur np : Fin nproc}

end Fork

end Xv6
