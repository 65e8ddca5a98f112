import Xv6.Proof.ForkFailure

/-!
# What `wait` does to the process table

`wait` gives up the kernel stack and the memory of a zombie child, after it has taken out of the
child's tables what other processes still use, and clears the slot. Whatever it meets on the way,
the process table changes nowhere else.
-/

namespace Xv6

namespace KeepsProc

theorem storeUser (cur : Fin nproc) (va : Nat) (w : Word) :
    KeepsProc (Xv6.storeUser cur va w) := by
  refine .bind .get fun s => ?_
  dsimp only
  split_ifs
  · exact .modify fun _ => rfl
  · exact .panic _

theorem unlinkPage (cur p zombie : Fin nproc) (a : Nat) :
    KeepsProc (Xv6.unlinkPage cur p zombie a) := by
  refine .bind .get fun s => ?_
  dsimp only
  split
  · exact .panic _
  · split_ifs
    · exact .storeUser ..
    · exact .modify fun _ => rfl
    · split
      · exact .storeUser ..
      · exact .modify fun _ => rfl
    · exact .pure _

theorem forEach {ι : Type} {body : ι → Kernel Machine Unit} (h : ∀ i, KeepsProc (body i))
    (l : List ι) : KeepsProc (Kernel.forEach l body) := by
  induction l with
  | nil => exact .pure _
  | cons i rest ih => exact .bind (h i) fun _ => ih

theorem unlinkzombiesharedmemory (cur zombie : Fin nproc) :
    KeepsProc (Xv6.unlinkzombiesharedmemory cur zombie) := by
  rw [Xv6.unlinkzombiesharedmemory]
  generalize List.finRange nproc = l
  induction l with
  | nil => exact .pure _
  | cons p rest ih =>
    refine .bind .get fun s => ?_
    split_ifs
    · exact .pure _
    · exact ih
    · exact .bind (.forEach (fun _ => .unlinkPage ..) _) fun _ => ih

end KeepsProc

section Wait

variable {s s' : Machine} {cur zombie : Fin nproc} {r : WaitResult}

def Proc.cleared (q : Proc) : Proc :=
  { q with kstack := 0, state := .unused, pid := 0, parent := none, name := "", killed := false }

theorem reap_proc (h : (reap cur zombie).run s = .ok (r, s')) :
    r = .reaped (s.proc zombie).pid ∧
      s'.proc = Function.update s.proc zombie (s.proc zombie).cleared := by
  rw [reap, Kernel.run_get_bind] at h
  obtain ⟨_, s1, hkfree, h⟩ := Kernel.run_bind_eq_ok.mp h
  obtain ⟨_, s2, hstack, h⟩ := Kernel.run_bind_eq_ok.mp h
  obtain ⟨_, s3, hunlink, h⟩ := Kernel.run_bind_eq_ok.mp h
  obtain ⟨_, s4, hfree, h⟩ := Kernel.run_bind_eq_ok.mp h
  have hproc1 : s1.proc = s.proc := (KeepsProc.kfree _).proc _ _ _ hkfree
  have hproc2 : s2.proc = Function.update s1.proc zombie { s1.proc zombie with kstack := 0 } := by
    cases hstack
    rfl
  have hproc4 : s4.proc = s2.proc := ((KeepsProc.freevm _).proc _ _ _ hfree).trans
    ((KeepsProc.unlinkzombiesharedmemory ..).proc _ _ _ hunlink)
  cases h
  refine ⟨rfl, ?_⟩
  change Function.update s4.proc zombie _ = _
  rw [hproc4, hproc2, hproc1, Function.update_idem, Function.update_self]
  rfl

/-- **What `wait` gives back.** When `wait` returns, either it has cleared the slot of a zombie
child, whose pid it returns, and left all other slots alone; or there is no such child and it has
changed nothing. -/
theorem wait_clears (h : (wait cur).run s = .ok (r, s')) :
    (∃ z, (s.proc z).parent = some cur ∧ (s.proc z).state = .zombie ∧
      r = .reaped (s.proc z).pid ∧ s'.proc = Function.update s.proc z (s.proc z).cleared) ∨
    (∀ z, (s.proc z).parent = some cur → (s.proc z).state ≠ .zombie) ∧ s' = s := by
  rw [wait, Kernel.run_get_bind] at h
  cases hchild : s.zombieChild cur with
  | some z =>
    rw [hchild] at h
    have hz := List.find?_some hchild
    rw [decide_eq_true_eq] at hz
    exact .inl ⟨z, hz.1, hz.2, reap_proc h⟩
  | none =>
    rw [hchild] at h
    refine .inr ⟨fun z hparent hzombie => ?_, ?_⟩
    · have hnot := List.find?_eq_none.mp hchild z (List.mem_finRange z)
      exact hnot (decide_eq_true ⟨hparent, hzombie⟩)
    · dsimp only at h
      split_ifs at h <;> cases h <;> rfl

end Wait

end Xv6
