import Xv6.Proof.Layout

/-!
# Runs of the small operations

The allocator, the page-table walks and `exit`: one lemma for each says what a run of it does to the
machine.
-/

namespace Xv6

namespace Machine

@[simp]
theorem setPage_word_self (s : Machine) (f : Nat) (content : Nat → Word) :
    (s.setPage f content).word f = content := by
  simp [setPage]

theorem setPage_word_of_ne (s : Machine) {f g : Nat} (content : Nat → Word) (h : g ≠ f) :
    (s.setPage f content).word g = s.word g := by
  simp [setPage, Function.update_of_ne h]

@[simp]
theorem setWord_word_self (s : Machine) (f i : Nat) (w : Word) :
    (s.setWord f i w).word f i = w := by
  simp [setWord]

theorem setWord_word_of_ne (s : Machine) {f g : Nat} (i : Nat) (w : Word) (h : g ≠ f) :
    (s.setWord f i w).word g = s.word g :=
  s.setPage_word_of_ne _ h

theorem setWord_word_index (s : Machine) (f i : Nat) (w : Word) {j : Nat} (h : j ≠ i) (g : Nat) :
    (s.setWord f i w).word g j = s.word g j := by
  by_cases hg : g = f
  · subst hg
    simp [setWord, Function.update_of_ne h]
  · rw [s.setWord_word_of_ne i w hg]

theorem setPage_setPage (s : Machine) (f : Nat) (content content' : Nat → Word) :
    (s.setPage f content).setPage f content' = s.setPage f content' := by
  simp [setPage]

theorem setWord_eq_self (s : Machine) {f i : Nat} {w : Word} (h : s.word f i = w) :
    s.setWord f i w = s := by
  simp [setWord, setPage, ← h]

section Fields

variable (s : Machine) (f i : Nat) (w : Word) (content : Nat → Word) (p : Fin nproc) (q : Proc)

@[simp]
theorem setPage_proc : (s.setPage f content).proc = s.proc := rfl

@[simp]
theorem setPage_free : (s.setPage f content).free = s.free := rfl

@[simp]
theorem setPage_kend : (s.setPage f content).kend = s.kend := rfl

@[simp]
theorem setPage_kdata : (s.setPage f content).kdata = s.kdata := rfl

@[simp]
theorem setWord_kdata : (s.setWord f i w).kdata = s.kdata := rfl

@[simp]
theorem setWord_proc : (s.setWord f i w).proc = s.proc := rfl

@[simp]
theorem setWord_free : (s.setWord f i w).free = s.free := rfl

@[simp]
theorem setWord_kend : (s.setWord f i w).kend = s.kend := rfl

@[simp]
theorem setProc_free : (s.setProc p q).free = s.free := rfl

@[simp]
theorem setProc_proc_self : (s.setProc p q).proc p = q := by simp [setProc]

end Fields

theorem setProc_proc_of_ne (s : Machine) {p p' : Fin nproc} (q : Proc) (h : p' ≠ p) :
    (s.setProc p q).proc p' = s.proc p' := by
  simp [setProc, Function.update_of_ne h]

end Machine

theorem kalloc_spec {s s' : Machine} {r : Option Nat} (h : kalloc.run s = .ok (r, s')) :
    (s.free = [] ∧ r = none ∧ s' = s) ∨
      ∃ f rest, s.free = f :: rest ∧ r = some f ∧ s' = { s with free := rest } := by
  simp only [kalloc, Kernel.run_get_bind] at h
  cases hfree : s.free with
  | nil =>
    simp only [hfree, Kernel.run_pure, Except.ok.injEq, Prod.mk.injEq] at h
    exact Or.inl ⟨rfl, h.1.symm, h.2.symm⟩
  | cons f rest =>
    simp only [hfree, Kernel.run_modify_bind, Kernel.run_pure, Except.ok.injEq,
      Prod.mk.injEq] at h
    exact Or.inr ⟨f, rest, rfl, h.1.symm, h.2.symm⟩

theorem run_kalloc_cons {s : Machine} {f : Nat} {rest : List Nat} (h : s.free = f :: rest) :
    kalloc.run s = .ok (some f, { s with free := rest }) := by
  simp [kalloc, h]

theorem run_kalloc_nil {s : Machine} (h : s.free = []) : kalloc.run s = .ok (none, s) := by
  simp [kalloc, h]

theorem kallocOr_spec {msg : String} {s s' : Machine} {f : Nat}
    (h : (kallocOr msg).run s = .ok (f, s')) :
    ∃ rest, s.free = f :: rest ∧ s' = { s with free := rest } := by
  rw [kallocOr, Kernel.run_bind_eq_ok] at h
  obtain ⟨r, s1, halloc, h⟩ := h
  rcases kalloc_spec halloc with ⟨-, rfl, rfl⟩ | ⟨g, rest, hfree, rfl, rfl⟩
  · simp at h
  · simp only [Kernel.run_pure, Except.ok.injEq, Prod.mk.injEq] at h
    obtain ⟨rfl, rfl⟩ := h
    exact ⟨rest, hfree, rfl⟩

theorem run_kallocOr {msg : String} {s : Machine} {f : Nat} {rest : List Nat}
    (h : s.free = f :: rest) : (kallocOr msg).run s = .ok (f, { s with free := rest }) := by
  rw [kallocOr, Kernel.run_bind_of_ok (run_kalloc_cons h)]
  rfl

def walkPtr (s : Machine) (pgdir va : Nat) : PtePtr :=
  if (s.word pgdir (pdx va)).present then some (pteAddr (s.word pgdir (pdx va)), ptx va) else none

theorem run_walkpgdir (s : Machine) (pgdir va : Nat) :
    (walkpgdir pgdir va false).run s = .ok (walkPtr s pgdir va, s) := by
  simp only [walkpgdir, Kernel.run_get_bind, walkPtr]
  cases hpres : (s.word pgdir (pdx va)).present with
  | true => simp
  | false => simp

section MapPage

variable {s : Machine} {d va pa t : Nat} {perm : Word}

theorem run_mapPage_present (hpres : (s.word d (pdx va)).present = true)
    (haddr : pteAddr (s.word d (pdx va)) = t) (hentry : (s.word t (ptx va)).present = false) :
    (mapPage d va pa perm).run s =
      .ok (true, s.setWord t (ptx va) (BitVec.ofNat 32 pa ||| perm ||| pteP)) := by
  have hwalk : (walkpgdir d va true).run s = .ok (some (t, ptx va), s) := by
    simp [walkpgdir, hpres, haddr]
  rw [mapPage, Kernel.run_bind_of_ok hwalk]
  simp [hentry]

theorem run_mapPage_noFree (habsent : (s.word d (pdx va)).present = false) (hfree : s.free = []) :
    (mapPage d va pa perm).run s = .ok (false, s) := by
  have hwalk : (walkpgdir d va true).run s = .ok (none, s) := by
    simp [walkpgdir, habsent, Kernel.run_bind, run_kalloc_nil hfree]
  rw [mapPage, Kernel.run_bind_of_ok hwalk]
  rfl

theorem run_mapPage_newTable {rest : List Nat} (habsent : (s.word d (pdx va)).present = false)
    (hfree : s.free = t :: rest) (htd : t ≠ d) :
    (mapPage d va pa perm).run s =
      .ok (true, (({ s with free := rest }.setPage t fun _ => 0).setWord d (pdx va)
        (mkEntry t (pteP ||| pteW ||| pteU))).setWord t (ptx va)
          (BitVec.ofNat 32 pa ||| perm ||| pteP)) := by
  have hwalk : (walkpgdir d va true).run s = .ok (some (t, ptx va),
      ({ s with free := rest }.setPage t fun _ => 0).setWord d (pdx va)
        (mkEntry t (pteP ||| pteW ||| pteU))) := by
    simp [walkpgdir, habsent, Kernel.run_bind, run_kalloc_cons hfree, clearPage]
  rw [mapPage, Kernel.run_bind_of_ok hwalk]
  simp [Machine.setWord_word_of_ne _ _ _ htd]

end MapPage

/-- `n` rounds of the loop of `mappages`. -/
def mapRun (pgdir va pa : Nat) (perm : Word) : Nat → Kernel Machine Bool
  | 0 => pure true
  | n + 1 => do
    if ← mapPage pgdir va pa perm then
      mapRun pgdir ((va + pgSize) % 2 ^ 32) ((pa + pgSize) % 2 ^ 32) perm n
    else pure false

theorem mapLoop_eq_mapRun {pgdir y : Nat} (perm : Word) (hy : y < 2 ^ 20) {fuel x : Nat} (pa : Nat)
    (hx : x < 2 ^ 20) (hfuel : (y + 2 ^ 20 - x) % 2 ^ 20 < fuel) :
    mapLoop pgdir (y * pgSize) perm fuel (x * pgSize) pa =
      mapRun pgdir (x * pgSize) pa perm ((y + 2 ^ 20 - x) % 2 ^ 20 + 1) := by
  induction fuel generalizing x pa with
  | zero => omega
  | succ fuel ih =>
    rw [mapLoop, mapRun]
    congr 1
    funext ok
    by_cases heq : x = y
    · have hzero : (y + 2 ^ 20 - x) % 2 ^ 20 = 0 := by omega
      have hend : x * pgSize = y * pgSize := by rw [heq]
      rw [if_pos hend, hzero, mapRun]
    · have hne : x * pgSize ≠ y * pgSize := by
        simp only [pgSize]
        omega
      have hnext : (x * pgSize + pgSize) % 2 ^ 32 = (x + 1) % 2 ^ 20 * pgSize := by
        simp only [pgSize]
        omega
      have hrest : (y + 2 ^ 20 - (x + 1) % 2 ^ 20) % 2 ^ 20 + 1 = (y + 2 ^ 20 - x) % 2 ^ 20 := by
        omega
      rw [if_neg hne, hnext, ih _ (by omega) (by omega), hrest]

/-- The loop comes to its last page after as many rounds as there are pages in the range. -/
theorem mappages_eq_mapRun {x n size : Nat} (pgdir pa : Nat) (perm : Word) (hx : x < 2 ^ 20)
    (hcount : ((x * pgSize + size + 2 ^ 32 - 1) % 2 ^ 32 / pgSize + 2 ^ 20 - x) % 2 ^ 20 + 1 = n) :
    mappages pgdir (x * pgSize) size pa perm = mapRun pgdir (x * pgSize) pa perm n := by
  have hstart : pgRoundDown (x * pgSize) = x * pgSize := by
    simp only [pgRoundDown, pgSize]
    omega
  have hlast : (x * pgSize + size + 2 ^ 32 - 1) % 2 ^ 32 / pgSize < 2 ^ 20 := by
    simp only [pgSize]
    omega
  rw [mappages, hstart, ← hcount]
  exact mapLoop_eq_mapRun perm hlast pa hx (Nat.mod_lt _ (by decide))

theorem run_kfree {s : Machine} {f : Nat} (hlow : s.kend ≤ f) (hhigh : f * pgSize < physTop) :
    (kfree f).run s = .ok ((), { s.setPage f (freedPage s.free) with free := f :: s.free }) := by
  simp only [kfree, Kernel.run_get_bind]
  rw [if_neg (by omega)]
  rfl

def Machine.exited (s : Machine) (cur : Fin nproc) : Machine :=
  { s with proc := fun p => (s.proc p).adopt cur s.initproc }.setProc cur
    { (s.proc cur).adopt cur s.initproc with state := .zombie }

theorem run_exit {s : Machine} {cur : Fin nproc} (h : cur ≠ s.initproc) :
    (exit cur).run s = .ok ((), s.exited cur) := by
  simp only [exit, Kernel.run_get_bind, if_neg h, Kernel.run_modify_bind, modifyProc,
    Kernel.run_modify, Machine.exited]

theorem run_exit_init {s : Machine} {cur : Fin nproc} (h : cur = s.initproc) :
    (exit cur).run s = .error "init exiting" := by
  simp [exit, h]

@[simp]
theorem Machine.exited_killed (s : Machine) (cur : Fin nproc) :
    ((s.exited cur).proc cur).killed = (s.proc cur).killed := by
  rw [Machine.exited, Machine.setProc_proc_self, Proc.adopt]
  split <;> rfl

end Xv6
