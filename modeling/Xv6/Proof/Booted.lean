import Xv6.Proof.LayoutOps

/-!
# A machine after boot

Three processes with memory of their own: init, the shell and a program it has started, each of `n`
pages, and `m` free pages.
-/

namespace Xv6

/-- The word `i` of page `f`: directories, then kernel stacks, then tables, user pages and kernel
tables, 1024 of the last two for each process. -/
def bootedWord (n f i : Nat) : Word :=
  if f < 1024 then 0
  else if f < 1088 then
    if i = 0 then mkEntry (f + 128) (pteW ||| pteU ||| pteP)
    else if i ∈ kernelIndices then
      mkEntry (8192 + (f - 1024) * 1024 + i) (pteW ||| pteU ||| pteP)
    else 0
  else if f < 1152 then 0
  else if f < 1216 then
    if i < n then mkEntry (2048 + (f - 1152) * 1024 + i) (pteW ||| pteU ||| pteP) else 0
  else if f < 8192 then 0
  else if f % 1024 < 568 then mkEntry ((f % 1024 - 512) * 1024 + i) (pteW ||| pteP)
  else mkEntry (f % 1024 * 1024 + i) (pteW ||| pteP)

def bootedProc (n : Nat) (p : Fin nproc) : Proc :=
  if p.val < 3 then
    { sz := n * pgSize, pgdir := 1024 + p, kstack := 1088 + p
      state := if p.val = 2 then .running else .sleeping
      pid := BitVec.ofNat 32 (p + 1)
      parent := if p.val = 0 then none else some (Fin.ofNat nproc (p - 1))
      killed := false
      name := if p.val = 0 then "init" else if p.val = 1 then "sh" else "usertests" }
  else
    { sz := 0, pgdir := 0, kstack := 0, state := .unused, pid := 0, parent := none
      killed := false, name := "" }

def booted (n m : Nat) : Machine where
  word := bootedWord n
  free := List.range' 20000 m
  proc := bootedProc n
  nextpid := 4
  initproc := 0
  kend := 1024
  kdata := 300

def bootedRole (f : Nat) : Role :=
  if f < 1024 then .other
  else if f < 1088 then .dir (Fin.ofNat nproc (f - 1024))
  else if f < 1152 then .kstack (Fin.ofNat nproc (f - 1088))
  else if f < 1216 then .table 0
  else if f < 2048 then .other
  else if f < 8192 then .page ((f - 2048) % 1024)
  else if f < 16384 then .ktable (Fin.ofNat nproc ((f - 8192) / 1024)) (f % 1024)
  else if f < 57344 then .free
  else .other

section

variable {n m : Nat} {p : Fin nproc}

theorem booted_proc (hp : p.val < 3) :
    ((booted n m).proc p).sz = n * pgSize ∧ ((booted n m).proc p).pgdir = 1024 + p ∧
      ((booted n m).proc p).kstack = 1088 + p := by
  simp [booted, bootedProc, hp]

theorem booted_pde_zero (hp : p.val < 3) :
    (booted n m).pde p 0 = mkEntry (1152 + p) (pteW ||| pteU ||| pteP) := by
  rw [Machine.pde, (booted_proc hp).2.1]
  change bootedWord n (1024 + p) 0 = _
  rw [bootedWord, if_neg (by omega), if_pos (by omega), if_pos rfl]
  congr 1
  omega

theorem booted_pde_kernel (hp : p.val < 3) {i : Nat} (hi : i ≠ 0) :
    (booted n m).pde p i = if i ∈ kernelIndices then
      mkEntry (8192 + p * 1024 + i) (pteW ||| pteU ||| pteP) else 0 := by
  rw [Machine.pde, (booted_proc hp).2.1]
  change bootedWord n (1024 + p) i = _
  rw [bootedWord, if_neg (by omega), if_pos (by omega), if_neg hi, Nat.add_sub_cancel_left]

theorem booted_tab_zero (hp : p.val < 3) : (booted n m).tab p 0 = 1152 + p := by
  rw [Machine.tab, booted_pde_zero hp, pteAddr_mkEntry_user (by omega)]

theorem booted_pte (hp : p.val < 3) {a : Nat} (ha : a < 1024) :
    (booted n m).pte p a =
      if a < n then mkEntry (2048 + p * 1024 + a) (pteW ||| pteU ||| pteP) else 0 := by
  rw [Machine.pte, Nat.div_eq_of_lt ha, Nat.mod_eq_of_lt ha, booted_tab_zero hp]
  change bootedWord n (1152 + p) a = _
  rw [bootedWord, if_neg (by omega), if_neg (by omega), if_neg (by omega), if_pos (by omega),
    Nat.add_sub_cancel_left]

theorem booted_pages (hp : p.val < 3) : (booted n m).pages p = n := by
  rw [Machine.pages, (booted_proc hp).1]
  simp only [npages, pgSize]
  omega

theorem booted_tables (hp : p.val < 3) (h0 : 0 < n) (hn : n ≤ 1024) :
    (booted n m).tables p = 1 := by
  rw [Machine.tables, booted_pages hp]
  omega

end

theorem bootedRole_dir (p : Fin nproc) : bootedRole (1024 + p) = .dir p := by
  have := p.isLt
  simp only [nproc] at this
  rw [bootedRole, if_neg (by omega), if_pos (by omega), Nat.add_sub_cancel_left]
  simp

theorem bootedRole_kstack (p : Fin nproc) : bootedRole (1088 + p) = .kstack p := by
  have := p.isLt
  simp only [nproc] at this
  rw [bootedRole, if_neg (by omega), if_neg (by omega), if_pos (by omega),
    Nat.add_sub_cancel_left]
  simp

theorem booted_pool {n m : Nat} (hm : 20000 + m ≤ 57344) : Pool (booted n m) bootedRole where
  nodup := List.nodup_range'
  free f hf := by
    have hf' : f ∈ List.range' 20000 m := hf
    rw [List.mem_range'_1] at hf'
    rw [bootedRole, if_neg (by omega), if_neg (by omega), if_neg (by omega), if_neg (by omega),
      if_neg (by omega), if_neg (by omega), if_neg (by omega), if_pos (by omega)]
  range f hf := by
    change 1024 ≤ f ∧ _
    simp only [physTop, pgSize]
    by_contra hout
    apply hf
    by_cases hlow : f < 1024
    · rw [bootedRole, if_pos hlow]
    · rw [bootedRole, if_neg (by omega), if_neg (by omega), if_neg (by omega), if_neg (by omega),
        if_neg (by omega), if_neg (by omega), if_neg (by omega), if_neg (by omega)]
  kend := by
    change 0 < 1024
    decide
  kdata := by
    change extMem < 300 * pgSize ∧ 300 * pgSize < physTop
    decide

theorem booted_ktable {n m : Nat} {p : Fin nproc} (hp : p.val < 3) {i : Nat} (hi : 512 ≤ i)
    (hlt : i < 1024) (hpres : ((booted n m).pde p i).present = true) :
    bootedRole ((booted n m).tab p i) = .ktable p i ∧
      ∀ j < 1024, ((booted n m).word ((booted n m).tab p i) j).user = false := by
  have hpde := booted_pde_kernel (n := n) (m := m) hp (i := i) (by omega)
  have hmem : i ∈ kernelIndices := by
    by_contra hno
    rw [hpde, if_neg hno] at hpres
    cases hpres
  rw [if_pos hmem] at hpde
  have htab : (booted n m).tab p i = 8192 + p * 1024 + i := by
    rw [Machine.tab, hpde, pteAddr_mkEntry_user (by omega)]
  have hmod : (8192 + p.val * 1024 + i) % 1024 = i := by omega
  have hdiv : (8192 + p.val * 1024 + i - 8192) / 1024 = p.val := by omega
  rw [htab]
  refine ⟨?_, fun j _ => ?_⟩
  · rw [bootedRole, if_neg (by omega), if_neg (by omega), if_neg (by omega), if_neg (by omega),
      if_neg (by omega), if_neg (by omega), if_pos (by omega), hmod, hdiv]
    simp
  · change (bootedWord n _ j).user = false
    rw [bootedWord, if_neg (by omega), if_neg (by omega), if_neg (by omega), if_neg (by omega),
      if_neg (by omega)]
    split <;>
    · rw [Word.user, getLsbD_mkEntry (by decide)]
      decide

theorem booted_layout {n m : Nat} (h0 : 0 < n) (hn : n ≤ 1024) (hm : 20000 + m ≤ 57344) :
    Layout (booted n m) bootedRole fun p => p.val < 3 where
  pool := booted_pool hm
  space p hp := by
    have hframe : ∀ a < n, (booted n m).frame p a = 2048 + p * 1024 + a := fun a ha => by
      rw [Machine.frame, booted_pte hp (by omega), if_pos ha, pteAddr_mkEntry_user (by omega)]
    refine ⟨?_, ?_, ?_, ?_, ?_, ?_, ?_, fun i hi hlt hpres => booted_ktable hp hi hlt hpres⟩
    · rw [(booted_proc hp).2.1, bootedRole_dir]
    · rw [(booted_proc hp).2.2, bootedRole_kstack]
    · rw [booted_tables hp h0 hn]
      decide
    · intro i hi
      rw [booted_tables hp h0 hn] at hi
      obtain rfl : i = 0 := by omega
      rw [booted_pde_zero hp, booted_tab_zero hp]
      refine ⟨present_mkEntry, ?_⟩
      rw [bootedRole, if_neg (by omega), if_neg (by omega), if_neg (by omega), if_pos (by omega)]
    · intro i hi hlt
      rw [booted_tables hp h0 hn] at hi
      rw [booted_pde_kernel hp (by omega), if_neg (by rw [mem_kernelIndices]; omega)]
      decide
    · intro a ha
      rw [booted_pages hp] at ha
      rw [hframe a ha, booted_pte hp (by omega), if_pos ha]
      refine ⟨present_mkEntry, ?_⟩
      rw [bootedRole, if_neg (by omega), if_neg (by omega), if_neg (by omega), if_neg (by omega),
        if_neg (by omega), if_pos (by omega),
        show (2048 + p.val * 1024 + a - 2048) % 1024 = a by omega]
    · intro a ha hlt
      rw [booted_pages hp] at ha
      rw [booted_tables hp h0 hn] at hlt
      rw [booted_pte hp (by omega), if_neg (by omega)]
      decide

end Xv6
