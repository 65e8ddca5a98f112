import Xv6.Proof.LayoutOps

/-!
# Serving a page fault

`copypage` does one of three things, by the level `isshared` reports: it sets the write bit of the
entry, it enters a copy of the page, or it first replaces the table by a copy of its own.
-/

namespace Xv6

theorem pdx_eq {va : Nat} (hva : va < 2 ^ 32) : pdx va = va / pgSize / 1024 := by
  simp only [pdx, pgSize]
  omega

theorem ptx_eq (va : Nat) : ptx va = va / pgSize % 1024 := by
  simp only [ptx, pgSize]
  omega

theorem pgRoundDown_div (va : Nat) : pgRoundDown va / pgSize = va / pgSize := by
  simp only [pgRoundDown, pgSize]
  omega

theorem pgRoundDown_le (va : Nat) : pgRoundDown va ≤ va := by
  simp only [pgRoundDown, pgSize]
  omega

namespace Machine

def withTable (s : Machine) (p : Fin nproc) (i t : Nat) (rest : List Nat) : Machine :=
  ({ s with free := rest }.setPage t (s.word (s.tab p i))).setWord (s.proc p).pgdir i
    (mkEntry t (pteW ||| pteU ||| pteP))

def withFrame (s : Machine) (p : Fin nproc) (a f : Nat) (rest : List Nat) : Machine :=
  ({ s with free := rest }.setPage f (s.word (s.frame p a))).setWord (s.tab p (a / 1024))
    (a % 1024) (mkEntry f (pteW ||| pteU ||| pteP))

theorem userPage_eq (s : Machine) (p : Fin nproc) {va : Nat} (hva : va < 2 ^ 32) :
    s.userPage p va =
      if (s.pde p (va / pgSize / 1024)).present && (s.pte p (va / pgSize)).present then
        some (s.frame p (va / pgSize)) else none := by
  simp only [userPage, pdx_eq hva, ptx_eq]
  rfl

end Machine

theorem walkPtr_eq (s : Machine) (p : Fin nproc) {va : Nat} (hva : va < 2 ^ 32) :
    walkPtr s (s.proc p).pgdir va =
      if (s.pde p (va / pgSize / 1024)).present then
        some (s.tab p (va / pgSize / 1024), va / pgSize % 1024) else none := by
  simp only [walkPtr, pdx_eq hva, ptx_eq]
  rfl

theorem updatePte_spec {msg : String} {f : Word → Word} {pgdir va : Nat} {s s' : Machine}
    (h : (updatePte msg f pgdir va).run s = .ok ((), s')) :
    ∃ t i, walkPtr s pgdir va = some (t, i) ∧ s' = s.setWord t i (f (s.word t i)) := by
  rw [updatePte, Kernel.run_bind_of_ok (run_walkpgdir s pgdir va)] at h
  cases hwalk : walkPtr s pgdir va with
  | none => simp [hwalk] at h
  | some ptr =>
    obtain ⟨t, i⟩ := ptr
    simp only [hwalk, Kernel.run_modify, Except.ok.injEq, Prod.mk.injEq, true_and] at h
    exact ⟨t, i, rfl, h.symm⟩

theorem run_updatePte {msg : String} {f : Word → Word} {pgdir va t i : Nat} {s : Machine}
    (h : walkPtr s pgdir va = some (t, i)) :
    (updatePte msg f pgdir va).run s = .ok ((), s.setWord t i (f (s.word t i))) := by
  rw [updatePte, Kernel.run_bind_of_ok (run_walkpgdir s pgdir va), h]
  rfl

theorem issharedScan_slot {s : Machine} {cur q : Fin nproc} {va : Nat} (hva : va < 2 ^ 32)
    (rest : List (Fin nproc)) (hpid : (s.proc q).pid ≠ 0) (hstate : (s.proc q).state ≠ .zombie)
    (hne : q ≠ cur) (hnull : (s.proc cur).pgdir ≠ 0 ∧ (s.proc q).pgdir ≠ 0)
    (hcur : (s.pde cur (va / pgSize / 1024)).present = true)
    (hq : (s.pde q (va / pgSize / 1024)).present = true) :
    issharedScan s cur va (q :: rest) =
      if (s.proc cur).pgdir = (s.proc q).pgdir then some .directory
      else if s.pde cur (va / pgSize / 1024) = s.pde q (va / pgSize / 1024) then some .table
      else if s.pte cur (va / pgSize) = s.pte q (va / pgSize) then some .frame
      else issharedScan s cur va rest := by
  have hentry : ∀ p, (s.proc p).pgdir ≠ 0 → s.dirEntry cur (s.proc p).pgdir (pdx va) =
      some (s.pde p (va / pgSize / 1024)) := by
    intro p hp
    rw [Machine.dirEntry, if_neg hp, pdx_eq hva]
    rfl
  have hload : ∀ p, (s.proc p).pgdir ≠ 0 → (s.pde p (va / pgSize / 1024)).present = true →
      s.wpgdir cur (s.proc p).pgdir va =
        some (some (s.tab p (va / pgSize / 1024), va / pgSize % 1024)) := by
    intro p hp hpres
    rw [Machine.wpgdir, hentry p hp, Option.map_some, if_pos hpres, ptx_eq]
    rfl
  rw [issharedScan, if_neg hpid, if_neg (not_or.mpr ⟨hstate, hne⟩), hentry cur hnull.1,
    hentry q hnull.2]
  simp only [Option.bind_eq_bind, Option.bind_some, hload cur hnull.1 hcur, hload q hnull.2 hq,
    Machine.loadPte]
  rfl

theorem issharedScan_cons {s : Machine} {cur q : Fin nproc} {va : Nat} (hva : va < 2 ^ 32)
    (rest : List (Fin nproc)) (hpid : (s.proc q).pid ≠ 0) (hstate : (s.proc q).state ≠ .zombie)
    (hne : q ≠ cur) (hdir : (s.proc cur).pgdir ≠ (s.proc q).pgdir)
    (hnull : (s.proc cur).pgdir ≠ 0 ∧ (s.proc q).pgdir ≠ 0)
    (htab : s.pde cur (va / pgSize / 1024) ≠ s.pde q (va / pgSize / 1024))
    (hcur : (s.pde cur (va / pgSize / 1024)).present = true)
    (hq : (s.pde q (va / pgSize / 1024)).present = true) :
    issharedScan s cur va (q :: rest) =
      if s.pte cur (va / pgSize) = s.pte q (va / pgSize) then some .frame
      else issharedScan s cur va rest := by
  rw [issharedScan_slot hva rest hpid hstate hne hnull hcur hq, if_neg hdir, if_neg htab]

section Copy

variable {s s' : Machine} {role : Nat → Role} {H : Fin nproc → Prop} {cur : Fin nproc}

theorem Layout.pgdir_not_free (hL : Layout s role H) (hcur : H cur) :
    (s.proc cur).pgdir ∉ s.free := by
  intro hmem
  have hrole := (hL.space cur hcur).dir
  rw [hL.pool.free _ hmem] at hrole
  cases hrole

theorem SameMaps.alloc (hL : Layout s role H) (hcur : H cur) {f : Nat} {rest : List Nat}
    (hfree : s.free = f :: rest) (content : Nat → Word) :
    SameMaps ({ s with free := rest }.setPage f content) s cur := by
  have happart := apart_of_not_uses
    ((hL.space cur hcur).not_uses_of_free (hL.pool.role_head hfree))
  exact .of_apart (P := fun g => g = f) rfl (fun g hg => Machine.setPage_word_of_ne _ _ hg)
    (by rintro _ rfl; exact happart)

theorem Layout.withTable (hL : Layout s role H) (hcur : H cur) {i t : Nat} {rest : List Nat}
    (hi : i < s.tables cur) (hfree : s.free = t :: rest) :
    Layout (s.withTable cur i t rest) (Function.update role t (.table i)) H := by
  have hsp := hL.space cur hcur
  have hlow := hsp.low
  have hmaps := SameMaps.alloc hL hcur hfree (s.word (s.tab cur i))
  have hL1 := hL.alloc hfree (.table i) (s.word (s.tab cur i))
  have hne : s.tab cur i ≠ t := by
    rintro rfl
    have hrole := (hsp.table i hi).2
    rw [hL.pool.role_head hfree] at hrole
    cases hrole
  refine hL1.replaceTable hcur (by rw [hmaps.tables]; exact hi) (Function.update_self _ _ _) ?_
  rw [Machine.setPage_word_self, hmaps.tab_eq (by omega), Machine.setPage_word_of_ne _ _ hne]

theorem Layout.withFrame (hL : Layout s role H) (hcur : H cur) {a f : Nat} {rest : List Nat}
    (ha : a < s.pages cur) (hfree : s.free = f :: rest) :
    Layout (s.withFrame cur a f rest) (Function.update role f (.page a)) H := by
  have hsp := hL.space cur hcur
  have hmaps := SameMaps.alloc hL hcur hfree (s.word (s.frame cur a))
  have hL1 := hL.alloc hfree (.page a) (s.word (s.frame cur a))
  have h := hL1.replaceFrame hcur (by rw [hmaps.pages]; exact ha) (Function.update_self _ _ _)
  rw [hmaps.tab_eq (hsp.tables_lt ha)] at h
  exact h

end Copy

section Progress

theorem lt_two_pow_of_lt_kernBase {va : Nat} (hva : va < kernBase) : va < 2 ^ 32 := by
  simp only [kernBase] at hva
  omega

theorem run_setptew (s : Machine) (cur : Fin nproc) {va : Nat} (hva : va < kernBase)
    (hpres : (s.pde cur (va / pgSize / 1024)).present = true) :
    (setptew (s.proc cur).pgdir (pgRoundDown va)).run s =
      .ok ((), s.setWord (s.tab cur (va / pgSize / 1024)) (va / pgSize % 1024)
        (s.pte cur (va / pgSize) ||| pteW)) := by
  have hround : pgRoundDown va < 2 ^ 32 :=
    lt_of_le_of_lt (pgRoundDown_le va) (lt_two_pow_of_lt_kernBase hva)
  refine run_updatePte ?_
  rw [walkPtr_eq s cur hround, pgRoundDown_div, if_pos hpres]

theorem run_copyFrame {s : Machine} {cur : Fin nproc} (msg : String) {pgdir va f t i : Nat}
    {rest : List Nat} (hva : va < kernBase)
    (hpde : (s.pde cur (va / pgSize / 1024)).present = true)
    (hpte : (s.pte cur (va / pgSize)).present = true) (hfree : s.free = f :: rest)
    (hdir : (s.proc cur).pgdir ≠ f) (htab : s.tab cur (va / pgSize / 1024) ≠ f)
    (hframe : s.frame cur (va / pgSize) ≠ f) (hpd : pgdir ≠ f)
    (hwalk : walkPtr s pgdir va = some (t, i)) :
    (copyFrame msg cur pgdir va).run s =
      .ok ((), ({ s with free := rest }.setPage f (s.word (s.frame cur (va / pgSize)))).setWord t i
        (mkEntry f (pteW ||| pteU ||| pteP))) := by
  have hround : pgRoundDown va < 2 ^ 32 :=
    lt_of_le_of_lt (pgRoundDown_le va) (lt_two_pow_of_lt_kernBase hva)
  set s1 : Machine := { s with free := rest }.setPage f fun _ => 0 with hs1
  have hpde1 : s1.pde cur (va / pgSize / 1024) = s.pde cur (va / pgSize / 1024) :=
    congrFun (Machine.setPage_word_of_ne _ _ hdir) _
  have hpte1 : s1.pte cur (va / pgSize) = s.pte cur (va / pgSize) := by
    rw [Machine.pte, Machine.tab, hpde1]
    exact congrFun (Machine.setPage_word_of_ne _ _ htab) _
  have hpage : s1.userPage cur (pgRoundDown va) = some (s.frame cur (va / pgSize)) := by
    rw [Machine.userPage_eq s1 cur hround, pgRoundDown_div, hpde1, hpde, hpte1, hpte,
      Machine.frame, hpte1]
    rfl
  have hcopy : (copyUserPage cur f va).run s1 =
      .ok ((), { s with free := rest }.setPage f (s.word (s.frame cur (va / pgSize)))) := by
    simp only [copyUserPage, Kernel.run_get_bind, hpage, Kernel.run_modify]
    rw [hs1, Machine.setPage_setPage, Machine.setPage_word_of_ne _ _ hframe]
  have hwalk2 : walkPtr ({ s with free := rest }.setPage f (s.word (s.frame cur (va / pgSize))))
      pgdir va = some (t, i) := by
    rw [← hwalk]
    simp only [walkPtr, Machine.setPage_word_of_ne _ _ hpd]
  rw [copyFrame, Kernel.run_bind_of_ok (run_kallocOr hfree), clearPage, Kernel.run_modify_bind,
    Kernel.run_bind_of_ok hcopy, storePte, Kernel.run_bind_of_ok (run_walkpgdir _ _ _), hwalk2]
  rfl

end Progress

end Xv6
