import Xv6.Proof.FaultContents
import Xv6.Proof.ForkLayout
import Xv6.Proof.Booted

/-!
# Whether a fault makes progress

A store needs the write bit in the directory entry and in the table entry. `fork` clears both, and
only the copy of a table sets the bit in the directory again. A process that is left alone with a
table that `fork` had closed never gets it back: each fault sets the bit in the table entry and the
store faults again.
-/

namespace Xv6

namespace Machine

def entryRead (s : Machine) (cur q : Fin nproc) (va : Nat) : Option Word := do
  s.loadPte cur (← s.wpgdir cur (s.proc q).pgdir va)

def dirRead (s : Machine) (cur q : Fin nproc) (va : Nat) : Option Word :=
  s.dirEntry cur (s.proc q).pgdir (pdx va)

end Machine

/-- The scan goes past the slot: a zombie, the current process, or a process whose directory,
directory entry and table entry are others. -/
def Passed (s : Machine) (cur : Fin nproc) (va : Nat) (q : Fin nproc) : Prop :=
  (s.proc q).pid ≠ 0 ∧ ((s.proc q).state = .zombie ∨ q = cur ∨
    (s.proc cur).pgdir ≠ (s.proc q).pgdir ∧
    (∃ v w, s.dirRead cur cur va = some v ∧ s.dirRead cur q va = some w ∧ v ≠ w) ∧
    ∃ v w, s.entryRead cur cur va = some v ∧ s.entryRead cur q va = some w ∧ v ≠ w)

def SharesTable (s : Machine) (cur : Fin nproc) (va : Nat) (q : Fin nproc) : Prop :=
  (s.proc q).pid ≠ 0 ∧ (s.proc q).state ≠ .zombie ∧ q ≠ cur ∧
    (s.proc cur).pgdir ≠ (s.proc q).pgdir ∧
    ∃ v, s.dirRead cur cur va = some v ∧ s.dirRead cur q va = some v

def TableFirst (s : Machine) (cur : Fin nproc) (va : Nat) (l : List (Fin nproc)) : Prop :=
  ∃ l1 q l2, l = l1 ++ q :: l2 ∧ (∀ x ∈ l1, Passed s cur va x) ∧ SharesTable s cur va q

section Scan

variable {s : Machine} {cur : Fin nproc} {va : Nat}

theorem tableFirst_cons {p : Fin nproc} {rest : List (Fin nproc)} :
    TableFirst s cur va (p :: rest) ↔
      SharesTable s cur va p ∨ Passed s cur va p ∧ TableFirst s cur va rest := by
  constructor
  · rintro ⟨l1, q, l2, heq, hpassed, hq⟩
    cases l1 with
    | nil =>
      obtain ⟨rfl, -⟩ := List.cons.inj heq
      exact Or.inl hq
    | cons x l1 =>
      obtain ⟨rfl, hrest⟩ := List.cons.inj heq
      obtain ⟨hx, hl1⟩ := List.forall_mem_cons.mp hpassed
      exact Or.inr ⟨hx, l1, q, l2, hrest, hl1, hq⟩
  · rintro (hp | ⟨hp, l1, q, l2, rfl, hpassed, hq⟩)
    · exact ⟨[], p, rest, rfl, by simp, hp⟩
    · exact ⟨p :: l1, q, l2, rfl, List.forall_mem_cons.mpr ⟨hp, hpassed⟩, hq⟩

theorem issharedScan_reads (p : Fin nproc) (rest : List (Fin nproc)) :
    issharedScan s cur va (p :: rest) =
      if (s.proc p).pid = 0 then some .nothing
      else if (s.proc p).state = .zombie ∨ p = cur then issharedScan s cur va rest
      else if (s.proc cur).pgdir = (s.proc p).pgdir then some .directory
      else (s.dirRead cur cur va).bind fun v => (s.dirRead cur p va).bind fun w =>
        if v = w then some .table
        else (s.entryRead cur cur va).bind fun x => (s.entryRead cur p va).bind fun y =>
          if x = y then some .frame else issharedScan s cur va rest := by
  simp [issharedScan, Machine.entryRead, Machine.dirRead, Option.bind_assoc]

theorem issharedScan_eq_table (l : List (Fin nproc)) :
    issharedScan s cur va l = some .table ↔ TableFirst s cur va l := by
  induction l with
  | nil => simp [issharedScan, TableFirst]
  | cons p rest ih =>
    rw [tableFirst_cons, ← ih, issharedScan_reads]
    by_cases hpid : (s.proc p).pid = 0
    · simp [hpid, SharesTable, Passed]
    rw [if_neg hpid]
    by_cases hskip : (s.proc p).state = .zombie ∨ p = cur
    · have hnot : ¬SharesTable s cur va p := fun h => hskip.elim h.2.1 h.2.2.1
      have hpass : Passed s cur va p := ⟨hpid, hskip.elim Or.inl fun h => Or.inr (Or.inl h)⟩
      simp [hskip, hnot, hpass]
    rw [if_neg hskip]
    obtain ⟨hstate, hne⟩ := not_or.mp hskip
    by_cases hdir : (s.proc cur).pgdir = (s.proc p).pgdir
    · simp [hdir, SharesTable, Passed, hstate, hne]
    rw [if_neg hdir]
    simp only [SharesTable, Passed, hpid, hstate, hne, hdir, ne_eq, not_false_eq_true, true_and,
      false_or]
    cases s.dirRead cur cur va with
    | none => simp
    | some v =>
      cases s.dirRead cur p va with
      | none => simp
      | some w =>
        by_cases hvw : v = w
        · simp [hvw]
        · cases s.entryRead cur cur va with
          | none => simp [hvw, Ne.symm hvw]
          | some x =>
            cases s.entryRead cur p va with
            | none => simp [hvw, Ne.symm hvw]
            | some y =>
              by_cases hxy : x = y
              · simp [hvw, Ne.symm hvw, hxy]
              · simp [hvw, Ne.symm hvw, hxy]

end Scan

section Progress

variable {s s' : Machine} {cur : Fin nproc} {va : Nat}

theorem Copied.canWrite_eq (hR : Reach s cur (va / pgSize)) (hread : s.canRead cur va = true)
    (h : Copied s cur va s') :
    s'.canWrite cur va = ((s.pde cur (va / 2 ^ 22)).writable ||
      decide (isshared s cur va = some .table)) := by
  have hidx : va / 2 ^ 22 = va / pgSize / 1024 := by
    simp only [pgSize]
    omega
  simp only [Machine.canRead, Bool.and_eq_true, hidx] at hread
  obtain ⟨⟨⟨hpde, hpdeU⟩, hpte⟩, hpteU⟩ := hread
  rw [Machine.canWrite, Machine.canRead, hidx]
  cases h with
  | nothing hlevel hpres =>
    have hne := (hR.table hpde).2
    have hpde' : (s.setWord (s.tab cur (va / pgSize / 1024)) (va / pgSize % 1024)
        (s.pte cur (va / pgSize) ||| pteW)).pde cur (va / pgSize / 1024) =
          s.pde cur (va / pgSize / 1024) :=
      congrFun (Machine.setWord_word_of_ne s _ _ hne.symm) _
    have hpte' : (s.setWord (s.tab cur (va / pgSize / 1024)) (va / pgSize % 1024)
        (s.pte cur (va / pgSize) ||| pteW)).pte cur (va / pgSize) =
          s.pte cur (va / pgSize) ||| pteW := by
      have htab' := congrArg pteAddr hpde'
      change Machine.word _ (pteAddr _) _ = _
      rw [htab']
      exact Machine.setWord_word_self _ _ _ _
    rw [hpde', hpte', present_setW, user_setW, writable_setW, hpde, hpdeU, hpte, hpteU, hlevel]
    simp
  | frame hlevel hmap hfree =>
    obtain ⟨hpde', hpte'⟩ := hR.withFrame_entry hmap hfree
    rw [hpde', hpte', present_mkEntry, user_mkEntry, writable_mkEntry, hpde, hpdeU, hlevel]
    simp
  | @table t f rest hlevel hmap hfree =>
    obtain ⟨hpde1, hpte1⟩ := hR.withTable_entry hfree
    have hmap1 : (s.withTable cur (va / pgSize / 1024) t (f :: rest)).mapped cur (va / pgSize) :=
      ⟨by rw [hpde1, present_mkEntry], by rw [hpte1]; exact hmap.2⟩
    obtain ⟨hpde', hpte'⟩ := (hR.withTable hmap.1 hfree).withFrame_entry hmap1
      (rfl : _ = f :: rest)
    rw [hpde', hpte', hpde1, present_mkEntry, user_mkEntry,
      writable_mkEntry, present_mkEntry, user_mkEntry, writable_mkEntry, hlevel]
    simp

/-- After a fault that was served the store succeeds exactly if the directory entry had its write
bit, or the first process found by the scan shares the page table. -/
theorem trapCOW_progress_iff (hR : Reach s cur (va / pgSize)) (hva : va < kernBase)
    (hread : s.canRead cur va = true) (h : (trapCOW cur va).run s = .ok ((), s')) :
    s'.canWrite cur va = true ↔ (s.pde cur (va / 2 ^ 22)).writable = true ∨
      TableFirst s cur va (List.finRange nproc) := by
  rw [(hR.copypage_spec hva h).canWrite_eq hR hread, Bool.or_eq_true,
    decide_eq_true_eq, isshared, issharedScan_eq_table]

end Progress

/-- Slot 1 has the table of slot 0, which gets a copy and may store. -/
theorem trapCOW_progress_sharedTable : ∃ s', (trapCOW 0 0).run sharedTable = .ok ((), s') ∧
    s'.canWrite 0 0 = true := by
  cases hrun : (trapCOW 0 0).run sharedTable with
  | error msg =>
    have hok : ((trapCOW 0 0).run sharedTable).toBool = true := by decide
    rw [hrun] at hok
    cases hok
  | ok r =>
    obtain ⟨⟨⟩, s'⟩ := r
    have hcur : (0 : Fin nproc).val < 2 := by decide
    refine ⟨s', rfl, (trapCOW_progress_iff (sharedTable_sorted.reach hcur (by decide)) (by decide)
      (by decide) hrun).mpr (Or.inr ?_)⟩
    refine ⟨[0], 1, (List.finRange nproc).drop 2, by decide, fun x hx => ?_, by decide,
      by decide, by decide, by decide, mkEntry 3 (pteU ||| pteP), by decide,
      by decide⟩
    rw [List.mem_singleton.mp hx]
    exact ⟨by decide, Or.inr (Or.inl rfl)⟩

def largeWord (f i : Nat) : Word :=
  if f = 1026 ∧ i = 1 then mkEntry 1280 (pteW ||| pteU ||| pteP)
  else if f = 1280 ∧ i = 0 then mkEntry 5120 (pteW ||| pteU ||| pteP)
  else bootedWord 1024 f i

def largeProgram : Machine :=
  { booted 1024 80 with
    word := largeWord
    proc := Function.update (bootedProc 1024) 2 { bootedProc 1024 2 with sz := 1025 * pgSize } }

theorem largeWord_of_ne {f i : Nat} (h1 : ¬(f = 1026 ∧ i = 1)) (h2 : ¬(f = 1280 ∧ i = 0)) :
    largeWord f i = bootedWord 1024 f i := by
  rw [largeWord, if_neg h1, if_neg h2]

theorem largeProgram_proc {p : Fin nproc} (hp : p ≠ 2) :
    largeProgram.proc p = bootedProc 1024 p := Function.update_of_ne hp _ _

theorem largeProgram_pgdir {p : Fin nproc} (hp : p.val < 3) :
    (largeProgram.proc p).pgdir = 1024 + p := by
  by_cases h : p = 2
  · rw [h]
    rfl
  · rw [largeProgram_proc h]
    exact (booted_proc (n := 1024) (m := 80) hp).2.1

theorem largeProgram_pages : largeProgram.pages 2 = 1025 := by decide

theorem largeProgram_tables : largeProgram.tables 2 = 2 := by decide

theorem largeProgram_pde_zero {p : Fin nproc} (hp : p.val < 3) :
    largeProgram.pde p 0 = mkEntry (1152 + p) (pteW ||| pteU ||| pteP) := by
  rw [← booted_pde_zero (n := 1024) (m := 80) hp, Machine.pde, Machine.pde, largeProgram_pgdir hp,
    (booted_proc hp).2.1]
  exact largeWord_of_ne (fun h => absurd h.2 (by decide)) fun h => by omega

theorem largeProgram_tab_zero {p : Fin nproc} (hp : p.val < 3) :
    largeProgram.tab p 0 = 1152 + p := by
  rw [Machine.tab, largeProgram_pde_zero hp, pteAddr_mkEntry_user (by omega)]

theorem largeProgram_pde_one :
    largeProgram.pde 2 1 = mkEntry 1280 (pteW ||| pteU ||| pteP) := by
  change largeWord 1026 1 = _
  rw [largeWord, if_pos ⟨rfl, rfl⟩]

theorem largeProgram_tab_one : largeProgram.tab 2 1 = 1280 := by
  rw [Machine.tab, largeProgram_pde_one, pteAddr_mkEntry_user (by decide)]

theorem largeProgram_pte {p : Fin nproc} (hp : p.val < 3) {a : Nat} (ha : a < 1024) :
    largeProgram.pte p a = mkEntry (2048 + p * 1024 + a) (pteW ||| pteU ||| pteP) := by
  have hpte := booted_pte (n := 1024) (m := 80) hp ha
  rw [if_pos ha] at hpte
  rw [← hpte, Machine.pte, Machine.pte, Nat.div_eq_of_lt ha, Nat.mod_eq_of_lt ha,
    largeProgram_tab_zero hp, booted_tab_zero hp]
  exact largeWord_of_ne (fun h => by omega) fun h => by omega

theorem largeProgram_pte_last :
    largeProgram.pte 2 1024 = mkEntry 5120 (pteW ||| pteU ||| pteP) := by
  change largeWord (largeProgram.tab 2 1) 0 = _
  rw [largeProgram_tab_one, largeWord, if_neg (by decide), if_pos ⟨rfl, rfl⟩]

theorem largeProgram_page {a : Nat} (ha : a < 1025) :
    (largeProgram.pte 2 a).present = true ∧ largeProgram.frame 2 a = 4096 + a := by
  rw [Machine.frame]
  by_cases hlast : a = 1024
  · rw [hlast, largeProgram_pte_last, pteAddr_mkEntry_user (by decide)]
    exact ⟨present_mkEntry, rfl⟩
  · rw [largeProgram_pte (by decide) (by omega),
      pteAddr_mkEntry_user (by change 2048 + 2 * 1024 + a < 2 ^ 20; omega)]
    exact ⟨present_mkEntry, rfl⟩

theorem largeProgram_not_free {g : Nat} (hg : g < 20000) : g ∉ largeProgram.free := by
  intro hmem
  have hrange := List.mem_range'_1.mp (show g ∈ List.range' 20000 80 from hmem)
  omega

theorem largeProgram_forkable : Forkable largeProgram 2 := by
  have htab : ∀ i < 2, (largeProgram.pde 2 i).present = true ∧
      largeProgram.tab 2 i = if i = 0 then 1154 else 1280 := by
    intro i hi
    rcases (by omega : i = 0 ∨ i = 1) with rfl | rfl
    · rw [largeProgram_pde_zero (by decide), largeProgram_tab_zero (by decide)]
      exact ⟨present_mkEntry, rfl⟩
    · rw [largeProgram_pde_one, largeProgram_tab_one]
      exact ⟨present_mkEntry, rfl⟩
  have hdir : (largeProgram.proc 2).pgdir = 1026 := largeProgram_pgdir (by decide)
  refine ⟨List.nodup_range', ?_, (booted_pool (n := 1024) (m := 80) (by decide)).kdata, by decide,
    ?_, ?_, ?_, ?_⟩
  · intro f hf
    have hrange := List.mem_range'_1.mp (show f ∈ List.range' 20000 80 from hf)
    omega
  · rw [hdir]
    exact largeProgram_not_free (by decide)
  · intro i hi
    rw [largeProgram_tables] at hi
    obtain ⟨hpres, heq⟩ := htab i hi
    rw [heq, hdir]
    refine ⟨hpres, largeProgram_not_free ?_, ?_⟩
    · split <;> decide
    · split <;> decide
  · intro i j hi hj heq
    rw [largeProgram_tables] at hi hj
    rw [(htab i hi).2, (htab j hj).2] at heq
    split at heq <;> split at heq <;> omega
  · intro a ha
    rw [largeProgram_pages] at ha
    obtain ⟨hpres, hframe⟩ := largeProgram_page ha
    rw [hframe, hdir]
    refine ⟨hpres, largeProgram_not_free (by omega), by omega, fun i hi => ?_⟩
    rw [largeProgram_tables] at hi
    rw [(htab i hi).2]
    split <;> omega

theorem largeProgram_fork : ∃ m, (fork 2).run largeProgram = .ok (some 4, m) ∧
    Forked largeProgram 2 3 m := by
  refine largeProgram_forkable.fork_ok (by decide) (by decide : 2 < 1023) ?_ rfl
    (by decide) (by decide) (by decide)
  have hpde := booted_pde_kernel (n := 1024) (m := 80) (p := 2) (by decide) (by decide : 2 ≠ 0)
  rw [if_neg (by decide)] at hpde
  have heq : largeProgram.pde 2 2 = (booted 1024 80).pde 2 2 := by
    change largeWord 1026 2 = bootedWord 1024 1026 2
    exact largeWord_of_ne (by decide) (by decide)
  rw [heq, hpde]
  rfl

section Stuck

variable {m : Machine} {n kstack d tb f : Nat} {tabs : List (Nat × Nat)}

theorem ChildCopied.large_first (hc : ChildCopied largeProgram m 2 3 n kstack d tb f tabs)
    {q : Fin nproc} (hq : q.val < 3) :
    (m.proc q).pgdir = 1024 + q ∧ SameEntry (m.pde q 0) (largeProgram.pde q 0) ∧
      SameEntry (m.pte q 0) (largeProgram.pte q 0) := by
  have hne : q ≠ 3 := by
    rintro rfl
    exact absurd hq (by decide)
  have hdir : (m.proc q).pgdir = 1024 + q := by
    rw [hc.proc q hne]
    exact largeProgram_pgdir hq
  have hpde : SameEntry (m.pde q 0) (largeProgram.pde q 0) := by
    rw [Machine.pde, hdir, Machine.pde, largeProgram_pgdir hq]
    exact hc.same _ (largeProgram_not_free (by omega)) _
  have htab : m.tab q 0 = 1152 + q := hpde.1.trans (largeProgram_tab_zero hq)
  refine ⟨hdir, hpde, ?_⟩
  change SameEntry (m.word (m.tab q 0) 0) (largeProgram.word (largeProgram.tab q 0) 0)
  rw [htab, largeProgram_tab_zero hq]
  exact hc.same _ (largeProgram_not_free (by omega)) _

theorem ChildCopied.large_entries (hc : ChildCopied largeProgram m 2 3 n kstack d tb f tabs)
    {q : Fin nproc} (hq : q.val < 3) :
    (m.pde q 0).present = true ∧ m.tab q 0 = 1152 + q ∧ m.frame q 0 = 2048 + q * 1024 := by
  obtain ⟨-, hpde, hpte⟩ := hc.large_first hq
  refine ⟨?_, hpde.1.trans (largeProgram_tab_zero hq), ?_⟩
  · rw [hpde.2.1, largeProgram_pde_zero hq]
    exact present_mkEntry
  · have hframe : m.frame q 0 = largeProgram.frame q 0 := hpte.1
    rw [hframe, Machine.frame, largeProgram_pte hq (by decide), pteAddr_mkEntry_user (by omega)]
    omega

theorem Forked.initproc (h : Forked largeProgram 2 3 m) : m.initproc = 0 := by
  cases h with
  | @mk t u n kstack d tb f tabs rest0 rest hslot hn hfree hclear hdir hlast =>
    change u.initproc = 0
    rw [hdir.rest]
    change t.initproc = 0
    rw [hclear.rest]
    rfl

theorem Machine.canWrite_of_closed {s : Machine} {p : Fin nproc}
    (h : (s.pde p 0).writable = false) : s.canWrite p 0 = false := by
  change (_ && (s.pde p 0).writable && _) = false
  rw [h, Bool.and_false, Bool.false_and]

def childExited (m : Machine) : Machine :=
  { m with proc := fun p => (m.proc p).adopt 3 m.initproc }.setProc 3
    { (m.proc 3).adopt 3 m.initproc with state := .zombie }

theorem run_exit_child (h : m.initproc = 0) :
    (exit 3).run m = .ok ((), childExited m) := by
  have hne : ¬(3 : Fin nproc) = m.initproc := by
    rw [h]
    decide
  rw [exit, Kernel.run_get_bind, if_neg hne, Kernel.run_modify_bind, modifyProc, Kernel.run_modify]
  rfl

theorem childExited_proc {q : Fin nproc} (hq : q ≠ 3) :
    ((childExited m).proc q).pgdir = (m.proc q).pgdir ∧
      ((childExited m).proc q).pid = (m.proc q).pid ∧
      ((childExited m).proc q).state = (m.proc q).state := by
  have hproc : (childExited m).proc q = (m.proc q).adopt 3 m.initproc :=
    Machine.setProc_proc_of_ne _ _ hq
  rw [hproc, Proc.adopt]
  split
  · exact ⟨rfl, rfl, rfl⟩
  · exact ⟨rfl, rfl, rfl⟩

theorem childExited_pde {q : Fin nproc} (hq : q ≠ 3) (i : Nat) :
    (childExited m).pde q i = m.pde q i := by
  rw [Machine.pde, (childExited_proc hq).1]
  rfl

theorem childExited_pte {q : Fin nproc} (hq : q ≠ 3) (a : Nat) :
    (childExited m).pte q a = m.pte q a := by
  rw [Machine.pte, Machine.tab, childExited_pde hq]
  rfl

theorem ChildCopied.large_alone (hc : ChildCopied largeProgram m 2 3 n kstack d tb f tabs) :
    isshared (childExited m) 2 0 = some .nothing := by
  obtain ⟨rest, hslots⟩ : ∃ rest, List.finRange nproc = 0 :: 1 :: 2 :: 3 :: 4 :: rest :=
    ⟨(List.finRange nproc).drop 5, by decide⟩
  have hdir2 := (hc.large_first (q := 2) (by decide)).1
  obtain ⟨hpres2, htab2, hframe2⟩ := hc.large_entries (q := 2) (by decide)
  have hother : ∀ q : Fin nproc, q.val < 2 → ∀ rest,
      issharedScan (childExited m) 2 0 (q :: rest) =
        issharedScan (childExited m) 2 0 rest := by
    intro q hq rest
    have hdir := (hc.large_first (q := q) (by omega)).1
    obtain ⟨hpres, htab, hframe⟩ := hc.large_entries (q := q) (by omega)
    have hne2 : q ≠ 2 := by
      rintro rfl
      exact absurd hq (by decide)
    have hne3 : q ≠ 3 := by
      rintro rfl
      exact absurd hq (by decide)
    obtain ⟨hpgdir, hpid, hstate⟩ := childExited_proc (m := m) hne3
    have hproc : m.proc q = bootedProc 1024 q := (hc.proc q hne3).trans (largeProgram_proc hne2)
    have hq01 : q = 0 ∨ q = 1 :=
      (by omega : q.val = 0 ∨ q.val = 1).imp (fun h => Fin.ext h) fun h => Fin.ext h
    rw [issharedScan_cons (by decide) rest, if_neg]
    · intro heq
      rw [childExited_pte (by decide), childExited_pte hne3] at heq
      have hsame : m.frame 2 0 = m.frame q 0 := congrArg pteAddr heq
      rw [hframe2, hframe] at hsame
      change 2048 + 2 * 1024 = _ at hsame
      omega
    · rw [hpid, hproc]
      rcases hq01 with rfl | rfl <;> decide
    · rw [hstate, hproc]
      rcases hq01 with rfl | rfl <;> decide
    · exact hne2
    · rw [hpgdir, (childExited_proc (by decide)).1, hdir2, hdir]
      change 1024 + 2 ≠ _
      omega
    · rw [hpgdir, (childExited_proc (by decide)).1, hdir2, hdir]
      omega
    · intro heq
      rw [childExited_pde (by decide), childExited_pde hne3] at heq
      have hsame : m.tab 2 0 = m.tab q 0 := congrArg pteAddr heq
      rw [htab2, htab] at hsame
      change 1152 + 2 = _ at hsame
      omega
    · rw [childExited_pde (by decide)]
      exact hpres2
    · rw [childExited_pde hne3]
      exact hpres
  have hpid2 : ((childExited m).proc 2).pid ≠ 0 := by
    rw [(childExited_proc (by decide)).2.1, hc.proc 2 (by decide)]
    decide
  have hzombie : ((childExited m).proc 3).pid = 4 ∧
      ((childExited m).proc 3).state = .zombie := by
    have hproc : (childExited m).proc 3 = { (m.proc 3).adopt 3 m.initproc with state := .zombie } :=
      Machine.setProc_proc_self _ _ _
    rw [hproc, hc.child, Proc.adopt]
    split
    · exact ⟨rfl, rfl⟩
    · exact ⟨rfl, rfl⟩
  have hempty : ((childExited m).proc 4).pid = 0 := by
    rw [(childExited_proc (by decide)).2.1, hc.proc 4 (by decide)]
    decide
  rw [isshared, hslots, hother 0 (by decide), hother 1 (by decide), issharedScan, if_neg hpid2,
    if_pos (Or.inr rfl), issharedScan, hzombie.1, hzombie.2, if_neg (by decide),
    if_pos (Or.inl rfl), issharedScan, if_pos hempty]

end Stuck

/-- The program forks and the child exits. The store of the program to its first page faults, the
fault is served, and the store faults again. -/
theorem trapCOW_no_progress : ∃ m m' : Machine, (fork 2).run largeProgram = .ok (some 4, m) ∧
    (exit 3).run m = .ok ((), childExited m) ∧ (childExited m).canRead 2 0 = true ∧
    (childExited m).canWrite 2 0 = false ∧
    (trapCOW 2 0).run (childExited m) = .ok ((), m') ∧ m'.canWrite 2 0 = false := by
  obtain ⟨m, hrun, hforked⟩ := largeProgram_fork
  obtain ⟨n, kstack, d, tb, f, tabs, hc⟩ := hforked.copied largeProgram_forkable (by decide)
  have hn : n = 1024 := by
    have hlast := hc.last
    rw [largeProgram_pages] at hlast
    omega
  have hpde : (childExited m).pde 2 0 = m.pde 2 0 := childExited_pde (by decide) 0
  have hpte : (childExited m).pte 2 0 = m.pte 2 0 := childExited_pte (by decide) 0
  obtain ⟨hdir, hsame, hsamep⟩ := hc.large_first (q := 2) (by decide)
  rw [largeProgram_pde_zero (by decide)] at hsame
  rw [largeProgram_pte (by decide) (by decide)] at hsamep
  -- the loop of `fork` cleared the bit, and the copy of the last table did not set it
  have hclosed : (m.pde 2 0).writable = false := by
    rw [hc.clearedDir 0 (by omega)]
    exact writable_clearW _
  have hserved : (trapCOW 2 0).run (childExited m) = .ok ((), (childExited m).setWord
      ((childExited m).tab 2 0) 0 ((childExited m).pte 2 0 ||| pteW)) := by
    rw [trapCOW, copypage, Kernel.run_get_bind]
    simp only [hc.large_alone]
    refine run_setptew (childExited m) 2 (by decide) ?_
    exact hpde ▸ (hc.large_entries (q := 2) (by decide)).1
  refine ⟨m, _, hrun, run_exit_child hforked.initproc, ?_, ?_, hserved, ?_⟩
  · change (((childExited m).pde 2 0).present && ((childExited m).pde 2 0).user &&
      ((childExited m).pte 2 0).present && ((childExited m).pte 2 0).user) = true
    rw [hpde, hpte, hsame.2.1, hsame.2.2, hsamep.2.1, hsamep.2.2, present_mkEntry, user_mkEntry,
      present_mkEntry, user_mkEntry]
    rfl
  · refine Machine.canWrite_of_closed ?_
    rw [hpde]
    exact hclosed
  · refine Machine.canWrite_of_closed ?_
    have htab : (childExited m).tab 2 0 = 1154 := by
      rw [Machine.tab, hpde]
      exact (hc.large_entries (q := 2) (by decide)).2.1
    have hpgdir : ((childExited m).proc 2).pgdir = 1026 :=
      (childExited_proc (by decide)).1.trans hdir
    have hkeep : ((childExited m).setWord ((childExited m).tab 2 0) 0
        ((childExited m).pte 2 0 ||| pteW)).pde 2 0 = (childExited m).pde 2 0 :=
      congrFun (Machine.setWord_word_of_ne _ _ _ (by
        rw [htab]
        exact ne_of_eq_of_ne hpgdir (by decide))) 0
    rw [hkeep, hpde]
    exact hclosed

end Xv6
