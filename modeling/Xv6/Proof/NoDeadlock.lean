import Xv6.Proof.FsLockOrder

/-!
# Deadlock freedom of the file-system locks

A process that waits for the transaction holds nothing, so nobody waits for it. A process that waits
for an inode or a buffer while somebody waits for an inode or a buffer that it holds is inside its
own transaction, and there is one such process. A cycle of waiting processes is therefore that one
process waiting for itself, which the lock order excludes.
-/

namespace Xv6

section Cycle

variable {n : Nat} {sb : SuperBlock} {s : LockSys n FsLock FsRead}

def AwaitsInode (s : LockSys n FsLock FsRead) (p : Fin n) : Prop :=
  ∃ i k, (s p).prog = .acquire (.inode i) k

/-- A process that waits, and for whose inode or buffer another waits, is inside its transaction;
unless the one waits for a buffer and the other for the inode it holds. -/
theorem Disciplined.own_of_waited (hs : Disciplined (fsDiscipline sb) (· = []) s) {p q r : Fin n}
    (hpq : s.Waits p q) (hqr : s.Waits q r) (hkind : AwaitsInode s q ∨ ¬AwaitsInode s p) :
    .log ∈ (s q).held := by
  obtain ⟨l, k, hprog, hl⟩ := hpq
  obtain ⟨l', k', hprog', -⟩ := hqr
  have hmay := hs.mayTake hprog'
  cases l' with
  | log =>
    rw [show (s q).held = [] from hmay] at hl
    cases hl
  | inode i =>
    obtain ⟨-, hbuf, hown⟩ := hmay
    cases l with
    | log => exact hl
    | inode j => exact hown ⟨j, hl⟩
    | buf b => exact absurd hl (hbuf b)
  | buf b =>
    cases l with
    | log => exact hl
    | inode j =>
      rcases hkind with ⟨i, k2, hinode⟩ | hno
      · rw [hprog'] at hinode
        cases hinode
      · exact absurd ⟨j, k, hprog⟩ hno
    | buf c => exact hmay.2 ⟨c, hl⟩

theorem Disciplined.not_self (hs : Disciplined (fsDiscipline sb) (· = []) s) {p : Fin n} :
    ¬s.Waits p p := by
  rintro ⟨l, k, hprog, hl⟩
  have hmay := hs.mayTake hprog
  cases l with
  | log =>
    rw [show (s p).held = [] from hmay] at hl
    cases hl
  | inode i => exact hmay.1 hl
  | buf b => exact hmay.1 hl

theorem Disciplined.awaits_back (hs : Disciplined (fsDiscipline sb) (· = []) s) {z a b : Fin n}
    (hza : s.Waits z a) (hab : s.Waits a b) (hb : AwaitsInode s b) : AwaitsInode s a := by
  obtain ⟨l, k, hprog, hl⟩ := hab
  obtain ⟨i, k', hprog'⟩ := hb
  obtain ⟨-, hbuf, -⟩ := hs.mayTake hprog'
  cases l with
  | log =>
    obtain ⟨l', k2, -, hl'⟩ := hza
    rw [show (s a).held = [] from hs.mayTake hprog] at hl'
    cases hl'
  | inode j => exact ⟨j, k, hprog⟩
  | buf c => exact absurd hl (hbuf c)

theorem Disciplined.awaits_of_reach (hs : Disciplined (fsDiscipline sb) (· = []) s) {a b : Fin n}
    (hab : Relation.TransGen s.Waits a b) (hb : AwaitsInode s b) (ha : ∃ z, s.Waits z a) :
    AwaitsInode s a := by
  induction hab using Relation.TransGen.head_induction_on with
  | single hab =>
    obtain ⟨z, hz⟩ := ha
    exact hs.awaits_back hz hab hb
  | head hac _ ih =>
    obtain ⟨z, hz⟩ := ha
    exact hs.awaits_back hz hac (ih ⟨_, hac⟩)

theorem Disciplined.own_of_cycle (hs : Disciplined (fsDiscipline sb) (· = []) s) {p : Fin n}
    (hcycle : Relation.TransGen s.Waits p p) : .log ∈ (s p).held := by
  obtain ⟨r, hpr, -⟩ := Relation.TransGen.head'_iff.mp hcycle
  obtain ⟨q, hpq, hqp⟩ := Relation.TransGen.tail'_iff.mp hcycle
  refine hs.own_of_waited hqp hpr ?_
  by_cases hp : AwaitsInode s p
  · exact Or.inl hp
  · right
    intro hq
    rcases Relation.reflTransGen_iff_eq_or_transGen.mp hpq with heq | hpq
    · exact hp (heq ▸ hq)
    · exact hp (hs.awaits_of_reach hpq hq ⟨q, hqp⟩)

theorem Disciplined.no_cycle (hs : Disciplined (fsDiscipline sb) (· = []) s) (p : Fin n) :
    ¬Relation.TransGen s.Waits p p := by
  intro hcycle
  obtain ⟨r, hpr, hrp⟩ := Relation.TransGen.head'_iff.mp hcycle
  have hr : Relation.TransGen s.Waits r r := Relation.TransGen.tail'_iff.mpr ⟨p, hrp, hpr⟩
  have heq := hs.exclusive p r .log (hs.own_of_cycle hcycle) (hs.own_of_cycle hr)
  rw [← heq] at hpr
  exact hs.not_self hpr

end Cycle

section Runs

variable {n : Nat}

def FsStep (sb : SuperBlock) (s : LockSys n FsLock FsRead) (e : LockEvent n FsCall)
    (s' : LockSys n FsLock FsRead) : Prop :=
  s.exec (FsCall.prog sb) e = some s'

def SoundStep (sb : SuperBlock) (s : LockSys n FsLock FsRead) (e : LockEvent n FsCall)
    (s' : LockSys n FsLock FsRead) : Prop :=
  FsStep sb s e s' ∧ s.Meets (fsDiscipline sb) e

theorem disciplined_idle (sb : SuperBlock) :
    Disciplined (fsDiscipline sb) (· = []) (FsLocks.idle n) where
  keeps _ := rfl
  exclusive _ _ _ hl := nomatch hl

/-- **Deadlock freedom.** In every interleaving of file-system calls in which blocks are allocated
and freed only inside the process's own transaction, free blocks and inodes are not in use, block
numbers are those of data blocks and no entry names its own directory, no reachable state contains
a cycle of processes each waiting for a lock that the next one holds. -/
theorem fs_no_deadlock (sb : SuperBlock) {es : List (LockEvent n FsCall)}
    {s : LockSys n FsLock FsRead} (hrun : Run (SoundStep sb) (FsLocks.idle n) es s) (p : Fin n) :
    ¬Relation.TransGen s.Waits p p :=
  (Run.invariant (Disciplined (fsDiscipline sb) (· = []))
    (fun _ _ _ hs hstep => hs.step (by rintro c _ rfl; exact FsLocks.wp_call c) hstep.2 hstep.1)
    (disciplined_idle sb) hrun).no_cycle p

end Runs

def mkfsSuperBlock : SuperBlock := { size := 1024, ninodes := 200, nlog := 10, fits := by decide }

/-- Two processes make directories and one waits for the transaction of the other. -/
theorem fs_no_deadlock_twoMkdirs :
    ∃ s, Run (SoundStep mkfsSuperBlock) (FsLocks.idle 2)
        [.call 0 .mkdir, .go 0 0, .call 1 .mkdir] s ∧
      s.Waits 1 0 ∧ ¬Relation.TransGen s.Waits 0 0 := by
  have hrun : ∃ s, Run (SoundStep mkfsSuperBlock) (FsLocks.idle 2)
      [.call 0 .mkdir, .go 0 0, .call 1 .mkdir] s ∧ s.Waits 1 0 := by
    refine ⟨_, .cons ⟨rfl, trivial⟩ (.cons ⟨rfl, ?_⟩ (.cons ⟨rfl, trivial⟩ (.nil _))), ?_⟩
    · intro q k hprog
      cases hprog
    · exact ⟨.log, _, rfl, List.mem_cons_self⟩
  obtain ⟨s, hrun, hwaits⟩ := hrun
  exact ⟨s, hrun, hwaits, fs_no_deadlock mkfsSuperBlock hrun 0⟩

/-- One process appends a block to inode 5: the bitmap goes into log slot 0, the new block 40 into
slot 1 and the inode into slot 2. The commit has begun to install slot 0. -/
def appendReads : List Nat :=
  [5, 1, 0, 0, 1, 0, 0, 1, 1, 0, 0, 0, 1, 0, 1, 0, 0, 0, 0, 40, 0, 1, 1, 1, 0, 0, 0, 0, 2, 1, 1, 0,
    0, 0, 1, 0, 2, 1, 2, 0, 0, 0, 0, 3, 0, 0, 0, 28]

/-- Another leaves its removed working directory, inode 9: `iput` frees block 41 outside any
transaction of its own and logs the bitmap. -/
def chdirReads : List Nat := [1, 0, 0, 1, 1, 0, 9, 1, 0, 1, 41, 0, 0, 0, 1, 3, 1, 0]

def deadlockRun {n : Nat} (p q : Fin n) : List (LockEvent n FsCall) :=
  .call p .write :: appendReads.map (.go p) ++ .call q .chdir :: chdirReads.map (.go q)

/-- **A deadlock.** The process that commits holds the first log block and waits for the bitmap
block; the process that frees a block holds the bitmap block and waits for the log block. -/
theorem fs_deadlock : ∃ s, Run (FsStep mkfsSuperBlock) (FsLocks.idle 2) (deadlockRun 0 1) s ∧
    s.Waits 0 1 ∧ s.Waits 1 0 ∧ Relation.TransGen s.Waits 0 0 := by
  have hexec : (execAll (LockSys.exec (FsCall.prog mkfsSuperBlock)) (FsLocks.idle 2)
      (deadlockRun 0 1)).map
        (fun s => ((s 0).prog.awaited, (s 0).held, (s 1).prog.awaited, (s 1).held)) =
      some (some (.buf 28), [.buf 1015, .log], some (.buf 1015), [.buf 28, .inode 9]) := by
    decide
  have hstep : ∀ (s : LockSys 2 FsLock FsRead) e s',
      s.exec (FsCall.prog mkfsSuperBlock) e = some s' → FsStep mkfsSuperBlock s e s' :=
    fun _ _ _ h => h
  obtain ⟨s, hrun, hobs⟩ := exists_run_of_execAll hstep _ hexec
  simp only [Prod.mk.injEq] at hobs
  obtain ⟨hawait0, hheld0, hawait1, hheld1⟩ := hobs
  obtain ⟨k0, hprog0⟩ := LockProg.eq_acquire_of_awaited hawait0
  obtain ⟨k1, hprog1⟩ := LockProg.eq_acquire_of_awaited hawait1
  have h01 : s.Waits 0 1 := ⟨_, k0, hprog0, by rw [hheld1]; decide⟩
  have h10 : s.Waits 1 0 := ⟨_, k1, hprog1, by rw [hheld0]; decide⟩
  exact ⟨s, hrun, h01, h10, .tail (.single h01) h10⟩

end Xv6
